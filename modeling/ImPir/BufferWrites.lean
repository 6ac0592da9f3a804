import Mathlib.Data.List.Basic

/-! Writes into a fixed buffer, replayed in order. A write past the end of the buffer
has no result. A cell takes the value on which all writes that cover it agree. -/
namespace ImPir.BufferWrites

structure Write (ι β : Type) where
  lane : ι
  address : Nat
  bytes : List β
  deriving DecidableEq, Repr

section
variable {ι β : Type}

def Write.Covers (w : Write ι β) (p : Nat) : Prop := w.address ≤ p ∧ p < w.address + w.bytes.length
instance (w : Write ι β) (p) : Decidable (w.Covers p) := by unfold Write.Covers; infer_instance

def applyWrite (data : List β) (w : Write ι β) : Option (List β) :=
  if w.address + w.bytes.length ≤ data.length then
    some (data.take w.address ++ w.bytes ++ data.drop (w.address + w.bytes.length))
  else none

def replay (data : List β) (writes : List (Write ι β)) : Option (List β) := writes.foldlM applyWrite data

theorem replayCons {data : List β} {w : Write ι β} {writes out} (ok : replay data (w :: writes) = some out) :
    ∃ next, applyWrite data w = some next ∧ replay next writes = some out := by
  simpa only [replay,List.foldlM_cons,Option.bind_eq_bind,Option.bind_eq_some_iff] using ok

theorem applyAt {data out : List β} {w : Write ι β} (ok : applyWrite data w = some out) (p : Nat) :
    out[p]? = if w.Covers p then w.bytes[p - w.address]? else data[p]? := by
  unfold applyWrite at ok
  split at ok <;> try contradiction
  rename_i fits
  cases Option.some.inj ok
  have before : (data.take w.address).length = w.address := by simp; omega
  by_cases low : p < w.address
  · have free : ¬ w.Covers p := fun hit => absurd hit.1 (by omega)
    rw [List.append_assoc,List.getElem?_append_left (by omega),if_neg free,List.getElem?_take_of_lt low]
  · by_cases inside : p < w.address + w.bytes.length
    · have hit : w.Covers p := ⟨by omega,inside⟩
      rw [if_pos hit,List.append_assoc,List.getElem?_append_right (by omega),before,
        List.getElem?_append_left (by omega)]
    · have free : ¬ w.Covers p := fun hit => inside hit.2
      rw [if_neg free,List.getElem?_append_right (by simp; omega),List.getElem?_drop]
      simp only [List.length_append,before]
      congr 1
      omega

theorem applyLength {data out : List β} {w : Write ι β} (ok : applyWrite data w = some out) :
    out.length = data.length := by
  unfold applyWrite at ok
  split at ok <;> try contradiction
  cases Option.some.inj ok
  simp
  omega

theorem replayUncovered {data out : List β} {writes : List (Write ι β)} {p : Nat}
    (ok : replay data writes = some out) (free : ∀ w ∈ writes, ¬ w.Covers p) : out[p]? = data[p]? := by
  induction writes generalizing data with
  | nil => cases Option.some.inj ok; rfl
  | cons w writes ih =>
    obtain ⟨next,first,rest⟩ := replayCons ok
    rw [ih rest (fun v member => free v (List.mem_cons_of_mem _ member)),applyAt first,
      if_neg (free w List.mem_cons_self)]

theorem replayCovered {data out : List β} {writes : List (Write ι β)} {p : Nat} {value : Option β}
    (ok : replay data writes = some out) (covered : ∃ w ∈ writes, w.Covers p)
    (agree : ∀ w ∈ writes, w.Covers p → w.bytes[p - w.address]? = value) : out[p]? = value := by
  induction writes generalizing data with
  | nil => obtain ⟨w,member,_⟩ := covered; cases member
  | cons w writes ih =>
    obtain ⟨next,first,rest⟩ := replayCons ok
    have later (v) (member : v ∈ writes) := agree v (List.mem_cons_of_mem _ member)
    by_cases again : ∃ v ∈ writes, v.Covers p
    · exact ih rest again later
    · -- `w` is the last write to this cell
      have free : ∀ v ∈ writes, ¬ v.Covers p := fun v member hit => again ⟨v,member,hit⟩
      obtain ⟨v,member,hit⟩ := covered
      rcases List.mem_cons.mp member with rfl | inside
      · rw [replayUncovered rest free,applyAt first,if_pos hit]
        exact agree v List.mem_cons_self hit
      · exact absurd hit (free v inside)

theorem replayFits {data : List β} {writes : List (Write ι β)}
    (fits : ∀ w ∈ writes, w.address + w.bytes.length ≤ data.length) :
    ∃ out, replay data writes = some out ∧ out.length = data.length := by
  induction writes generalizing data with
  | nil => exact ⟨data,rfl,rfl⟩
  | cons w writes ih =>
    have first : applyWrite data w =
        some (data.take w.address ++ w.bytes ++ data.drop (w.address + w.bytes.length)) :=
      if_pos (fits w List.mem_cons_self)
    have same := applyLength first
    obtain ⟨out,rest,length⟩ := ih (fun v member => by
      rw [same]; exact fits v (List.mem_cons_of_mem _ member))
    refine ⟨out,?_,length.trans same⟩
    simp only [replay,List.foldlM_cons,first,Option.bind_eq_bind,Option.bind_some]
    exact rest

end
end ImPir.BufferWrites
