import Mathlib.Data.List.Range

/-! The counting loop `for (i = lo; i < hi; i += step)`, as the list of the values
its variable takes. -/
namespace ImPir.Loops

def indices (lo hi step : Nat) : List Nat := List.range' lo ((hi-lo + step-1)/step) step

theorem strideIndices (count step : Nat) : List.range' 0 count step = (List.range count).map (fun j => step*j) := by
  induction count with
  | zero => rfl
  | succ count ih =>
    rw [List.range'_concat,ih,List.range_succ,List.map_append,List.map_singleton,Nat.zero_add]

theorem indicesRows {step : Nat} (positive : 0 < step) (m : Nat) :
    indices 0 (step*m) step = (List.range m).map (fun j => step*j) := by
  have count : (step*m - 0 + step - 1)/step = m := by
    rw [Nat.sub_zero,Nat.add_sub_assoc positive,Nat.mul_add_div positive,Nat.div_eq_of_lt (by omega),Nat.add_zero]
  rw [indices,count,strideIndices]

/- A loop over whole groups, each written out item by item, visits every item in order. -/
theorem groupsFlat {step : Nat} (positive : 0 < step) (m : Nat) :
    (indices 0 (step*m) step).flatMap (fun i => (List.range step).map (fun j => i + j)) = List.range (step*m) := by
  rw [indicesRows positive]
  induction m with
  | zero => rfl
  | succ m ih =>
    rw [List.range_succ,List.map_append,List.flatMap_append,ih,Nat.mul_succ,List.range_add]
    simp

/- A loop that rewrites one item after the other in place. -/
theorem rewriteAt {α : Type} (f : Nat → α → α) (d : α) (xs : List α) (n j : Nat) :
    ((List.range n).foldl (fun out i => out.set i (f i (out.getD i d))) xs)[j]? =
      if j < n then xs[j]?.map (f j) else xs[j]? := by
  induction n with
  | zero => rfl
  | succ n ih =>
    rw [List.range_succ,List.foldl_append,List.foldl_cons,List.foldl_nil,List.getElem?_set]
    rcases Nat.lt_trichotomy j n with before | rfl | after
    · rw [if_neg (by omega),ih,if_pos before,if_pos (by omega)]
    · rw [if_neg (Nat.lt_irrefl j)] at ih
      rw [if_pos rfl,if_pos (by omega : j < j+1),List.getD_eq_getElem?_getD,← ih]
      generalize (List.range j).foldl _ xs = out
      rcases Nat.lt_or_ge j out.length with inside | outside
      · rw [if_pos inside,List.getElem?_eq_getElem inside]
        rfl
      · rw [if_neg (by omega),List.getElem?_eq_none outside]
        rfl
    · rw [if_neg (by omega),ih,if_neg (by omega),if_neg (by omega)]

theorem mapRangeAt {β : Type} (f : Nat → β) {n i : Nat} (inside : i < n) : ((List.range n).map f)[i]? = some (f i) := by
  simp [inside]

theorem mapRangeGetD {β : Type} (f : Nat → β) (d : β) {n i : Nat} (inside : i < n) :
    ((List.range n).map f).getD i d = f i := by
  rw [List.getD_eq_getElem?_getD,mapRangeAt f inside,Option.getD_some]

theorem indicesMember {i hi step : Nat} (positive : 0 < step) :
    i ∈ indices 0 hi step ↔ i < hi ∧ i % step = 0 := by
  rw [indices,strideIndices,List.mem_map]
  constructor
  · rintro ⟨j,member,rfl⟩
    have inside := List.mem_range.mp member
    have rows : step*(j+1) ≤ hi - 0 + step - 1 := by
      rw [Nat.mul_comm]
      exact (Nat.le_div_iff_mul_le positive).mp inside
    rw [Nat.mul_add_one] at rows
    exact ⟨by omega,Nat.mul_mod_right _ _⟩
  · rintro ⟨inside,aligned⟩
    have whole := Nat.mul_div_cancel' (Nat.dvd_of_mod_eq_zero aligned)
    refine ⟨i/step,List.mem_range.mpr ?_,whole⟩
    apply (Nat.le_div_iff_mul_le positive).mpr
    rw [Nat.succ_mul,Nat.mul_comm,whole]
    omega

end ImPir.Loops
