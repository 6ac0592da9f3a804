import Mathlib.Data.List.Basic

/-! Slices of a list. Consecutive slices join to the slice from the first cut to the
last, so a list that is dealt out at cuts from its start to its end is dealt out whole. -/
namespace ImPir.Slices

section
variable {α : Type}

def slice (l : List α) (start stop : Nat) : List α := (l.drop start).take (stop - start)

theorem sliceAt {l : List α} {start stop k : Nat} :
    (slice l start stop)[k]? = if k < stop - start then l[start + k]? else none := by
  rw [slice,List.getElem?_take,List.getElem?_drop]

theorem sliceEmpty (l : List α) {start stop : Nat} (none : stop ≤ start) : slice l start stop = [] := by
  rw [slice,Nat.sub_eq_zero_of_le none,List.take_zero]

theorem sliceWhole {l : List α} {stop : Nat} (all : l.length ≤ stop) : slice l 0 stop = l := by
  rw [slice,List.drop_zero,Nat.sub_zero,List.take_of_length_le all]

theorem sliceAppend (l : List α) {first second third : Nat} (low : first ≤ second) (high : second ≤ third) :
    slice l first second ++ slice l second third = slice l first third := by
  have width : third - first = (second - first) + (third - second) := by omega
  have place : second - first + first = second := by omega
  rw [slice,slice,slice,width,List.take_add,List.drop_drop,Nat.add_comm first,place]

/- `count` consecutive slices. -/
theorem slicesJoin (l : List α) {cut : Nat → Nat} {count : Nat} (up : ∀ i < count, cut i ≤ cut (i+1)) :
    (List.range count).flatMap (fun i => slice l (cut i) (cut (i+1))) = slice l (cut 0) (cut count) := by
  have joined : ∀ n ≤ count, cut 0 ≤ cut n ∧
      (List.range n).flatMap (fun i => slice l (cut i) (cut (i+1))) = slice l (cut 0) (cut n) := by
    intro n
    induction n with
    | zero =>
      intro _
      exact ⟨Nat.le_refl _,by rw [sliceEmpty l (Nat.le_refl _)]; rfl⟩
    | succ n ih =>
      intro within
      obtain ⟨low,before⟩ := ih (by omega)
      have next := up n within
      refine ⟨Nat.le_trans low next,?_⟩
      rw [List.range_succ,List.flatMap_append,before,List.flatMap_singleton,sliceAppend l low next]
  exact (joined count (Nat.le_refl _)).2

theorem sliceRange (n start stop : Nat) : slice (List.range n) start stop = List.range' start (min stop n - start) := by
  apply List.ext_getElem?
  intro k
  rw [sliceAt]
  rcases Nat.lt_or_ge k (min stop n - start) with inside | outside
  · rw [List.getElem?_range' inside,if_pos (by omega),List.getElem?_range (by omega),Nat.one_mul]
  · have past : (List.range' start (min stop n - start))[k]? = none :=
      List.getElem?_eq_none (by rw [List.length_range']; exact outside)
    rw [past]
    split
    · exact List.getElem?_eq_none (by rw [List.length_range]; omega)
    · rfl

end
end ImPir.Slices
