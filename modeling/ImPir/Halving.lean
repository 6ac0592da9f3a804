import Mathlib.Algebra.BigOperators.Intervals

/-! The halving reduction of `n` values: as long as half of the count is positive, the
upper half is added to the lower one. An odd count loses its last value, so place 0
ends with the sum over a set of places that the binary shape of `n` determines. -/
namespace ImPir.Halving
open Finset

section
variable {M : Type} [AddCommMonoid M]

def foldHalf (step : Nat) (f : Nat → M) : Nat → M := fun j => if j < step then f j + f (j + step) else f j

def steps (n : Nat) : List Nat := if n/2 = 0 then [] else n/2 :: steps (n/2)
termination_by n
decreasing_by omega

def reduce (n : Nat) (f : Nat → M) : Nat → M := (steps n).foldl (fun f step => foldHalf step f) f

/- Whether the value at place `j` of `n` reaches place 0. -/
def keeps (n j : Nat) : Bool :=
  if n/2 = 0 then j == 0 else decide (j < 2*(n/2)) && keeps (n/2) (j % (n/2))
termination_by n
decreasing_by omega

theorem reduceStep {n : Nat} (more : n/2 ≠ 0) (f : Nat → M) : reduce n f = reduce (n/2) (foldHalf (n/2) f) := by
  rw [reduce,steps,if_neg more,List.foldl_cons,← reduce]

theorem keepsHalf {n : Nat} (half : 0 < n/2) (j : Nat) :
    keeps n j = (decide (j < 2*(n/2)) && keeps (n/2) (j % (n/2))) := by
  rw [keeps,if_neg (by omega)]

theorem keepsLow {n j : Nat} (low : j < n/2) : keeps n j = keeps (n/2) j := by
  rw [keepsHalf (by omega),decide_eq_true (by omega),Nat.mod_eq_of_lt low,Bool.true_and]

theorem keepsHigh {n j : Nat} (low : j < n/2) : keeps n (n/2 + j) = keeps (n/2) j := by
  rw [keepsHalf (by omega),decide_eq_true (by omega),Nat.add_mod_left,Nat.mod_eq_of_lt low,Bool.true_and]

theorem keepsOdd {n : Nat} (half : 0 < n/2) (j : Nat) : keeps n (n/2 + n/2 + j) = false := by
  rw [keepsHalf half,decide_eq_false (by omega),Bool.false_and]

theorem sumHalf {n : Nat} (half : 0 < n/2) (f : Nat → M) :
    (∑ j ∈ range (n/2), if keeps (n/2) j then foldHalf (n/2) f j else 0) =
      ∑ j ∈ range n, if keeps n j then f j else 0 := by
  obtain ⟨odd,split⟩ : ∃ odd, n = n/2 + n/2 + odd := ⟨n - (n/2 + n/2),by omega⟩
  have low : ∀ j ∈ range (n/2), (if keeps n j then f j else 0) = if keeps (n/2) j then f j else 0 := by
    intro j member
    rw [keepsLow (mem_range.mp member)]
  have high : ∀ j ∈ range (n/2), (if keeps n (n/2 + j) then f (n/2 + j) else 0) =
      if keeps (n/2) j then f (j + n/2) else 0 := by
    intro j member
    rw [keepsHigh (mem_range.mp member),Nat.add_comm]
  have lost : ∀ j ∈ range odd, (if keeps n (n/2 + n/2 + j) then f (n/2 + n/2 + j) else 0) = 0 := by
    intro j _
    rw [keepsOdd half]
    rfl
  have parts : ∑ j ∈ range n, (if keeps n j then f j else 0) =
      ∑ j ∈ range (n/2 + n/2 + odd), if keeps n j then f j else 0 := by rw [← split]
  rw [parts,sum_range_add,sum_range_add,sum_congr rfl low,sum_congr rfl high,sum_congr rfl lost,
    sum_const_zero,add_zero,← sum_add_distrib]
  apply sum_congr rfl
  intro j member
  rw [foldHalf,if_pos (mem_range.mp member)]
  split
  · rfl
  · exact (add_zero 0).symm

theorem reduceSum {n : Nat} (positive : 0 < n) (f : Nat → M) :
    reduce n f 0 = ∑ j ∈ range n, if keeps n j then f j else 0 := by
  induction n using Nat.strong_induction_on generalizing f with
  | _ n ih =>
    rcases Nat.eq_zero_or_pos (n/2) with last | half
    · have one : n = 1 := by omega
      subst one
      rw [sum_range_one,reduce,steps,keeps,if_pos last]
      rfl
    · rw [reduceStep (by omega),ih (n/2) (by omega) half,sumHalf half]

/- No value is lost exactly when every halving is even, down to the last one. -/
theorem keepsAll {n : Nat} (positive : 0 < n) : (∀ j < n, keeps n j = true) ↔ ∃ e, n = 2^e := by
  induction n using Nat.strong_induction_on with
  | _ n ih =>
    rcases Nat.eq_zero_or_pos (n/2) with last | half
    · have one : n = 1 := by omega
      subst one
      refine ⟨fun _ => ⟨0,rfl⟩,?_⟩
      intro _ j inside
      rw [keeps,if_pos last]
      simpa using inside
    · have next := ih (n/2) (by omega) half
      constructor
      · intro all
        have even : n = 2*(n/2) := by
          by_contra odd
          have lost := all (n/2 + n/2 + 0) (by omega)
          rw [keepsOdd half] at lost
          contradiction
        obtain ⟨e,power⟩ := next.mp (fun j low => by rw [← keepsLow low]; exact all j (by omega))
        exact ⟨e+1,by rw [pow_succ,← power]; omega⟩
      · rintro ⟨e,power⟩ j inside
        cases e with
        | zero => omega
        | succ e =>
          rw [pow_succ] at power
          have kept := next.mpr ⟨e,by omega⟩
          rcases Nat.lt_or_ge j (n/2) with low | high
          · rw [keepsLow low]
            exact kept j low
          · obtain ⟨j',rfl⟩ : ∃ j', j = n/2 + j' := ⟨j - n/2,by omega⟩
            rw [keepsHigh (by omega)]
            exact kept j' (by omega)

theorem reduceAll {n : Nat} (positive : 0 < n) {a : M} (nonzero : a ≠ 0) :
    (∀ f : Nat → M, (∑ j ∈ range n, if keeps n j then f j else 0) = ∑ j ∈ range n, f j) ↔ ∃ e, n = 2^e := by
  rw [← keepsAll positive]
  constructor
  · intro exact_ j inside
    have single := exact_ (fun i => if i = j then a else 0)
    have left : ∀ i ∈ range n, (if keeps n i then (if i = j then a else 0) else 0) =
        if i = j then (if keeps n j then a else 0) else 0 := by
      intro i _
      rcases eq_or_ne i j with rfl | other
      · rw [if_pos rfl,if_pos rfl]
      · rw [if_neg other,if_neg other,ite_self]
    rw [sum_congr rfl left,sum_ite_eq',sum_ite_eq',if_pos (mem_range.mpr inside),if_pos (mem_range.mpr inside)] at single
    by_contra lost
    rw [if_neg lost] at single
    exact nonzero single.symm
  · intro all f
    apply sum_congr rfl
    intro j member
    rw [if_pos (all j (mem_range.mp member))]

end
end ImPir.Halving
