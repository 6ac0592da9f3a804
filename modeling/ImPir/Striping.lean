import Mathlib.Algebra.BigOperators.Intervals

/-! A table of items cut into blocks of `width`, the last one perhaps shorter, and
the blocks dealt out to `hands` in turn. What one hand collects block after block is
its stripe, and the stripes of all hands together are the table. -/
namespace ImPir.Striping
open Finset

section
variable {M : Type} [AddCommMonoid M] (total width hands : Nat) (f : Nat → M)

/- What is left of a hand's stripe from its block `q` on. -/
def stripeFrom (q : Nat) : M :=
  ∑ r ∈ range total, if q ≤ r/width ∧ r/width % hands = q % hands then f r else 0

theorem stripeDone {q : Nat} (positive : 0 < width) (past : total ≤ width*q) :
    stripeFrom total width hands f q = 0 := by
  apply sum_eq_zero
  intro r member
  have below : r/width < q := (Nat.div_lt_iff_lt_mul positive).mpr (by
    have inside := mem_range.mp member
    rw [Nat.mul_comm q]
    omega)
  exact if_neg (fun h => by omega)

theorem sumBlock {q count rest : Nat} (positive : 0 < width) (short : count ≤ width) (last : rest = 0 ∨ count = width)
    (split : total = width*q + count + rest) :
    (∑ r ∈ range total, if r/width = q then f r else 0) = ∑ j ∈ range count, f (width*q + j) := by
  have before : (∑ r ∈ range (width*q), if r/width = q then f r else 0) = 0 := by
    apply sum_eq_zero
    intro r member
    have below : r/width < q := (Nat.div_lt_iff_lt_mul positive).mpr (by
      rw [Nat.mul_comm q]
      exact mem_range.mp member)
    exact if_neg (by omega)
  have block : ∀ j ∈ range count,
      (if (width*q + j)/width = q then f (width*q + j) else 0) = f (width*q + j) := by
    intro j member
    have small : j < width := by have := mem_range.mp member; omega
    rw [Nat.mul_add_div positive,Nat.div_eq_of_lt small,Nat.add_zero,if_pos rfl]
  have after : (∑ j ∈ range rest,
      if (width*q + count + j)/width = q then f (width*q + count + j) else 0) = 0 := by
    apply sum_eq_zero
    intro j member
    have whole : count = width := by have := mem_range.mp member; omega
    rw [whole,Nat.add_assoc,Nat.mul_add_div positive,Nat.add_div_left _ positive]
    exact if_neg (by simp)
  rw [split,sum_range_add,sum_range_add,before,sum_congr rfl block,after,zero_add,add_zero]

theorem nextBlock {q b : Nat} (dealt : 0 < hands) :
    (q ≤ b ∧ b % hands = q % hands) ↔ (b = q ∨ (q + hands ≤ b ∧ b % hands = (q + hands) % hands)) := by
  rw [Nat.add_mod_right]
  constructor
  · rintro ⟨le,same⟩
    have gap : (b - q) % hands = 0 := Nat.sub_mod_eq_zero_of_mod_eq same
    have far : b - q < hands → b - q = 0 := fun near => by rwa [Nat.mod_eq_of_lt near] at gap
    omega
  · rintro (rfl | ⟨le,same⟩)
    · exact ⟨le_refl _,rfl⟩
    · exact ⟨by omega,same⟩

theorem stripeStep {q count rest : Nat} (dealt : 0 < hands) (positive : 0 < width) (short : count ≤ width)
    (last : rest = 0 ∨ count = width) (split : total = width*q + count + rest) :
    stripeFrom total width hands f q =
      (∑ j ∈ range count, f (width*q + j)) + stripeFrom total width hands f (q + hands) := by
  rw [← sumBlock total width f positive short last split,stripeFrom,stripeFrom,← sum_add_distrib]
  apply sum_congr rfl
  intro r _
  rw [if_congr (nextBlock hands dealt) rfl rfl]
  rcases Nat.lt_trichotomy (r/width) q with low | here | high
  · rw [if_neg (by omega),if_neg (by omega),if_neg (by omega),add_zero]
  · rw [if_pos (Or.inl here),if_pos here,if_neg (by omega),add_zero]
  · rw [if_neg (by omega : r/width ≠ q),zero_add]
    exact if_congr (by omega) rfl rfl

theorem stripesKept (dealt : 0 < hands) (keep : Nat → Bool) :
    (∑ hand ∈ range hands, if keep hand then stripeFrom total width hands f hand else 0) =
      ∑ r ∈ range total, if keep (r/width % hands) then f r else 0 := by
  have inside : ∀ hand ∈ range hands, (if keep hand then stripeFrom total width hands f hand else 0) =
      ∑ r ∈ range total, if r/width % hands = hand then (if keep hand then f r else 0) else 0 := by
    intro hand member
    have small := Nat.mod_eq_of_lt (mem_range.mp member)
    have first : ∀ r, (hand ≤ r/width ∧ r/width % hands = hand % hands) ↔ r/width % hands = hand := by
      intro r
      have le := Nat.mod_le (r/width) hands
      rw [small]
      omega
    cases keep hand with
    | false => simp
    | true =>
      rw [if_pos rfl,stripeFrom]
      exact sum_congr rfl (fun r _ => if_congr (first r) rfl rfl)
  rw [sum_congr rfl inside,sum_comm]
  apply sum_congr rfl
  intro r _
  rw [sum_ite_eq (range hands) (r/width % hands) (fun hand => if keep hand then f r else 0),
    if_pos (mem_range.mpr (Nat.mod_lt _ dealt))]

theorem stripesCover (dealt : 0 < hands) :
    ∑ hand ∈ range hands, stripeFrom total width hands f hand = ∑ r ∈ range total, f r := by
  have all := stripesKept total width hands f dealt (fun _ => true)
  simpa using all

end
end ImPir.Striping
