import Mathlib.Algebra.BigOperators.Intervals

/-! Selected sums in a commutative group of exponent two, such as words under XOR.
The sum over a share and the sum over its partner add up to the sum over their XOR;
partners that differ in one place retrieve the item at that place. -/
namespace ImPir.XorSum
open Finset

section
variable {M : Type} [AddCommMonoid M]

def select (n : Nat) (bits : Nat → Bool) (f : Nat → M) : M := ∑ i ∈ range n, if bits i then f i else 0

theorem selectCongr {n : Nat} {a b : Nat → Bool} {f g : Nat → M} (bits : ∀ i < n, a i = b i)
    (items : ∀ i < n, f i = g i) : select n a f = select n b g := by
  apply sum_congr rfl
  intro i member
  have inside := mem_range.mp member
  rw [bits i inside,items i inside]

theorem selectNone {n : Nat} {bits : Nat → Bool} (f : Nat → M) (none : ∀ i < n, bits i = false) :
    select n bits f = 0 := by
  apply sum_eq_zero
  intro i member
  simp [none i (mem_range.mp member)]

theorem selectPoint {n point : Nat} (f : Nat → M) (inside : point < n) :
    select n (fun i => decide (i = point)) f = f point := by
  have one : ∀ i, (if decide (i = point) then f i else 0) = if i = point then f i else 0 := by simp
  simp only [select,one]
  rw [sum_ite_eq' (range n) point f,if_pos (mem_range.mpr inside)]

theorem sumRows (rows width : Nat) (f : Nat → M) :
    ∑ i ∈ range (rows*width), f i = ∑ j ∈ range rows, ∑ c ∈ range width, f (j*width + c) := by
  induction rows with
  | zero => simp
  | succ rows ih => rw [Nat.succ_mul,sum_range_add,ih,sum_range_succ]

variable (twice : ∀ a : M, a + a = 0)
include twice

theorem selectXor (n : Nat) (a b : Nat → Bool) (f : Nat → M) :
    select n (fun i => a i ^^ b i) f = select n a f + select n b f := by
  rw [select,select,select,← sum_add_distrib]
  apply sum_congr rfl
  intro i _
  cases a i <;> cases b i <;> simp [twice]

theorem selectShares {n point : Nat} {a b : Nat → Bool} (f : Nat → M) (inside : point < n)
    (shares : ∀ i < n, (a i ^^ b i) = decide (i = point)) :
    select n a f + select n b f = f point := by
  rw [← selectXor twice,selectCongr shares (fun _ _ => rfl),selectPoint f inside]

/- Shares of a point, each cut down to what its side keeps: what only one side keeps stays
behind, as the second share selects it. -/
theorem sharesKept {n point : Nat} {a b : Nat → Bool} (f : Nat → M) (inside : point < n) (kept kept' : Nat → Bool)
    (shares : ∀ i < n, (a i ^^ b i) = decide (i = point)) :
    select n (fun i => kept i && a i) f + select n (fun i => kept' i && b i) f =
      (if kept point then f point else 0) + select n (fun i => (kept i ^^ kept' i) && b i) f := by
  have regroup : select n (fun i => kept' i && b i) f =
      select n (fun i => kept i && b i) f + select n (fun i => (kept i ^^ kept' i) && b i) f := by
    rw [← selectXor twice]
    apply selectCongr _ (fun _ _ => rfl)
    intro i _
    cases kept i <;> cases kept' i <;> cases b i <;> rfl
  rw [regroup,← add_assoc,← selectXor twice]
  congr 1
  have pointOnly : ∀ i < n, ((kept i && a i) ^^ (kept i && b i)) = (kept point && decide (i = point)) := by
    intro i below
    rw [← Bool.and_xor_distrib_left,shares i below]
    rcases eq_or_ne i point with rfl | other
    · rfl
    · rw [decide_eq_false other,Bool.and_false,Bool.and_false]
  rw [selectCongr pointOnly (fun _ _ => rfl)]
  cases kept point with
  | true => exact selectPoint f inside
  | false => exact selectNone f (fun _ _ => rfl)

theorem sharesAlike {n point : Nat} {a b : Nat → Bool} (f : Nat → M) (inside : point < n) {kept kept' : Nat → Bool}
    (shares : ∀ i < n, (a i ^^ b i) = decide (i = point)) (alike : ∀ i < n, kept i = kept' i) :
    select n (fun i => kept i && a i) f + select n (fun i => kept' i && b i) f = if kept point then f point else 0 := by
  have nothing : select n (fun i => (kept i ^^ kept' i) && b i) f = 0 := by
    apply selectNone
    intro i below
    rw [alike i below,Bool.xor_self,Bool.false_and]
  rw [sharesKept twice f inside kept kept' shares,nothing,add_zero]

end
end ImPir.XorSum
