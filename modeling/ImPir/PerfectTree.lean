import Mathlib.Data.List.Basic
import Mathlib.Tactic.Ring

/-! Perfect binary trees given by a child function, never stored. The depth-first
list of leaves and the walk along the bits of a leaf number name the same node. -/
namespace ImPir.PerfectTree

section
variable {σ τ : Type} (child : Nat → Bool → σ → σ)

def walk (level : Nat) : List Bool → σ → σ
  | [], s => s
  | d :: rest, s => walk (level+1) rest (child level d s)

def leaves : (depth level : Nat) → σ → List σ
  | 0, _, s => [s]
  | depth+1, level, s =>
      leaves depth (level+1) (child level false s) ++ leaves depth (level+1) (child level true s)

/- The turns from the root to leaf `k`: its low `depth` bits, top bit first. -/
def turns : (depth : Nat) → Nat → List Bool
  | 0, _ => []
  | depth+1, k => k.testBit depth :: turns depth k

@[simp] theorem turnsLength (depth k : Nat) : (turns depth k).length = depth := by
  induction depth with
  | zero => rfl
  | succ depth ih => simp [turns,ih]

theorem turnsMod {depth width : Nat} (k : Nat) (h : depth ≤ width) :
    turns depth (k % 2^width) = turns depth k := by
  induction depth with
  | zero => rfl
  | succ depth ih =>
    have below : depth < width := by omega
    simp [turns,ih (by omega),Nat.testBit_mod_two_pow,below]

theorem turnsRange (depth k : Nat) :
    turns depth k = (List.range depth).map (fun i => k.testBit (depth-1-i)) := by
  induction depth with
  | zero => rfl
  | succ depth ih =>
    rw [turns,ih,List.range_succ_eq_map,List.map_cons,List.map_map]
    simp only [Nat.add_sub_cancel,Nat.sub_zero,List.cons.injEq,true_and]
    apply List.map_congr_left
    intro i _
    simp only [Function.comp_apply,Nat.succ_eq_add_one]
    congr 1
    omega

theorem turnsInjective {depth a b : Nat} (ha : a < 2^depth) (hb : b < 2^depth)
    (same : turns depth a = turns depth b) : a = b := by
  apply Nat.eq_of_testBit_eq
  intro i
  by_cases below : i < depth
  · rw [turnsRange,turnsRange] at same
    have bit := congrArg (fun l => l[depth-1-i]?) same
    have inside : depth-1-i < depth := by omega
    have place : depth-1-(depth-1-i) = i := by omega
    simpa [inside,place] using bit
  · have high : 2^depth ≤ 2^i := Nat.pow_le_pow_right (by omega) (by omega)
    rw [Nat.testBit_lt_two_pow (by omega),Nat.testBit_lt_two_pow (by omega)]

theorem walkAppend (level : Nat) (front back : List Bool) (s : σ) :
    walk child level (front ++ back) s =
      walk child (level+front.length) back (walk child level front s) := by
  induction front generalizing level s with
  | nil => rfl
  | cons d front ih =>
    simp only [List.cons_append,walk,ih,List.length_cons]
    congr 1
    omega

theorem walkSnoc (level : Nat) (front : List Bool) (d : Bool) (s : σ) :
    walk child level (front ++ [d]) s = child (level+front.length) d (walk child level front s) := by
  rw [walkAppend]; rfl

theorem walkSimulates {child' : Nat → Bool → τ → τ} (f : σ → τ) (good : σ → Prop) (bound : Nat)
    (simulates : ∀ level d s, level < bound → good s →
      f (child level d s) = child' level d (f s) ∧ good (child level d s))
    (level : Nat) (path : List Bool) (s : σ) (root : good s) (inside : level + path.length ≤ bound) :
    f (walk child level path s) = walk child' level path (f s) ∧ good (walk child level path s) := by
  induction path generalizing level s with
  | nil => exact ⟨rfl,root⟩
  | cons d path ih =>
    simp only [List.length_cons] at inside
    have next := simulates level d s (by omega) root
    simp only [walk,← next.1]
    exact ih (level+1) _ next.2 (by omega)

@[simp] theorem leavesLength (depth level : Nat) (s : σ) : (leaves child depth level s).length = 2^depth := by
  induction depth generalizing level s with
  | zero => rfl
  | succ depth ih => simp only [leaves,List.length_append,ih]; ring

theorem leavesAt {depth : Nat} (level k : Nat) (s : σ) (h : k < 2^depth) :
    (leaves child depth level s)[k]? = some (walk child level (turns depth k) s) := by
  induction depth generalizing level k s with
  | zero =>
    have first : k = 0 := by omega
    subst first
    rfl
  | succ depth ih =>
    simp only [leaves,turns,walk]
    by_cases left : k < 2^depth
    · have bit : k.testBit depth = false := Nat.testBit_lt_two_pow left
      rw [List.getElem?_append_left (by simpa using left),ih (level+1) k _ left,bit]
    · obtain ⟨j,rfl⟩ : ∃ j, k = 2^depth + j := ⟨k - 2^depth,by omega⟩
      have small : j < 2^depth := by omega
      have bit : (2^depth+j).testBit depth = true := by
        simp [Nat.testBit_two_pow_add_eq,Nat.testBit_lt_two_pow small]
      have low : turns depth (2^depth+j) = turns depth j := by
        rw [← turnsMod (2^depth+j) (Nat.le_refl depth),Nat.add_mod_left,Nat.mod_eq_of_lt small]
      rw [List.getElem?_append_right (by simp),leavesLength,Nat.add_sub_cancel_left,
        ih (level+1) j _ small,bit,low]

theorem leavesCut (top depth level : Nat) (s : σ) :
    leaves child (top+depth) level s =
      (leaves child top level s).flatMap (leaves child depth (level+top)) := by
  induction top generalizing level s with
  | zero => simp [leaves]
  | succ top ih =>
    have below : level+1+top = level+(top+1) := by omega
    have height : top+1+depth = (top+depth)+1 := by omega
    rw [height]
    simp only [leaves,ih,below,List.flatMap_append]

theorem leavesMap {child' : Nat → Bool → τ → τ} (f : σ → τ)
    (commutes : ∀ level d s, f (child level d s) = child' level d (f s)) (depth level : Nat) (s : σ) :
    (leaves child depth level s).map f = leaves child' depth level (f s) := by
  induction depth generalizing level s with
  | zero => rfl
  | succ depth ih => simp only [leaves,List.map_append,ih,commutes]

end
end ImPir.PerfectTree
