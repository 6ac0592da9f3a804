import Mathlib.Algebra.Group.Basic
import Mathlib.Algebra.BigOperators.Group.List.Basic
import Mathlib.Algebra.BigOperators.Intervals

/-! A pool of workers. `n` jobs are shared among `k` of them in consecutive ranges, the
first `n % k` one job longer; each job has one owner. A step of one worker moves its
part of a sum over the pool and no other. -/
namespace ImPir.WorkerPool
open Finset Function

def shareStart (n k w : Nat) : Nat := w*(n/k) + min w (n % k)

section
variable {n k : Nat}

theorem shareZero : shareStart n k 0 = 0 := by
  rw [shareStart,Nat.zero_mul,Nat.zero_min]

theorem shareNext (w : Nat) : shareStart n k (w+1) = shareStart n k w + (n/k + if w < n % k then 1 else 0) := by
  rw [shareStart,shareStart,Nat.succ_mul]
  split <;> omega

theorem shareAll (positive : 0 < k) : shareStart n k k = n := by
  have short : n % k < k := Nat.mod_lt n positive
  rw [shareStart,Nat.min_eq_right (by omega),Nat.div_add_mod]

theorem shareMono {w v : Nat} (order : w ≤ v) : shareStart n k w ≤ shareStart n k v := by
  have whole : w*(n/k) ≤ v*(n/k) := Nat.mul_le_mul_right _ order
  unfold shareStart
  omega

theorem shareOwner {b w : Nat} (inside : b < shareStart n k w) :
    ∃ v < w, shareStart n k v ≤ b ∧ b < shareStart n k (v+1) := by
  induction w with
  | zero =>
    rw [shareZero] at inside
    omega
  | succ w ih =>
    rcases Nat.lt_or_ge b (shareStart n k w) with before | here
    · obtain ⟨v,below,owned⟩ := ih before
      exact ⟨v,by omega,owned⟩
    · exact ⟨w,by omega,here,inside⟩

theorem shareUnique {b w v : Nat} (first : shareStart n k w ≤ b ∧ b < shareStart n k (w+1))
    (second : shareStart n k v ≤ b ∧ b < shareStart n k (v+1)) : w = v := by
  rcases Nat.lt_trichotomy w v with less | same | more
  · have := shareMono (n := n) (k := k) (show w+1 ≤ v by omega)
    omega
  · exact same
  · have := shareMono (n := n) (k := k) (show v+1 ≤ w by omega)
    omega

end

section
variable {α M : Type} [AddCommMonoid M]

theorem poolSet (part : α → M) {pool : List α} {j : Nat} {a : α} (worker : pool[j]? = some a) (a' : α) :
    ((pool.set j a').map part).sum + part a = (pool.map part).sum + part a' := by
  induction pool generalizing j with
  | nil => simp at worker
  | cons first pool ih =>
    cases j with
    | zero =>
      simp only [List.getElem?_cons_zero,Option.some.injEq] at worker
      subst worker
      simp only [List.set_cons_zero,List.map_cons,List.sum_cons]
      rw [add_comm,← add_assoc,add_right_comm]
    | succ j =>
      simp only [List.getElem?_cons_succ] at worker
      simp only [List.set_cons_succ,List.map_cons,List.sum_cons,add_assoc,ih worker]

/- The same for workers that are numbered: worker `i` changes from `family i` to `b`. -/
theorem familySet {β : Type} {n i : Nat} (inside : i < n) (part : Nat → β → M) (family : Nat → β) (b : β) :
    ∑ j ∈ range n, part j (update family i b j) + part i (family i) =
      ∑ j ∈ range n, part j (family j) + part i b := by
  have member := mem_range.mpr inside
  have others : ∑ j ∈ (range n).erase i, part j (update family i b j) = ∑ j ∈ (range n).erase i, part j (family j) := by
    apply sum_congr rfl
    intro j inErase
    rw [update_of_ne (ne_of_mem_erase inErase)]
  rw [← add_sum_erase _ _ member,← add_sum_erase _ (fun j => part j (family j)) member,others,update_self]
  rw [add_comm (part i b),add_assoc,add_comm (part i b),← add_assoc,add_comm _ (part i (family i))]

end
end ImPir.WorkerPool
