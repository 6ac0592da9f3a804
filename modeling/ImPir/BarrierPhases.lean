import Mathlib.Logic.Function.Basic
import Mathlib.Data.List.Perm.Basic

/-! Parallel phases between barriers. In a phase every operation writes a cell of its
own and reads no cell that another operation of the phase writes, so every order of
the phase has the same effect: each operation's value in the state before it. -/
namespace ImPir.BarrierPhases
open Function

section
variable {κ V α : Type} [DecidableEq κ] (cell : α → κ) (value : α → (κ → V) → V)

def apply (s : κ → V) (a : α) : κ → V := update s (cell a) (value a s)

def run (ops : List α) (s : κ → V) : κ → V := ops.foldl (apply cell value) s

/- The operations of the phases one after the other, each phase in any order. -/
inductive Runs : List (List α) → (κ → V) → (κ → V) → Prop where
  | done (s : κ → V) : Runs [] s s
  | phase {ops order phases} {s s' : κ → V} (perm : order.Perm ops) (rest : Runs phases (run cell value order s) s') :
      Runs (ops :: phases) s s'

def runInOrder (phases : List (List α)) (s : κ → V) : κ → V := phases.foldl (fun s ops => run cell value ops s) s

structure Independent (ops : List α) : Prop where
  distinct : ops.Pairwise (fun a b => cell a ≠ cell b)
  reads : ∀ a ∈ ops, ∀ b ∈ ops, cell a ≠ cell b → ∀ (s : κ → V) v, value a (update s (cell b) v) = value a s

variable {cell value}

theorem independentTail {a : α} {ops : List α} (h : Independent cell value (a :: ops)) : Independent cell value ops :=
  ⟨(List.pairwise_cons.mp h.distinct).2,fun b mb c mc =>
    h.reads b (List.mem_cons_of_mem _ mb) c (List.mem_cons_of_mem _ mc)⟩

theorem independentPerm {ops order : List α} (h : Independent cell value ops) (perm : order.Perm ops) :
    Independent cell value order :=
  ⟨(perm.pairwise_iff (fun different => Ne.symm different)).mpr h.distinct,fun a ma b mb =>
    h.reads a (perm.mem_iff.mp ma) b (perm.mem_iff.mp mb)⟩

theorem runKept {ops : List α} {k : κ} (untouched : ∀ a ∈ ops, cell a ≠ k) (s : κ → V) :
    run cell value ops s k = s k := by
  induction ops generalizing s with
  | nil => rfl
  | cons a ops ih =>
    have rest := ih (fun b member => untouched b (List.mem_cons_of_mem _ member)) (apply cell value s a)
    have own : k ≠ cell a := Ne.symm (untouched a List.mem_cons_self)
    rw [run,List.foldl_cons,← run,rest,apply,update_of_ne own]

theorem runWritten {ops : List α} (h : Independent cell value ops) {a : α} (member : a ∈ ops) (s : κ → V) :
    run cell value ops s (cell a) = value a s := by
  induction ops generalizing s with
  | nil => contradiction
  | cons first ops ih =>
    have others := (List.pairwise_cons.mp h.distinct).1
    rw [run,List.foldl_cons,← run]
    rcases List.mem_cons.mp member with rfl | later
    · rw [runKept (fun b mb => Ne.symm (others b mb)),apply,update_self]
    · rw [ih (independentTail h) later,apply]
      exact h.reads a member first List.mem_cons_self (Ne.symm (others a later)) s _

theorem phaseWritten {ops order : List α} (h : Independent cell value ops) (perm : order.Perm ops) {a : α}
    (member : a ∈ ops) (s : κ → V) : run cell value order s (cell a) = value a s :=
  runWritten (independentPerm h perm) (perm.mem_iff.mpr member) s

theorem phaseKept {ops order : List α} (perm : order.Perm ops) {k : κ} (untouched : ∀ a ∈ ops, cell a ≠ k)
    (s : κ → V) : run cell value order s k = s k :=
  runKept (fun a member => untouched a (perm.mem_iff.mp member)) s

def loadedValue (reads : α → List κ) (made : α → List V → V) (a : α) (s : κ → V) : V := made a ((reads a).map s)

/- Each operation writes a cell of its own and loads no cell that another writes. -/
structure Apart (cell : α → κ) (reads : α → List κ) (ops : List α) : Prop where
  distinct : ops.Pairwise (fun a b => cell a ≠ cell b)
  loads : ∀ a ∈ ops, ∀ b ∈ ops, cell a ≠ cell b → cell b ∉ reads a

theorem apartIndependent {reads : α → List κ} {ops : List α} (h : Apart cell reads ops) (made : α → List V → V) :
    Independent cell (loadedValue reads made) ops where
  distinct := h.distinct
  reads a ma b mb different s v := by
    have kept : (reads a).map (update s (cell b) v) = (reads a).map s := by
      apply List.map_congr_left
      intro k member
      have other : k ≠ cell b := by
        rintro rfl
        exact h.loads a ma b mb different member
      rw [update_of_ne other]
    rw [loadedValue,loadedValue,kept]

theorem runsAppend {first second : List (List α)} {s s' : κ → V} (h : Runs cell value (first ++ second) s s') :
    ∃ middle, Runs cell value first s middle ∧ Runs cell value second middle s' := by
  induction first generalizing s with
  | nil => exact ⟨s,.done s,h⟩
  | cons ops first ih =>
    cases h with
    | phase perm rest =>
      obtain ⟨middle,before,after⟩ := ih rest
      exact ⟨middle,.phase perm before,after⟩

theorem runsSnoc {phases : List (List α)} {s s' : κ → V} (h : Runs cell value phases s s') {ops order : List α}
    (perm : order.Perm ops) : Runs cell value (phases ++ [ops]) s (run cell value order s') := by
  induction h with
  | done s => exact .phase perm (.done _)
  | phase earlier _ ih => exact .phase earlier ih

theorem runsKept {phases : List (List α)} {k : κ} (untouched : ∀ ops ∈ phases, ∀ a ∈ ops, cell a ≠ k)
    {s s' : κ → V} (h : Runs cell value phases s s') : s' k = s k := by
  induction h with
  | done s => rfl
  | phase perm _ ih =>
    rw [ih (fun ops member => untouched ops (List.mem_cons_of_mem _ member)),
      phaseKept perm (untouched _ List.mem_cons_self)]

theorem runsInOrder (phases : List (List α)) (s : κ → V) :
    Runs cell value phases s (runInOrder cell value phases s) := by
  induction phases generalizing s with
  | nil => exact .done s
  | cons ops phases ih => exact .phase (List.Perm.refl ops) (ih (run cell value ops s))

end
end ImPir.BarrierPhases
