import Mathlib.Data.Bool.Basic
import Mathlib.Data.List.Induction
import ImPir.PerfectTree

/-! Two-party trees with one public correction per level. The two parties hold
nodes that differ along one hidden path and coincide everywhere off it. -/
namespace ImPir.CorrectionTree
open PerfectTree

@[ext] structure Node (S : Type) where
  seed : S
  bit : Bool
  deriving DecidableEq, Repr

structure Correction (S : Type) where
  seed : S
  left : Bool
  right : Bool
  deriving DecidableEq, Repr

def Correction.turn {S : Type} (c : Correction S) (d : Bool) : Bool := if d then c.right else c.left

section
variable {S : Type} (xor : S → S → S) (expand : Bool → S → Node S)

def child (c : Correction S) (d : Bool) (n : Node S) : Node S :=
  let raw := expand d n.seed
  if n.bit then ⟨xor raw.seed c.seed,raw.bit ^^ c.turn d⟩ else raw

def correction (keep : Bool) (a b : Node S) : Correction S where
  seed := xor (expand (!keep) a.seed).seed (expand (!keep) b.seed).seed
  left := (expand false a.seed).bit ^^ (expand false b.seed).bit ^^ !keep
  right := (expand true a.seed).bit ^^ (expand true b.seed).bit ^^ keep

theorem correctionTurn (keep d : Bool) (a b : Node S) :
    (correction xor expand keep a b).turn d =
      ((expand d a.seed).bit ^^ (expand d b.seed).bit ^^ (d == keep)) := by
  cases d <;> cases keep <;> simp [correction,Correction.turn]

theorem keptBitsDiffer (keep : Bool) (a b : Node S) (differ : (a.bit ^^ b.bit) = true) :
    ((child xor expand (correction xor expand keep a b) keep a).bit ^^
      (child xor expand (correction xor expand keep a b) keep b).bit) = true := by
  have turn := correctionTurn xor expand keep keep a b
  cases ha : a.bit <;> cases hb : b.bit <;> simp [ha,hb] at differ <;>
    simp only [child,ha,hb,turn,if_true,Bool.false_eq_true,if_false,beq_self_eq_true]
  · cases (expand keep a.seed).bit <;> cases (expand keep b.seed).bit <;> rfl
  · cases (expand keep a.seed).bit <;> cases (expand keep b.seed).bit <;> rfl

variable (cancelLeft : ∀ a b : S, xor a (xor a b) = b) (cancelRight : ∀ a b : S, xor b (xor a b) = a)
include cancelLeft cancelRight

theorem lostNodesMeet (keep : Bool) (a b : Node S) (differ : (a.bit ^^ b.bit) = true) :
    child xor expand (correction xor expand keep a b) (!keep) a =
      child xor expand (correction xor expand keep a b) (!keep) b := by
  have turn : (correction xor expand keep a b).turn (!keep) =
      ((expand (!keep) a.seed).bit ^^ (expand (!keep) b.seed).bit) := by
    rw [correctionTurn]; cases keep <;> simp
  have seed : (correction xor expand keep a b).seed =
      xor (expand (!keep) a.seed).seed (expand (!keep) b.seed).seed := rfl
  cases ha : a.bit <;> cases hb : b.bit <;> simp [ha,hb] at differ
  · apply Node.ext
    · simp [child,ha,hb,seed,cancelRight]
    · simp only [child,ha,hb,turn,if_true,Bool.false_eq_true,if_false]
      cases (expand (!keep) a.seed).bit <;> cases (expand (!keep) b.seed).bit <;> rfl
  · apply Node.ext <;> simp [child,ha,hb,turn,seed,cancelLeft]

end

section
variable {S : Type} (xor : S → S → S) (expand : Bool → S → Node S)
variable (keep : Nat → Bool) (a b : Node S)

def onPath : Nat → Node S × Node S
  | 0 => (a,b)
  | i+1 =>
      let c := correction xor expand (keep i) (onPath i).1 (onPath i).2
      (child xor expand c (keep i) (onPath i).1,child xor expand c (keep i) (onPath i).2)

def correctionAt (i : Nat) : Correction S :=
  correction xor expand (keep i) (onPath xor expand keep a b i).1 (onPath xor expand keep a b i).2

def step (level : Nat) (d : Bool) (n : Node S) : Node S :=
  child xor expand (correctionAt xor expand keep a b level) d n

theorem onPathDiffer (differ : (a.bit ^^ b.bit) = true) (i : Nat) :
    ((onPath xor expand keep a b i).1.bit ^^ (onPath xor expand keep a b i).2.bit) = true := by
  induction i with
  | zero => exact differ
  | succ i ih => exact keptBitsDiffer xor expand (keep i) _ _ ih

theorem walkOnPath (i : Nat) :
    walk (step xor expand keep a b) 0 ((List.range i).map keep) a = (onPath xor expand keep a b i).1 ∧
    walk (step xor expand keep a b) 0 ((List.range i).map keep) b = (onPath xor expand keep a b i).2 := by
  induction i with
  | zero => exact ⟨rfl,rfl⟩
  | succ i ih =>
    simp only [List.range_succ,List.map_append,List.map_cons,List.map_nil,walkSnoc,ih,
      List.length_map,List.length_range,Nat.zero_add]
    exact ⟨rfl,rfl⟩

variable (cancelLeft : ∀ a b : S, xor a (xor a b) = b) (cancelRight : ∀ a b : S, xor b (xor a b) = a)
include cancelLeft cancelRight

theorem walkOffPath (differ : (a.bit ^^ b.bit) = true) (path : List Bool)
    (off : path ≠ (List.range path.length).map keep) :
    walk (step xor expand keep a b) 0 path a = walk (step xor expand keep a b) 0 path b := by
  induction path using List.reverseRec with
  | nil => simp at off
  | append_singleton front d ih =>
    rw [walkSnoc,walkSnoc,Nat.zero_add]
    by_cases on : front = (List.range front.length).map keep
    · -- the walk leaves the hidden path with this very turn
      have turned : d = !keep front.length := by
        by_contra same
        apply off
        have equal : d = keep front.length := by simpa using same
        rw [List.length_append,List.length_singleton,List.range_succ,List.map_append,← on,equal]
        rfl
      have first := (walkOnPath xor expand keep a b front.length).1
      have second := (walkOnPath xor expand keep a b front.length).2
      rw [← on] at first second
      rw [first,second,turned]
      exact lostNodesMeet xor expand cancelLeft cancelRight _ _ _
        (onPathDiffer xor expand keep a b differ front.length)
    · rw [ih on]

end
end ImPir.CorrectionTree
