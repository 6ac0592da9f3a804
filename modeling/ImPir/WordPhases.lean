import ImPir.BarrierPhases

/-! Values that are accessed word by word. An operation on whole values that computes
each word from the words at the same place is a list of operations on words; phases of
these leave the same values, in whatever order the words are accessed. -/
namespace ImPir.WordPhases
open Function BarrierPhases

structure Words (V ι W : Type) where
  word : V → ι → W
  value : (ι → W) → V
  all : List ι
  wordValue : ∀ f i, word (value f) i = f i
  valueWord : ∀ v, value (word v) = v
  once : all.Nodup
  every : ∀ i, i ∈ all

section
variable {κ V ι W α : Type} (w : Words V ι W) (cell : α → κ) (value : α → (κ → V) → V)

def packed (m : κ × ι → W) : κ → V := fun k => w.value (fun i => m (k,i))

def wordCell (a : α × ι) : κ × ι := (cell a.1,a.2)

def wordReads (reads : α → List κ) (a : α × ι) : List (κ × ι) := (reads a.1).map (fun k => (k,a.2))

def wordValue (a : α × ι) (m : κ × ι → W) : W := w.word (value a.1 (packed w m)) a.2

def wordOps (ops : List α) : List (α × ι) := ops.flatMap (fun a => w.all.map (fun i => (a,i)))

/- Word `i` of the result depends on the words `i` alone. -/
def PerWord (a : α) : Prop := ∀ (s s' : κ → V) i, (∀ k, w.word (s k) i = w.word (s' k) i) →
  w.word (value a s) i = w.word (value a s') i

variable {w cell value}

theorem wordMember {ops : List α} {a : α} {i : ι} : (a,i) ∈ wordOps w ops ↔ a ∈ ops := by
  simp [wordOps,w.every]

theorem packedAt (m : κ × ι → W) (k : κ) (i : ι) : w.word (packed w m k) i = m (k,i) := w.wordValue _ i

theorem wordsEqual {v v' : V} (same : ∀ i, w.word v i = w.word v' i) : v = v' := by
  rw [← w.valueWord v,← w.valueWord v',funext same]

theorem wordDistinct {ops : List α} (distinct : ops.Pairwise (fun a b => cell a ≠ cell b)) :
    (wordOps w ops).Pairwise (fun a b => wordCell cell a ≠ wordCell cell b) := by
  rw [wordOps,List.pairwise_flatMap]
  refine ⟨?_,?_⟩
  · intro a _
    rw [List.pairwise_map]
    exact w.once.imp (fun different same => different (Prod.mk.inj same).2)
  · apply distinct.imp
    intro a b different x mx y my same
    obtain ⟨_,_,rfl⟩ := List.mem_map.mp mx
    obtain ⟨_,_,rfl⟩ := List.mem_map.mp my
    exact different (Prod.mk.inj same).1

theorem wordApart {reads : α → List κ} {ops : List α} (h : Apart cell reads ops) :
    Apart (wordCell cell) (wordReads reads) (wordOps w ops) := by
  refine ⟨wordDistinct h.distinct,?_⟩
  rintro ⟨a,i⟩ ma ⟨b,j⟩ mb different source
  obtain ⟨k,member,same⟩ := List.mem_map.mp source
  obtain ⟨rfl,rfl⟩ := Prod.mk.inj same
  have apart : cell a ≠ cell b := fun same => different (Prod.ext same rfl)
  exact h.loads a (wordMember.mp ma) b (wordMember.mp mb) apart member

variable [DecidableEq κ] [DecidableEq ι]

theorem packedUpdate (m : κ × ι → W) {k k' : κ} {i j : ι} (other : (k',i) ≠ (k,j)) (x : W) :
    w.word (packed w (update m (k,j) x) k') i = w.word (packed w m k') i := by
  rw [packedAt,packedAt,update_of_ne other]

theorem wordIndependent {ops : List α} (h : Independent cell value ops) (perWord : ∀ a ∈ ops, PerWord w value a) :
    Independent (wordCell cell) (wordValue w value) (wordOps w ops) := by
  refine ⟨wordDistinct h.distinct,?_⟩
  rintro ⟨a,i⟩ ma ⟨b,j⟩ mb different m x
  have ma := wordMember.mp ma
  have mb := wordMember.mp mb
  simp only [wordValue,wordCell] at different ⊢
  by_cases apart : cell a = cell b
  · -- the same value, another word of it
    have place : i ≠ j := fun same => different (by rw [apart,same])
    exact perWord a ma _ _ i (fun k => packedUpdate m (fun same => place (Prod.mk.inj same).2) x)
  · have whole := h.reads a ma b mb apart (packed w m) (w.value (fun i' => update m (cell b,j) x (cell b,i')))
    rw [← whole]
    congr 2
    funext k
    rcases eq_or_ne k (cell b) with rfl | other
    · rw [update_self,packed]
    · rw [update_of_ne other]
      exact wordsEqual (fun i' => packedUpdate m (fun same => other (Prod.mk.inj same).1) x)

theorem wordPhase {ops : List α} (h : Independent cell value ops) (perWord : ∀ a ∈ ops, PerWord w value a)
    {order : List (α × ι)} (perm : order.Perm (wordOps w ops)) (m : κ × ι → W) :
    packed w (run (wordCell cell) (wordValue w value) order m) = run cell value ops (packed w m) := by
  have words := wordIndependent h perWord
  funext k
  apply wordsEqual
  intro i
  rw [packedAt]
  by_cases written : ∃ a ∈ ops, cell a = k
  · obtain ⟨a,member,rfl⟩ := written
    rw [runWritten h member]
    exact phaseWritten words perm (a := (a,i)) (wordMember.mpr member) m
  · simp only [not_exists,not_and] at written
    have untouched : ∀ a ∈ wordOps w ops, wordCell cell a ≠ (k,i) := by
      rintro ⟨a,j⟩ member same
      exact written a (wordMember.mp member) (Prod.mk.inj same).1
    rw [phaseKept perm untouched,runKept written,packedAt]

theorem wordRuns {phases : List (List α)} (independent : ∀ ops ∈ phases, Independent cell value ops)
    (perWord : ∀ ops ∈ phases, ∀ a ∈ ops, PerWord w value a) {m m' : κ × ι → W}
    (ran : Runs (wordCell cell) (wordValue w value) (phases.map (wordOps w)) m m') :
    Runs cell value phases (packed w m) (packed w m') := by
  induction phases generalizing m with
  | nil =>
    cases ran
    exact .done _
  | cons ops phases ih =>
    cases ran with
    | phase perm rest =>
      have later := ih (fun o member => independent o (List.mem_cons_of_mem _ member))
        (fun o member => perWord o (List.mem_cons_of_mem _ member)) rest
      rw [wordPhase (independent ops List.mem_cons_self) (perWord ops List.mem_cons_self) perm] at later
      exact .phase (List.Perm.refl ops) later

end
end ImPir.WordPhases
