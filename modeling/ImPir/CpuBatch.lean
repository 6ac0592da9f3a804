import ImPir.CpuPir
import ImPir.BarrierPhases

/-! The batches of `cpu_bench`: each repetition is a parallel loop over the queries, whose
threads write the slots of `answers` in any order. -/
namespace ImPir.CpuBatch
open LittleEndian Blocks Dpf DpfKey Records Datastore
open BarrierPhases (Runs runsKept phaseWritten runsAppend)

def setupDatabase (numElements : Nat) : List Record :=
  (List.range numElements).foldl (fun store i => store ++ [recordOf i]) []

/- `run_batch_query` evaluates with the one, `run_batch_query8` with the other. -/
inductive Evaluator where
  | EvalFull
  | EvalFull8
  deriving DecidableEq, Repr

section
variable (k : FixedKeys)

def Evaluator.query : Evaluator → List Byte → Nat → Option (List Byte)
  | .EvalFull => evalFull k
  | .EvalFull8 => evalFull8 k

/- The least `logN` an evaluator answers for: `EvalFull` takes any but the scan needs whole
groups, and `EvalFull8` asserts three levels. -/
def leastLogN : Evaluator → Nat
  | .EvalFull => 3
  | .EvalFull8 => 10

/- `Gen` for every index of the batch; `party` takes one key of each pair, the first in the
benchmark. -/
def batchKeys (draw0 draw1 : Block) (party : List Byte × List Byte → List Byte) (indices : List Nat) (N : Nat) :
    Option (List (List Byte)) :=
  indices.mapM (fun index => (genFrom k draw0 draw1 index N).map party)

def answerOf (e : Evaluator) (store : List Record) (keys : List (List Byte)) (N i : Nat) : Option Record := do
  let query ← e.query k (keys.getD i []) N
  answerPir store query

/- All repetitions; the threads of one end before the next begins. -/
def BatchRun (e : Evaluator) (store : List Record) (keys : List (List Byte)) (N reps : Nat)
    (before answers : Nat → Option Record) : Prop :=
  Runs id (fun i _ => answerOf k e store keys N i) (List.replicate reps (List.range keys.length)) before answers

variable {k}

theorem storeIs (numElements : Nat) : setupDatabase numElements = (List.range numElements).map recordOf := by
  induction numElements with
  | zero => rfl
  | succ n ih =>
    rw [setupDatabase] at ih ⊢
    rw [List.range_succ,List.foldl_append,List.map_append,ih]
    rfl

theorem batchSlots {e : Evaluator} {store : List Record} {keys : List (List Byte)} {N reps : Nat}
    {before answers : Nat → Option Record} (run : BatchRun k e store keys N reps before answers) (any : 0 < reps) :
    ∀ i < keys.length, answers i = answerOf k e store keys N i := by
  intro i inside
  obtain ⟨r,rfl⟩ : ∃ r, reps = r + 1 := ⟨reps - 1,by omega⟩
  rw [BatchRun,List.replicate_succ'] at run
  obtain ⟨middle,_,last⟩ := runsAppend run
  cases last with
  | phase perm rest =>
    cases rest
    have independent : BarrierPhases.Independent id (fun i _ => answerOf k e store keys N i) (List.range keys.length) :=
      ⟨List.nodup_range,fun _ _ _ _ _ _ _ => rfl⟩
    exact phaseWritten independent perm (List.mem_range.mpr inside) middle

theorem keysGenerated {draw0 draw1 : Block} {party : List Byte × List Byte → List Byte} {N : Nat} (small : N ≤ 63)
    {indices : List Nat} (inside : ∀ index ∈ indices, index < 2^N) :
    batchKeys k draw0 draw1 party indices N = some (indices.map (fun index =>
      party (DpfPoint.keyA k draw0 draw1 index N,DpfPoint.keyB k draw0 draw1 index N))) := by
  induction indices with
  | nil => rfl
  | cons index indices ih =>
    have first := DpfPoint.genFromKeys k draw0 draw1 small (inside index List.mem_cons_self)
    have others := ih (fun i member => inside i (List.mem_cons_of_mem _ member))
    rw [batchKeys] at others ⊢
    rw [List.mapM_cons,first,others]
    rfl

theorem queryLeaves {e : Evaluator} {key : List Byte} {N : Nat} (deep : leastLogN e ≤ N) (small : N ≤ 63)
    (flagged : DpfLanes.FlaggedKey key N) : e.query k key N = some (leafBytes k key N) := by
  cases e with
  | EvalFull => exact evalFullLeaves k (DpfLanes.flaggedLength flagged) small
  | EvalFull8 => exact DpfLanes.evalFull8Output k deep small flagged

theorem evalFull8Shallow {N : Nat} (key : List Byte) (shallow : N < 10) : evalFull8 k key N = none := by
  have few : ¬ (N ≤ 63 ∧ 3 ≤ stop N) := by
    rw [stopLevels]
    omega
  rw [evalFull8,evalFull8Cursors,if_neg few]
  rfl

theorem scanEnds {key : List Byte} {N : Nat} (flagged : DpfLanes.FlaggedKey key N) (small : N ≤ 63) (e : Evaluator) :
    ((e.query k key N).bind (answerPir (setupDatabase (2^N)))).isSome = true ↔ leastLogN e ≤ N := by
  have size : (setupDatabase (2^N)).length = 2^N := by rw [storeIs,List.length_map,List.length_range]
  have whole : 3 ≤ N → (answerPir (setupDatabase (2^N)) (leafBytes k key N)).isSome = true := by
    intro deep
    have groups := CpuPir.groupsOfEight deep
    rw [answerPirSelect _ _ (by omega) (by rw [size]; exact CpuPir.enoughBytes k key deep)]
    rfl
  cases e with
  | EvalFull =>
    rw [Evaluator.query,evalFullLeaves k (DpfLanes.flaggedLength flagged) small,Option.bind_some,leastLogN]
    refine ⟨?_,whole⟩
    intro ends
    by_contra shallow
    have partialGroup : (setupDatabase (2^N)).length % 8 ≠ 0 := by
      rw [size]
      rcases (by omega : N = 0 ∨ N = 1 ∨ N = 2) with rfl | rfl | rfl <;> decide
    rw [answerPir,if_neg partialGroup] at ends
    contradiction
  | EvalFull8 =>
    rw [Evaluator.query,leastLogN]
    constructor
    · intro ends
      by_contra shallow
      rw [evalFull8Shallow key (by omega),Option.bind_none] at ends
      contradiction
    · intro deep
      rw [DpfLanes.evalFull8Output k deep small flagged,Option.bind_some]
      exact whole (by omega)

theorem someGroup (e : Evaluator) : 3 ≤ leastLogN e := by cases e <;> decide

/- Two servers that hold the same records and run the batch on one key of each pair, each
with the evaluator of its choice and its threads in any order: their answers are shares of
the records that were asked for. -/
theorem cpuBatchRetrieves {draw0 draw1 : Block} {N : Nat} {e f : Evaluator} (deep : leastLogN e ≤ N)
    (deep' : leastLogN f ≤ N) (small : N ≤ 63) {indices : List Nat} (inside : ∀ index ∈ indices, index < 2^N)
    {store : List Record} (size : store.length = 2^N)
    {ka kb : List (List Byte)} (first : batchKeys k draw0 draw1 Prod.fst indices N = some ka)
    (second : batchKeys k draw0 draw1 Prod.snd indices N = some kb) {reps reps' : Nat}
    (any : 0 < reps) (any' : 0 < reps') {before before' a b : Nat → Option Record}
    (run : BatchRun k e store ka N reps before a) (run' : BatchRun k f store kb N reps' before' b) :
    ∀ i index, indices[i]? = some index →
      ∃ ra rb, a i = some ra ∧ b i = some rb ∧ store[index]? = some (ra.xor rb) := by
  intro i index found
  have asked := inside index (List.mem_of_getElem? found)
  have keys := DpfPoint.genFromKeys k draw0 draw1 small asked
  have flagged := DpfLanes.genKeysFlagged k keys
  obtain ⟨ra,rb,answerA,answerB,record⟩ := CpuPir.answersRetrieve k draw0 draw1
    (Nat.le_trans (someGroup e) deep) asked size
  rw [keysGenerated small inside,Option.some.injEq] at first second
  have below : i < indices.length := (List.getElem?_eq_some_iff.mp found).1
  have slotA := batchSlots run any i (by rw [← first,List.length_map]; exact below)
  have slotB := batchSlots run' any' i (by rw [← second,List.length_map]; exact below)
  rw [answerOf,← first,List.getD_eq_getElem?_getD,List.getElem?_map,found,Option.map_some,Option.getD_some,
    queryLeaves deep small flagged.1] at slotA
  rw [answerOf,← second,List.getD_eq_getElem?_getD,List.getElem?_map,found,Option.map_some,Option.getD_some,
    queryLeaves deep' small flagged.2] at slotB
  exact ⟨ra,rb,slotA.trans answerA,slotB.trans answerB,record⟩

end

theorem inOrderBatch (k : FixedKeys) (e : Evaluator) (store : List Record) (keys : List (List Byte)) (N reps : Nat) :
    ∃ answers, BatchRun k e store keys N reps (fun _ => none) answers :=
  ⟨_,BarrierPhases.runsInOrder _ _⟩

theorem cpuBatchRetrievesTwo : (∃ a b : Nat → Option Record, ∃ ra rb, a 1 = some ra ∧ b 1 = some rb ∧
    (setupDatabase (2^10))[7]? = some (ra.xor rb)) ∧
    ∃ a b : Nat → Option Record, ∃ ra rb, a 2 = some ra ∧ b 2 = some rb ∧
      (setupDatabase (2^3))[5]? = some (ra.xor rb) := by
  have size (N : Nat) : (setupDatabase (2^N)).length = 2^N := by rw [storeIs,List.length_map,List.length_range]
  have inside : ∀ index ∈ [3,7], index < 2^10 := by decide
  have few : ∀ index ∈ [0,3,5], index < 2^3 := by decide
  obtain ⟨a,run⟩ := inOrderBatch (AesContext.fixedKeys Aes128.encrypt) .EvalFull (setupDatabase (2^10)) _ 10 1
  obtain ⟨b,run'⟩ := inOrderBatch (AesContext.fixedKeys Aes128.encrypt) .EvalFull8 (setupDatabase (2^10)) _ 10 2
  obtain ⟨c,third⟩ := inOrderBatch (AesContext.fixedKeys Aes128.encrypt) .EvalFull (setupDatabase (2^3)) _ 3 1
  obtain ⟨d,fourth⟩ := inOrderBatch (AesContext.fixedKeys Aes128.encrypt) .EvalFull (setupDatabase (2^3)) _ 3 1
  obtain ⟨ra,rb,found⟩ := cpuBatchRetrieves (by decide) (by decide) (by decide) inside (size 10)
    (@keysGenerated _ ZeroBlock TestBlock _ _ (by decide) _ inside) (keysGenerated (by decide) inside)
    (by decide) (by decide) run run' 1 7 rfl
  obtain ⟨rc,rd,found'⟩ := cpuBatchRetrieves (by decide) (by decide) (by decide) few (size 3)
    (@keysGenerated _ ZeroBlock TestBlock _ _ (by decide) _ few) (keysGenerated (by decide) few)
    (by decide) (by decide) third fourth 2 5 rfl
  exact ⟨⟨a,b,ra,rb,found⟩,c,d,rc,rd,found'⟩

end ImPir.CpuBatch
