import ImPir.Benchmarks
import ImPir.CpuBatch

/-! `cpu_bench` from its command line to its end. Each run asserts what `Gen`, the
evaluation and the scan assert; together these come down to a bound on `logN`. -/
namespace ImPir.CpuBench
open LittleEndian Blocks Dpf DpfKey DpfLanes Records Datastore CommandLine Benchmarks CpuBatch
open AesContext (fixedKeys)

section
variable (machine : Machine) (k : FixedKeys) (draw0 draw1 : Block)

def singleQuery (e : Evaluator) (N : Nat) : Option Record := do
  let keys ← genFrom k draw0 draw1 5 N
  let query ← e.query k keys.1 N
  answerPir (setupDatabase (2^N)) query

def BatchEnds (e : Evaluator) (N batchSize reps : Nat) (indices : List Nat) : Prop :=
  storage machine 24 batchSize = .ok () ∧ storage machine 32 batchSize = .ok () ∧
  ∃ keys, batchKeys k draw0 draw1 Prod.fst indices N = some keys ∧
    ∀ _r < reps, ∀ i < keys.length, (answerOf k e (setupDatabase (2^N)) keys N i).isSome = true

/- No assertion fails, no vector is refused and no read leaves its vector; `indices` are
those that `dist` drew. The vectorized run makes one query for any `reps`. -/
def Ends (indices : List Nat) : CpuRun → Prop
  | .runSingleQueryVectorized N _ => (singleQuery k draw0 draw1 .EvalFull8 N).isSome = true
  | .runSingleQueryScalar N reps => ∀ _r < reps, (singleQuery k draw0 draw1 .EvalFull N).isSome = true
  | .runBatchQuery N batchSize reps => BatchEnds machine k draw0 draw1 .EvalFull N batchSize reps indices
  | .runBatchQuery8 N batchSize reps => BatchEnds machine k draw0 draw1 .EvalFull8 N batchSize reps indices

end

def DrawnFrom (N batchSize : Nat) (indices : List Nat) : Prop :=
  indices.length = batchSize ∧ ∀ index ∈ indices, index ≤ SizeT.sub N 1

section
variable {machine : Machine} {k : FixedKeys} {draw0 draw1 : Block} {N : Nat}

theorem drawnInside {batchSize : Nat} {indices : List Nat} (drawn : DrawnFrom N batchSize indices) :
    (∀ index ∈ indices, index < 2^N) ↔ (N = 0 → ∀ index ∈ indices, index = 0) := by
  constructor
  · rintro inside rfl index member
    have low := inside index member
    omega
  · intro zero index member
    rcases Nat.eq_zero_or_pos N with rfl | positive
    · rw [zero rfl index member]
      decide
    · have low := drawn.2 index member
      rw [SizeT.subExact positive] at low
      have power := @Nat.lt_two_pow_self N
      omega

end

def smallMachine : Machine := ⟨fun bytes => bytes ≤ 2^30,fun _ _ _ => none⟩

end ImPir.CpuBench
