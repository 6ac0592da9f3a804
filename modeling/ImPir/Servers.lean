import ImPir.BatchAnswers
import ImPir.CpuBatch
import ImPir.DpuTasklets

/-! Two servers of any kinds. However a server comes by its answer to a key, it is a sum
over the records that its kind keeps; what two of them decode to follows from that. -/
namespace ImPir.Servers
open LittleEndian Blocks Dpf DpfKey DpfLanes Records XorSum DpuKernel DpuTasklets HostSharding HostBatch PimRetrieval
open BatchAnswers (Server World Answer numDpus)
open CpuBatch (Evaluator BatchRun)
open Datastore (answerPir)
open AesContext (fixedKeys)

section
variable (k : FixedKeys) (N : Nat) (key : List Byte)

/- An answer to `key`, and which of the records can be in it: the CPU with either
evaluator, one query or a slot of a batch; the DPUs of an even deployment, one query, the
tasklets interleaved at each word of `shared` and `out`, or any launch of a batch. -/
inductive Answers : (Nat → Bool) → Record → Prop
  | cpu {e : Evaluator} {query answer} (evaluated : e.query k key N = some query)
      (scanned : answerPir (CpuBatch.setupDatabase (2^N)) query = some answer) : Answers (fun _ => true) answer
  | cpuBatch {e : Evaluator} {keys reps before answers i answer} (any : 0 < reps)
      (run : BatchRun k e (CpuBatch.setupDatabase (2^N)) keys N reps before answers) (asked : keys[i]? = some key)
      (slot : answers i = some answer) : Answers (fun _ => true) answer
  | pim {c : Tasklets} {D heap db memories exec query} (divides : D ∣ 2^(N-3))
      (fits : 32*(2^N/D) + 2^N/D/8 ≤ 2^26) (set : setupDatabase D 1 (2^N) = some db)
      (loaded : Loaded heap db memories) (ended : WordExec c heap exec) (evaluated : evalFull8 k key N = some query) :
      Answers (keptRecord c (2^N/D)) (executionPim heap D db exec query memories).1
  | pimBatch {v : Server N} {w : World} {a : Answer} (run : BatchAnswers.Reachable k v w) (given : a ∈ w.answers)
      (asked : v.keys.getD a.b [] = key) : Answers (keptRecord v.tasklets (2^N/numDpus v)) a.agg

end

section
variable {k : FixedKeys} {N : Nat} {key : List Byte}

theorem storeSame (N : Nat) : CpuBatch.setupDatabase (2^N) = HostBatch.store N := CpuBatch.storeIs (2^N)

theorem leavesLength (deep : 10 ≤ N) : (leafBytes k key N).length = 2^(N-3) := by
  rw [leafBytesLength,stopLevels,show N-3 = 4 + (N-7) by omega,pow_add]
  norm_num

theorem leavesScan (deep : 3 ≤ N) :
    answerPir (CpuBatch.setupDatabase (2^N)) (leafBytes k key N) =
      some (select (2^N) (fun g => true && bitAt (leafBytes k key N) g) recordOf) := by
  have groups := CpuPir.groupsOfEight deep
  have enough := CpuPir.enoughBytes k key deep
  rw [storeSame,storeScan _ deep (by omega)]
  simp only [Bool.true_and]

theorem cpuAnswer (small : N ≤ 63) (flagged : FlaggedKey key N) {e : Evaluator} {answer : Record}
    (scanned : (e.query k key N).bind (answerPir (CpuBatch.setupDatabase (2^N))) = some answer) :
    answer = select (2^N) (fun g => true && bitAt (leafBytes k key N) g) recordOf := by
  have deep := (CpuBatch.scanEnds flagged small e).mp (by rw [scanned]; rfl)
  rw [CpuBatch.queryLeaves deep small flagged,Option.bind_some,
    leavesScan (Nat.le_trans (CpuBatch.someGroup e) deep),Option.some.injEq] at scanned
  exact scanned.symm

theorem answersAre (small : N ≤ 63) (flagged : FlaggedKey key N) {kept : Nat → Bool} {answer : Record}
    (h : Answers k N key kept answer) :
    answer = select (2^N) (fun g => kept g && bitAt (leafBytes k key N) g) recordOf := by
  cases h with
  | cpu evaluated scanned => exact cpuAnswer small flagged (by rw [evaluated]; exact scanned)
  | @cpuBatch e keys reps before answers i answer any run asked slot =>
    have inside : i < keys.length := (List.getElem?_eq_some_iff.mp asked).1
    have place : keys.getD i [] = key := by rw [List.getD_eq_getElem?_getD,asked,Option.getD_some]
    rw [CpuBatch.batchSlots run any i inside,CpuBatch.answerOf,place] at slot
    exact cpuAnswer small flagged slot
  | @pim c D heap db memories exec query divides fits set loaded ended evaluated =>
    have deep : 10 ≤ N := by
      by_contra shallow
      rw [CpuBatch.evalFull8Shallow key (by omega)] at evaluated
      contradiction
    rw [evalFull8Output k deep small flagged,Option.some.injEq] at evaluated
    obtain ⟨e,even,shard⟩ := evenCluster deep small divides fits
    rw [← evaluated,shard]
    exact executionKept c even set loaded (machineExec ended) (leavesLength deep)
  | @pimBatch v w a run given asked =>
    obtain ⟨inside,agg⟩ := (BatchAnswers.reachableServed run).right a given
    rw [agg,BatchAnswers.keptScan,BatchAnswers.queryLeaves inside,asked]

theorem genAsserts {draw0 draw1 : Block} {alpha : Nat} {keys : List Byte × List Byte}
    (generated : genFrom k draw0 draw1 alpha N = some keys) : N ≤ 63 ∧ alpha < 2^N := by
  unfold genFrom at generated
  split at generated
  case isTrue asserted => rwa [Nat.one_shiftLeft] at asserted
  case isFalse => cases generated

/- Two servers of any kinds with one key each: beside the record that was asked for, their
answers leave the records that only one of them keeps and that the second key selects. -/
theorem anyServersDecode {draw0 draw1 : Block} {alpha : Nat} {ka kb : List Byte}
    (keys : genFrom k draw0 draw1 alpha N = some (ka,kb)) {kept kept' : Nat → Bool} {a b : Record}
    (first : Answers k N ka kept a) (second : Answers k N kb kept' b) :
    ∃ leaves, evalFull k kb N = some leaves ∧
      a.xor b = (if kept alpha then recordOf alpha else 0).xor
        (select (2^N) (fun g => (kept g ^^ kept' g) && bitAt leaves g) recordOf) ∧
      ((∀ g < 2^N, kept g = kept' g) → a.xor b = if kept alpha then recordOf alpha else 0) := by
  have flagged := genKeysFlagged k keys
  have ⟨small,inside⟩ := genAsserts keys
  rw [DpfPoint.genFromKeys k draw0 draw1 small inside,Option.some.injEq,Prod.mk.injEq] at keys
  have answerA := answersAre small flagged.1 first
  have answerB := answersAre small flagged.2 second
  rw [← keys.1] at answerA
  have shares : ∀ g < 2^N, (bitAt (leafBytes k (DpfPoint.keyA k draw0 draw1 alpha N) N) g ^^
      bitAt (leafBytes k kb N) g) = decide (g = alpha) := by
    intro g below
    rw [← keys.2,CpuPir.bytesArePoint k draw0 draw1 inside below]
  have decoded := sharesKept addSelf recordOf inside kept kept' shares
  rw [← answerA,← answerB,addIsXor,addIsXor] at decoded
  refine ⟨leafBytes k kb N,evalFullLeaves k (flaggedLength flagged.2) small,decoded,?_⟩
  intro alike
  rw [answerA,answerB,← addIsXor]
  exact sharesAlike addSelf recordOf inside shares alike

end

theorem someWordExec (c : Tasklets) (heap : Nat) : ∃ exec, WordExec c heap exec := by
  have ends := fun (m : Mram) (args : DpuArgs) => someTaskletsEnd (c := c) m heap args (fun _ _ => 0) (fun _ => 0)
  choose s reached ended using ends
  exact ⟨fun _ m args b => outOf (s m args) b,fun _ m args => ⟨_,_,_,reached m args,ended m args,fun _ => rfl⟩⟩

theorem anyServersDecodeSeven : ∃ ka kb a b, ∃ kept : Nat → Bool,
    genFrom (fixedKeys Aes128.encrypt) (Aes128.encrypt TestBlock 0) (Aes128.encrypt TestBlock 1) 7 10 =
      some (ka,kb) ∧
    Answers (fixedKeys Aes128.encrypt) 10 ka (fun _ => true) a ∧
    Answers (fixedKeys Aes128.encrypt) 10 kb kept b ∧ a.xor b = recordOf 7 := by
  have keys := DpfPoint.genFromKeys (fixedKeys Aes128.encrypt) (Aes128.encrypt TestBlock 0)
    (Aes128.encrypt TestBlock 1) (by decide : 10 ≤ 63) (by decide : 7 < 2^10)
  have flagged := genKeysFlagged _ keys
  obtain ⟨db,set⟩ := HostAlignment.setupAccepts (by decide : Accepted 2 1) (2^10)
  obtain ⟨exec,ended⟩ := someWordExec ⟨16,by decide⟩ 0
  have first := Answers.cpu (@CpuBatch.queryLeaves (fixedKeys Aes128.encrypt) .EvalFull8 _ _ (by decide) (by decide)
    flagged.1) (leavesScan (by decide))
  have second := Answers.pim (by decide) (by decide) set (loadedAfterSetup 0 db (fun _ _ => 0)) ended
    (evalFull8Output (fixedKeys Aes128.encrypt) (by decide) (by decide) flagged.2)
  obtain ⟨_,_,_,alike⟩ := anyServersDecode keys first second
  refine ⟨_,_,_,_,_,keys,first,second,alike ?_⟩
  intro g _
  exact ((Halving.keepsAll (by decide)).mpr ⟨4,rfl⟩ _ (Nat.mod_lt _ (by decide))).symm

end ImPir.Servers
