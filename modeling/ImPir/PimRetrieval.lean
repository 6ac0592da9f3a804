import ImPir.CpuPir
import ImPir.DpuReduce
import ImPir.HostBatch

/-! Two-server retrieval on the DPUs with the configured 12 tasklets. The halving of 12
drops every third tasklet, so the records of its blocks are in no answer; the others
are retrieved. -/
namespace ImPir.PimRetrieval
open Finset LittleEndian Blocks Dpf Records XorSum DpuKernel DpuScan DpuReduce HostSharding HostBatch
open Halving (keeps keepsHalf)
open DpfPoint (keyA keyB genFromKeys)
open DpfKey (leafBytes leafBytesLength stopLevels)
open AesContext (fixedKeys)
open HostAlignment (setupAccepts)

/- `NR_TASKLETS` as `CMakeLists.txt` sets it. -/
def configured : Tasklets := ⟨12,by decide⟩

/- DPUs that run `main`: for each launch `out` is what some run leaves there. -/
def MainExec (c : Tasklets) (heap : Nat) (exec : Exec) : Prop :=
  ∀ i m args, ∃ stale before after, BarrierPhases.Runs Op.cell Op.value (mainPhases c m heap args stale) before after ∧
    ∀ b, exec i m args b = after (.out b)

def inOrderExec (c : Tasklets) (heap : Nat) : Exec := fun _ m args b =>
  BarrierPhases.runInOrder Op.cell Op.value (mainPhases c m heap args (fun _ _ => 0)) (fun _ => 0) (.out b)

theorem inOrderRuns (c : Tasklets) (heap : Nat) : MainExec c heap (inOrderExec c heap) := by
  intro i m args
  exact ⟨_,_,_,BarrierPhases.runsInOrder _ _,fun _ => rfl⟩

def keptRecord (c : Tasklets) (shard g : Nat) : Bool := keeps c.nrTasklets (g % shard / 128 % c.nrTasklets)

theorem keepsTwelve {j : Nat} (inside : j < 12) : keeps 12 j = decide (j % 3 ≠ 2) := by
  have one : ∀ i, keeps 1 i = (i == 0) := by
    intro i
    rw [keeps,if_pos rfl]
  rw [keepsHalf (by decide),keepsHalf (by decide),keepsHalf (by decide),one]
  simp only [Nat.reduceDiv,Nat.reduceMul]
  revert j
  decide

theorem keptByTwelve (shard g : Nat) : keptRecord configured shard g = decide (g % shard / 128 % 3 ≠ 2) := by
  have inside : g % shard / 128 % 12 < 12 := Nat.mod_lt _ (by decide)
  have third : g % shard / 128 % 12 % 3 = g % shard / 128 % 3 := by omega
  rw [keptRecord,show configured.nrTasklets = 12 from rfl,keepsTwelve inside,third]

section
variable {N D e : Nat}

theorem setupOneBatch {NUM_DPUS cluster n : Nat} {db : Database} (set : setupDatabase NUM_DPUS cluster n = some db) :
    db.args.numBatches = 1 := by
  unfold setupDatabase at set
  split at set
  · rw [← Option.some.inj set]
  · contradiction

theorem executionKept (c : Tasklets) (h : Even N D 1 D e) {db : Database} (set : setupDatabase D 1 (2^N) = some db)
    {heap : Nat} {memories : Memories} (loaded : Loaded heap db memories) {exec : Exec}
    (runs : MainExec c heap exec) {query : List Byte} (length : query.length = 2^(N-3)) :
    (executionPim heap D db exec query memories).1 =
      select (2^N) (fun g => keptRecord c (8*e) g && bitAt query g) recordOf := by
  have size := (evenSetup h set).1
  have lengths : ∀ q ∈ [query], q.length = 2^(N-3) := by simpa using length
  have first : [query][0]? = some query := rfl
  have launch := launchKept h set loaded lengths (executionSent D query) first
    (fun r => keeps c.nrTasklets (r/128 % c.nrTasklets))
  simp only [keptRecord,← launch]
  rw [executionAt]
  apply sum_congr rfl
  intro i _
  obtain ⟨stale,before,after,ran,answer⟩ := runs i (executionMemories heap D db query memories i)
    (executionArgs D db query)
  have bytes : (executionArgs D db query).databaseSizeBytes = 32*(8*e) := size
  have batch : (executionArgs D db query).numBatches = 1 := setupOneBatch set
  have inside : 0 < clampBatches (executionArgs D db query).numBatches := by rw [batch]; decide
  rw [answer,mainOut c (by rw [bytes]; exact Nat.dvd_mul_right 32 _) ran inside,bytes,totalOf,executionMemories,size]

theorem evenCluster (deep : 10 ≤ N) (small : N ≤ 63) (divides : D ∣ 2^(N-3))
    (fits : 32*(2^N/D) + 2^N/D/8 ≤ 2^26) : ∃ e, Even N D 1 D e ∧ 2^N/D = 8*e := by
  have positive : 0 < D := Nat.pos_of_dvd_of_pos divides (Nat.two_pow_pos _)
  have even : Deployment N D 1 := ⟨deep,small,⟨by omega,positive,Nat.mod_one D⟩,by rwa [Nat.div_one],
    by rw [Nat.div_one]; omega⟩
  have numbers := deploymentEven even
  simp only [Nat.div_one] at numbers
  refine ⟨_,numbers,?_⟩
  rw [numbers.records,Nat.mul_div_cancel_left _ positive]

def Retrieves (c : Tasklets) (k : FixedKeys) (draw0 draw1 : Block) (N D alpha : Nat) : Prop :=
  ∃ ka kb a b db, genFrom k draw0 draw1 alpha N = some (ka,kb) ∧
    evalFull8 k ka N = some a ∧ evalFull8 k kb N = some b ∧ setupDatabase D 1 (2^N) = some db ∧
    ∀ heap memories exec exec', MainExec c heap exec → MainExec c heap exec' →
      let first := executionPim heap D db exec a (loadDatabase heap db memories)
      let second := executionPim heap D db exec' b first.2
      first.1.xor second.1 = recordOf alpha

theorem runsDecode (c : Tasklets) (k : FixedKeys) (draw0 draw1 : Block) {alpha : Nat} (deep : 10 ≤ N)
    (ha : alpha < 2^N) (h : Even N D 1 D e) {db : Database} (set : setupDatabase D 1 (2^N) = some db)
    {heap : Nat} (memories : Memories) {exec exec' : Exec} (runs : MainExec c heap exec)
    (runs' : MainExec c heap exec') {first second : Record × Memories}
    (one : first = executionPim heap D db exec (leafBytes k (keyA k draw0 draw1 alpha N) N)
      (loadDatabase heap db memories))
    (two : second = executionPim heap D db exec' (leafBytes k (keyB k draw0 draw1 alpha N) N) first.2) :
    first.1.xor second.1 = if keptRecord c (8*e) alpha then recordOf alpha else 0 := by
  have length (key : List Byte) : (leafBytes k key N).length = 2^(N-3) := by
    rw [leafBytesLength,stopLevels,show N-3 = 4 + (N-7) by omega,pow_add]
    norm_num
  have loaded := loadedAfterSetup heap db memories
  have later : Loaded heap db first.2 := by
    rw [one,executionPim]
    exact copyKeepsLoaded loaded (by rw [(evenSetup h set).1]; exact evenAfter h set) _
  have answerA := executionKept c h set loaded runs (length (keyA k draw0 draw1 alpha N))
  have answerB := executionKept c h set later runs' (length (keyB k draw0 draw1 alpha N))
  rw [← one] at answerA
  rw [← two] at answerB
  rw [answerA,answerB,← addIsXor,← selectXor addSelf]
  have point : ∀ g < 2^N, ((keptRecord c (8*e) g && bitAt (leafBytes k (keyA k draw0 draw1 alpha N) N) g) ^^
      (keptRecord c (8*e) g && bitAt (leafBytes k (keyB k draw0 draw1 alpha N) N) g)) =
      (keptRecord c (8*e) alpha && decide (g = alpha)) := by
    intro g inside
    rw [← Bool.and_xor_distrib_left,CpuPir.bytesArePoint k draw0 draw1 ha inside]
    rcases eq_or_ne g alpha with rfl | other
    · rfl
    · rw [decide_eq_false other,Bool.and_false,Bool.and_false]
  rw [selectCongr point (fun _ _ => rfl)]
  cases keptRecord c (8*e) alpha with
  | true => exact selectPoint recordOf ha
  | false => exact selectNone recordOf (fun _ _ => rfl)

theorem keptFirst {n : Nat} (positive : 0 < n) : keeps n 0 = true := by
  induction n using Nat.strong_induction_on with
  | _ n ih =>
    rcases Nat.eq_zero_or_pos (n/2) with last | half
    · rw [keeps,if_pos last]
      rfl
    · rw [Halving.keepsLow half,ih (n/2) (by omega) half]

theorem lostRecord {c : Tasklets} {shard alpha : Nat} (lost : keptRecord c shard alpha = false) : alpha ≠ 0 := by
  rintro rfl
  rw [keptRecord,Nat.zero_mod,Nat.zero_div,Nat.zero_mod,keptFirst c.positive] at lost
  contradiction

/- For any number of tasklets: the records in the blocks that the halving keeps, and
no others, are retrieved. -/
theorem retrievesKept (c : Tasklets) (k : FixedKeys) (draw0 draw1 : Block) {alpha : Nat} (deep : 10 ≤ N)
    (divides : D ∣ 2^(N-3)) (fits : 32*(2^N/D) + 2^N/D/8 ≤ 2^26) (ha : alpha < 2^N) :
    Retrieves c k draw0 draw1 N D alpha ↔ N ≤ 63 ∧ keptRecord c (2^N/D) alpha = true := by
  rcases Nat.lt_or_ge 63 N with large | small
  · refine ⟨?_,fun ⟨small,_⟩ => by omega⟩
    rintro ⟨_,_,_,_,_,keys,_⟩
    rw [genFrom,if_neg (by omega)] at keys
    contradiction
  obtain ⟨e,h,shard⟩ := evenCluster deep small divides fits
  obtain ⟨db,set⟩ := setupAccepts (⟨by omega,h.positive,Nat.mod_one D⟩ : Accepted D 1) (2^N)
  have keys := genFromKeys k draw0 draw1 small ha
  have flagged := DpfLanes.genKeysFlagged k keys
  have fullA := DpfLanes.evalFull8Output k deep small flagged.1
  have fullB := DpfLanes.evalFull8Output k deep small flagged.2
  rw [shard]
  constructor
  · rintro ⟨ka,kb,a,b,db',keys',fullA',fullB',set',correct⟩
    rw [keys,Option.some.injEq,Prod.mk.injEq] at keys'
    obtain ⟨rfl,rfl⟩ := keys'
    rw [fullA,Option.some.injEq] at fullA'
    rw [fullB,Option.some.injEq] at fullB'
    subst fullA' fullB'
    have result := correct 0 (fun _ _ => 0) _ _ (inOrderRuns c 0) (inOrderRuns c 0)
    have decoded := runsDecode c k draw0 draw1 deep ha h set' (fun _ _ => 0) (inOrderRuns c 0)
      (inOrderRuns c 0) rfl rfl
    refine ⟨small,?_⟩
    rw [← Bool.not_eq_false]
    intro lost
    rw [result,lost] at decoded
    have fewer : 2^N ≤ 2^63 := Nat.pow_le_pow_right (by omega) small
    exact lostRecord lost ((recordOfZero (by omega)).mp decoded)
  · rintro ⟨_,kept⟩
    refine ⟨_,_,_,_,db,keys,fullA,fullB,set,?_⟩
    intro heap memories exec exec' runs runs'
    have decoded := runsDecode c k draw0 draw1 deep ha h set memories runs runs' rfl rfl
    rw [kept] at decoded
    exact decoded

theorem pimRetrieves (k : FixedKeys) (draw0 draw1 : Block) {alpha : Nat} (deep : 10 ≤ N)
    (divides : D ∣ 2^(N-3)) (fits : 32*(2^N/D) + 2^N/D/8 ≤ 2^26) (ha : alpha < 2^N) :
    Retrieves configured k draw0 draw1 N D alpha ↔ N ≤ 63 ∧ alpha % (2^N/D) / 128 % 3 ≠ 2 := by
  rw [retrievesKept configured k draw0 draw1 deep divides fits ha,keptByTwelve,decide_eq_true_iff]

end

theorem pimRetrievesTestSetup :
    Retrieves configured (fixedKeys Aes128.encrypt) (Aes128.encrypt TestBlock 0) (Aes128.encrypt TestBlock 1)
      20 256 5 :=
  (pimRetrieves _ _ _ (by decide) (by decide) (by decide) (by decide)).mpr (by decide)

/- Record 256 opens the third block of the shard, the block of tasklet 2. -/
theorem thirdBlockLost :
    ¬ Retrieves configured (fixedKeys Aes128.encrypt) (Aes128.encrypt TestBlock 0) (Aes128.encrypt TestBlock 1)
      10 1 256 := by
  rw [retrievesKept configured _ _ _ (by decide) (by decide) (by decide) (by decide),keptByTwelve]
  decide

end ImPir.PimRetrieval
