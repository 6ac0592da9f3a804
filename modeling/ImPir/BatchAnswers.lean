import ImPir.BatchDelivery
import ImPir.PimRetrieval

/-! `pim_batch_execution` with its DPUs: each submitter launches what it dequeued on its
own cluster, over the memories its last launch left. However threads and tasklets
interleave, every repetition answers every query once, from the whole database. -/
namespace ImPir.BatchAnswers
open LittleEndian Blocks Dpf DpfKey DpfLanes Records XorSum WorkerPool BatchQueue BatchDelivery
open DpuKernel DpuReduce HostSharding HostBatch PimRetrieval
open Datastore (answerPir)
open AesContext (fixedKeys)
open Finset (sum_congr)

/- A host with its DPUs: a deployment that `setup_database` accepts, and for each query
of the batch a key that `EvalFull8` can read. -/
structure Server (N : Nat) where
  NUM_DPUS : Nat
  batch : Config
  tasklets : Tasklets
  heap : Nat
  db : Database
  keys : List (List Byte)
  deployment : Deployment N NUM_DPUS batch.clusters
  loads : setupDatabase NUM_DPUS batch.clusters (2^N) = some db
  whole : keys.length = batch.batchSize
  flagged : ∀ key ∈ keys, FlaggedKey key N

structure Answer where
  rep : Nat
  b : Nat
  agg : Record
  deriving DecidableEq, Repr

/- `memories j` are the DPUs of `dpu_clusters[j]`, which submitter `j` drives. -/
structure World where
  threads : State
  memories : Nat → Memories
  answers : List Answer

section
variable (k : FixedKeys) {N : Nat} (v : Server N)

def query (b : Nat) : List Byte := (evalFull8 k (v.keys.getD b []) N).getD []

def dpuInputs (i : Item) : List (List Byte) := workerInputs v.NUM_DPUS v.batch.clusters (query k v i.b)

def numDpus : Nat := v.NUM_DPUS/v.batch.clusters

def launchRound (exec : Exec) (buf : List Item) (memories : Memories) : List Record × Memories :=
  dpuSubmitter v.heap (numDpus v) v.db exec (buf.map (dpuInputs k v)) memories

def answered (rep : Nat) (buf : List Item) (agg : List Record) : List Answer :=
  List.zipWith (fun i part => ⟨rep,i.b,part⟩) buf agg

/- The steps of `BatchQueue`; a launch also runs the kernel on the cluster's DPUs. -/
inductive WorldStep : World → World → Prop
  | main {w s} (step : MainStep v.batch w.threads s) : WorldStep w { w with threads := s }
  | producer {w s} (step : ProducerStep w.threads s) : WorldStep w { w with threads := s }
  | submitter {w s} (step : SubmitterStep w.threads s) (quiet : s.launches = w.threads.launches) :
      WorldStep w { w with threads := s }
  | launch {w j buf exec} (thread : w.threads.submitters[j]? = some (.launching buf))
      (runs : MainExec v.tasklets v.heap exec) :
      WorldStep w {
        threads := { w.threads with
          submitters := w.threads.submitters.set j .dequeue,launches := w.threads.launches ++ [buf] }
        memories := Function.update w.memories j (launchRound k v exec buf (w.memories j)).2
        answers := w.answers ++ answered w.threads.rep buf (launchRound k v exec buf (w.memories j)).1 }

def startWorld (stale : Nat → Memories) : World :=
  ⟨BatchQueue.start,fun j => loadDatabase v.heap v.db (stale j),[]⟩

def Reachable (w : World) : Prop := ∃ stale, Relation.ReflTransGen (WorldStep k v) (startWorld v stale) w

/- What a launch answers: the scan of the records that the halving of tasklets keeps. -/
def keptScan (q : List Byte) : Record :=
  select (2^N) (fun g => keptRecord v.tasklets (2^N/numDpus v) g && bitAt q g) recordOf

def answeredIn (w : World) (r : Nat) : List Nat := (w.answers.filter (fun a => a.rep = r)).map Answer.b

def between : Main → Bool
  | .repetition => true
  | .finished => true
  | _ => false

structure Served (w : World) : Prop where
  threads : Invariant v.batch w.threads
  loaded : ∀ j, Loaded v.heap v.db (w.memories j)
  right : ∀ a ∈ w.answers, a.b < v.batch.batchSize ∧ a.agg = keptScan v (query k v a.b)
  past : ∀ r < w.threads.rep, (answeredIn w r).Perm (List.range v.batch.batchSize)
  now : answeredIn w w.threads.rep = if between w.threads.main then [] else w.threads.launches.flatten.map Item.b
  later : ∀ r, w.threads.rep < r → answeredIn w r = []
  ended : w.threads.main = .finished → v.batch.reps ≤ w.threads.rep

variable {k v}

theorem someCluster : 1 ≤ v.batch.clusters := v.deployment.accepted.1

theorem keyFlagged {b : Nat} (inside : b < v.batch.batchSize) : FlaggedKey (v.keys.getD b []) N := by
  have here : b < v.keys.length := by rw [v.whole]; exact inside
  rw [List.getD_eq_getElem?_getD,List.getElem?_eq_getElem here,Option.getD_some]
  exact v.flagged _ (List.getElem_mem here)

theorem queryLeaves {b : Nat} (inside : b < v.batch.batchSize) :
    query k v b = leafBytes k (v.keys.getD b []) N := by
  rw [query,evalFull8Output k v.deployment.large v.deployment.small (keyFlagged inside),Option.getD_some]

theorem queryLength {b : Nat} (inside : b < v.batch.batchSize) : (query k v b).length = 2^(N-3) := by
  have large := v.deployment.large
  rw [queryLeaves inside,leafBytesLength,stopLevels,show N-3 = 4 + (N-7) by omega,pow_add]
  norm_num

theorem someEven : Even N v.NUM_DPUS v.batch.clusters (numDpus v) (2^(N-3)/numDpus v) :=
  deploymentEven v.deployment

theorem enqueuedAsked {s : State} (inv : Enqueued v.batch s) {i : Item} (member : i ∈ s.enqueued) :
    i.b < v.batch.batchSize := by
  obtain ⟨inside,_,below⟩ := enqueuedBelow inv member
  have spawned := inv.spawned
  have last : rangeStart v.batch (i.producer+1) ≤ rangeStart v.batch (numWorkers v.batch.batchSize) :=
    shareMono (by omega)
  have all : rangeStart v.batch (numWorkers v.batch.batchSize) = v.batch.batchSize :=
    shareAll (someWorker v.batch)
  omega

theorem heldAsked {s : State} (inv : Invariant v.batch s) {j : Nat} {buf : List Item}
    (thread : s.submitters[j]? = some (.launching buf)) : ∀ i ∈ buf, i.b < v.batch.batchSize := by
  intro i member
  have moved := heldSet thread .dequeue
  simp only [held,add_zero] at moved
  have sent : i ∈ inFlight s + (s.launches.flatten : Multiset Item) := by
    rw [inFlight,← moved]
    simp [member]
  rw [inv.conserved.kept] at sent
  exact enqueuedAsked inv.enqueued (Multiset.mem_coe.mp sent)

theorem enqueuedBatch {s : State} (inv : Enqueued v.batch s) (all : AllEnqueued v.batch s) :
    (s.enqueued.map Item.b).Perm (List.range v.batch.batchSize) := by
  have once : (s.enqueued.map Item.b).Nodup := by
    apply List.Nodup.map_on _ inv.once
    intro x mx y my same
    have owner := shareUnique (enqueuedBelow inv mx).2 (by rw [same]; exact (enqueuedBelow inv my).2)
    cases x
    cases y
    simp only at same owner
    rw [same,owner]
  rw [List.perm_ext_iff_of_nodup once List.nodup_range]
  intro b
  rw [List.mem_range,List.mem_map]
  constructor
  · rintro ⟨i,member,rfl⟩
    exact enqueuedAsked inv member
  · intro asked
    obtain ⟨w,_,only⟩ := enqueuedOnce inv all asked
    have member : (⟨w,b⟩ : Item) ∈ s.enqueued.filter (fun i => i.b = b) := by rw [only]; exact List.mem_singleton_self _
    exact ⟨_,(List.mem_filter.mp member).1,rfl⟩

theorem launchRight {buf : List Item} (asked : ∀ i ∈ buf, i.b < v.batch.batchSize) (someQuery : 1 ≤ buf.length)
    (fits : buf.length ≤ bufSize) {memories : Memories} (loaded : Loaded v.heap v.db memories) {exec : Exec}
    (runs : MainExec v.tasklets v.heap exec) :
    (launchRound k v exec buf memories).1 = buf.map (fun i => keptScan v (query k v i.b)) := by
  have h := someEven (v := v)
  have lengths : ∀ q ∈ buf.map (fun i => query k v i.b), q.length = 2^(N-3) := by
    intro q member
    obtain ⟨i,held,rfl⟩ := List.mem_map.mp member
    exact queryLength (asked i held)
  have size := (evenSetup h v.loads).1
  apply List.ext_getElem?
  intro idx
  rcases Nat.lt_or_ge idx buf.length with inside | outside
  · have launched : idx < (buf.map (dpuInputs k v)).length := by rwa [List.length_map]
    have place : (buf.map (fun i => query k v i.b))[idx]? = some (query k v buf[idx].b) := by simp [inside]
    have sent : ∀ i < numDpus v, (batchedInputs (numDpus v) (buf.map (dpuInputs k v))).getD i [] =
        (buf.map (fun i => query k v i.b)).flatMap (fun q => queryPart (numDpus v) q i) := by
      intro i dpu
      rw [batchedGetD _ dpu,List.flatMap_map,List.flatMap_map]
      congr 1
      funext item
      exact splitGetD _ dpu
    have launch := launchKept h v.loads loaded lengths sent place
      (fun r => Halving.keeps v.tasklets.nrTasklets (r/128 % v.tasklets.nrTasklets))
    rw [launchRound,submitterAt v.heap (numDpus v) v.db exec memories launched,List.getElem?_map,
      List.getElem?_eq_getElem inside,Option.map_some,keptScan]
    have shard : 2^N/numDpus v = 8*(2^(N-3)/numDpus v) := by
      rw [h.records,Nat.mul_div_cancel_left _ h.positive]
    simp only [keptRecord,shard,← launch]
    congr 1
    apply sum_congr rfl
    intro i _
    obtain ⟨stale,before,after,ran,answer⟩ := runs i
      (submitterMemories v.heap (numDpus v) v.db (buf.map (dpuInputs k v)) memories i)
      (submitterArguments (numDpus v) v.db (buf.map (dpuInputs k v)))
    have bytes : (submitterArguments (numDpus v) v.db (buf.map (dpuInputs k v))).databaseSizeBytes =
      32*(8*(2^(N-3)/numDpus v)) := size
    have within : idx < clampBatches (submitterArguments (numDpus v) v.db
        (buf.map (dpuInputs k v))).numBatches := by
      rw [clampKeeps someQuery fits]
      exact inside
    rw [answer,mainOut v.tasklets (by rw [bytes]; exact Nat.dvd_mul_right 32 _) ran within,bytes,totalOf,
      submitterMemories,size]
  · rw [List.getElem?_eq_none (by rw [launchRound,dpuSubmitter]; simpa using outside),
      List.getElem?_eq_none (by simpa using outside)]

theorem answeredMap (rep : Nat) (buf : List Item) (f : Item → Record) :
    answered rep buf (buf.map f) = buf.map (fun i => ⟨rep,i.b,f i⟩) := by
  rw [answered,List.zipWith_map_right,List.zipWith_self]

theorem launchedIn (threads : State) (memories : Nat → Memories) (w : World) (buf : List Item) (f : Item → Record)
    (rep r : Nat) :
    answeredIn ⟨threads,memories,w.answers ++ answered rep buf (buf.map f)⟩ r =
      answeredIn w r ++ if rep = r then buf.map Item.b else [] := by
  rw [answeredIn,answeredMap,List.filter_append,List.map_append,List.filter_map,List.map_map,← answeredIn]
  congr 1
  split
  · rename_i same
    have all : buf.filter ((fun a : Answer => decide (a.rep = r)) ∘ fun i => ⟨rep,i.b,f i⟩) = buf := by
      simp [Function.comp_def,same]
    rw [all]
    rfl
  · rename_i other
    simp [Function.comp_def,other]

theorem underWay {s : State} (inv : Invariant v.batch s) {a : Submitter} (running : a ∈ s.submitters)
    (inLoop : a ≠ .left) : between s.main = false := by
  have main := inv.ordered.main
  cases here : s.main with
  | repetition =>
    rw [here] at main
    exact absurd (main.2.2.2 a running) inLoop
  | finished =>
    rw [here] at main
    exact absurd (main.2.2.2 a running) inLoop
  | _ => rfl

theorem repetitionServed {s : State} (inv : Invariant v.batch s) {j : Nat} (here : s.main = .joinSubmitters j)
    (all : j = s.submitters.length) : (s.launches.flatten.map Item.b).Perm (List.range v.batch.batchSize) := by
  have main := inv.ordered.main
  rw [here] at main
  have gone : ∀ a ∈ s.submitters, a = .left := by
    refine joinedEvery (fun i joined a found => ?_) all
    rw [main.2.2 i joined] at found
    exact (Option.some.inj found).symm
  obtain ⟨everyone,empty⟩ := joinedAll someCluster inv.ordered main.2.1 gone
  exact ((launchedAll inv.conserved empty gone).map Item.b).trans (enqueuedBatch inv.enqueued everyone)

theorem quietServed {w : World} (inv : Served k v w) {s : State} (threads : Invariant v.batch s)
    (rep : s.rep = w.threads.rep) (launches : s.launches = w.threads.launches)
    (stays : between s.main = between w.threads.main) (ended : s.main = .finished → v.batch.reps ≤ s.rep) :
    Served k v { w with threads := s } := by
  refine ⟨threads,inv.loaded,inv.right,?_,?_,?_,ended⟩
  · rw [rep]
    exact inv.past
  · simp only
    rw [rep,launches,stays]
    exact inv.now
  · rw [rep]
    exact inv.later

theorem mainServed {w : World} (inv : Served k v w) {s : State} (step : MainStep v.batch w.threads s) :
    Served k v { w with threads := s } := by
  have threads := mainKeeps someCluster inv.threads step
  cases step with
  | enter here more =>
    have now := inv.now
    rw [here] at now
    exact ⟨threads,inv.loaded,inv.right,inv.past,now,inv.later,by simp⟩
  | leave here last => exact quietServed inv threads rfl rfl (by rw [here]; rfl) (fun _ => Nat.le_of_not_lt last)
  | spawnProducer here more => exact quietServed inv threads rfl rfl (by rw [here]; rfl) (by simp)
  | producersSpawned here all => exact quietServed inv threads rfl rfl (by rw [here]; rfl) (by simp)
  | spawnSubmitter here more => exact quietServed inv threads rfl rfl rfl (by simp [here])
  | submittersSpawned here all => exact quietServed inv threads rfl rfl (by rw [here]; rfl) (by simp)
  | joinProducer here thread ended => exact quietServed inv threads rfl rfl (by rw [here]; rfl) (by simp)
  | setDone here all => exact quietServed inv threads rfl rfl (by rw [here]; rfl) (by simp)
  | joinSubmitter here ended => exact quietServed inv threads rfl rfl (by rw [here]; rfl) (by simp)
  | resetDone here all =>
    have now := inv.now
    rw [here] at now
    refine ⟨threads,inv.loaded,inv.right,?_,inv.later _ (Nat.lt_succ_self _),?_,by simp⟩
    · intro r before
      rcases Nat.lt_succ_iff_lt_or_eq.mp before with earlier | rfl
      · exact inv.past r earlier
      · have served := repetitionServed inv.threads here all
        rwa [← show answeredIn w w.threads.rep = w.threads.launches.flatten.map Item.b from now] at served
    · intro r after
      exact inv.later r (by simp only at after; omega)

theorem submitterServed {w : World} (inv : Served k v w) {s : State} (step : SubmitterStep w.threads s)
    (quiet : s.launches = w.threads.launches) : Served k v { w with threads := s } := by
  have threads := submitterKeeps inv.threads step
  have ended := inv.ended
  cases step <;> exact quietServed inv threads rfl quiet rfl ended

theorem launchServed {w : World} (inv : Served k v w) {j : Nat} {buf : List Item} {exec : Exec}
    (thread : w.threads.submitters[j]? = some (.launching buf)) (runs : MainExec v.tasklets v.heap exec) :
    Served k v {
      threads := { w.threads with
        submitters := w.threads.submitters.set j .dequeue,launches := w.threads.launches ++ [buf] }
      memories := Function.update w.memories j (launchRound k v exec buf (w.memories j)).2
      answers := w.answers ++ answered w.threads.rep buf (launchRound k v exec buf (w.memories j)).1 } := by
  have threads := submitterKeeps inv.threads (.launch thread)
  have running := List.mem_of_getElem? thread
  have asked := heldAsked inv.threads thread
  have sizes := inv.threads.conserved.buffers buf running
  have busy := underWay inv.threads running (by simp)
  rw [launchRight asked sizes.1 sizes.2 (inv.loaded j) runs]
  refine ⟨threads,?_,?_,?_,?_,?_,inv.ended⟩
  · intro i
    rcases eq_or_ne i j with rfl | other
    · simp only [Function.update_self,launchRound,dpuSubmitter,submitterMemories]
      exact copyKeepsLoaded (inv.loaded i) (by rw [(evenSetup someEven v.loads).1]; exact evenAfter someEven v.loads) _
    · simp only [Function.update_of_ne other]
      exact inv.loaded i
  · intro a member
    rcases List.mem_append.mp member with old | new
    · exact inv.right a old
    · rw [answeredMap] at new
      obtain ⟨i,held,rfl⟩ := List.mem_map.mp new
      exact ⟨asked i held,rfl⟩
  · intro r before
    rw [launchedIn,if_neg (by simp only at before; omega),List.append_nil]
    exact inv.past r before
  · have now := inv.now
    rw [launchedIn,if_pos rfl,now,busy]
    simp
  · intro r after
    rw [launchedIn,if_neg (by simp only at after; omega),List.append_nil]
    exact inv.later r after

theorem worldKeeps {w w' : World} (step : WorldStep k v w w') (inv : Served k v w) : Served k v w' := by
  cases step with
  | main step => exact mainServed inv step
  | producer step =>
    have threads := producerKeeps inv.threads step
    have ended := inv.ended
    cases step
    exact quietServed inv threads rfl rfl rfl ended
  | submitter step quiet => exact submitterServed inv step quiet
  | launch thread runs => exact launchServed inv thread runs

theorem reachableServed {w : World} (run : Reachable k v w) : Served k v w := by
  obtain ⟨stale,steps⟩ := run
  induction steps with
  | refl =>
    refine ⟨startKeeps,fun j => loadedAfterSetup v.heap v.db (stale j),?_,?_,rfl,fun _ _ => rfl,?_⟩
    · simp [startWorld]
    · simp [startWorld,BatchQueue.start]
    · simp [startWorld,BatchQueue.start]
  | tail _ step ih => exact worldKeeps step ih

theorem keptScanWhole {e : Nat} (even : v.tasklets.nrTasklets = 2^e) {b : Nat} (asked : b < v.batch.batchSize) :
    answerPir (HostBatch.store N) (query k v b) = some (keptScan v (query k v b)) := by
  have large := v.deployment.large
  rw [storeScan _ (by omega) (queryLength asked).ge,keptScan]
  congr 1
  apply selectCongr _ (fun _ _ => rfl)
  intro g _
  have tasklet : g % (2^N/numDpus v) / 128 % v.tasklets.nrTasklets < v.tasklets.nrTasklets :=
    Nat.mod_lt _ v.tasklets.positive
  rw [keptRecord,(Halving.keepsAll v.tasklets.positive).mpr ⟨e,even⟩ _ tasklet,Bool.true_and]

theorem batchAnswered {w : World} (run : Reachable k v w) :
    (∀ a ∈ w.answers, a.b < v.batch.batchSize ∧ a.agg = keptScan v (query k v a.b) ∧
      ((∃ e, v.tasklets.nrTasklets = 2^e) → answerPir (HostBatch.store N) (query k v a.b) = some a.agg)) ∧
    (∀ r < w.threads.rep, (answeredIn w r).Perm (List.range v.batch.batchSize)) ∧
    (w.threads.main = .finished →
      ∀ r < v.batch.reps, (answeredIn w r).Perm (List.range v.batch.batchSize)) := by
  have served := reachableServed run
  refine ⟨?_,served.past,?_⟩
  · intro a member
    obtain ⟨asked,agg⟩ := served.right a member
    refine ⟨asked,agg,?_⟩
    rintro ⟨e,even⟩
    rw [agg]
    exact keptScanWhole even asked
  · intro ended r before
    have all := served.ended ended
    exact served.past r (by omega)

/- Two servers that drop the same records: their answers to the two keys of one index. -/
theorem serversDecode {draw0 draw1 : Block} {u : Server N}
    (alike : ∀ g < 2^N, keptRecord v.tasklets (2^N/numDpus v) g = keptRecord u.tasklets (2^N/numDpus u) g)
    {alpha : Nat → Nat} (keys : ∀ b < v.batch.batchSize, alpha b < 2^N ∧
      genFrom k draw0 draw1 (alpha b) N = some (v.keys.getD b [],u.keys.getD b []))
    {w w' : World} (run : Reachable k v w) (run' : Reachable k u w')
    {a a' : Answer} (first : a ∈ w.answers) (second : a' ∈ w'.answers) (same : a.b = a'.b) :
    a.agg.xor a'.agg = if keptRecord v.tasklets (2^N/numDpus v) (alpha a.b) then recordOf (alpha a.b) else 0 := by
  obtain ⟨asked,agg⟩ := (reachableServed run).right a first
  obtain ⟨asked',agg'⟩ := (reachableServed run').right a' second
  obtain ⟨inside,gen⟩ := keys a.b asked
  rw [← same] at asked' agg'
  rw [DpfPoint.genFromKeys k draw0 draw1 v.deployment.small inside,Option.some.injEq,Prod.mk.injEq] at gen
  rw [agg,agg',← addIsXor,queryLeaves asked,queryLeaves asked',← gen.1,← gen.2]
  exact sharesAlike addSelf recordOf inside (fun g below => CpuPir.bytesArePoint k draw0 draw1 inside below) alike

end

theorem worldFollows (k : FixedKeys) {N : Nat} (v : Server N) {s : State} (run : BatchQueue.Reachable v.batch s) :
    ∃ w, Reachable k v w ∧ w.threads = s := by
  induction run with
  | refl => exact ⟨startWorld v (fun _ _ _ => 0),⟨_,.refl⟩,rfl⟩
  | tail _ step ih =>
    obtain ⟨w,⟨stale,before⟩,rfl⟩ := ih
    have further {w' : World} (next : WorldStep k v w w') : Reachable k v w' := ⟨stale,before.tail next⟩
    cases step with
    | main step => exact ⟨_,further (.main step),rfl⟩
    | producer step => exact ⟨_,further (.producer step),rfl⟩
    | submitter step =>
      cases step with
      | launch thread => exact ⟨_,further (.launch thread (inOrderRuns v.tasklets v.heap)),rfl⟩
      | tryDequeueBulk thread got fits taken =>
        exact ⟨_,further (.submitter (.tryDequeueBulk thread got fits taken) rfl),rfl⟩
      | gotNothing thread => exact ⟨_,further (.submitter (.gotNothing thread) rfl),rfl⟩
      | loadDone thread done => exact ⟨_,further (.submitter (.loadDone thread done) rfl),rfl⟩
      | loadNotDone thread => exact ⟨_,further (.submitter (.loadNotDone thread) rfl),rfl⟩
      | sizeZero thread zero => exact ⟨_,further (.submitter (.sizeZero thread zero) rfl),rfl⟩
      | sizePositive thread => exact ⟨_,further (.submitter (.sizePositive thread) rfl),rfl⟩

def eightServer (tasklets : Tasklets) {keys : List (List Byte)} (eight : keys.length = 8)
    (flagged : ∀ key ∈ keys, FlaggedKey key 10) : Server 10 where
  NUM_DPUS := 4
  batch := ⟨8,2,1⟩
  tasklets := tasklets
  heap := 0
  db := (setupDatabase 4 2 (2^10)).get rfl
  keys := keys
  deployment := ⟨by decide,by decide,by decide,by decide,by decide⟩
  loads := (Option.some_get _).symm
  whole := eight
  flagged := flagged

theorem eightKeys (k : FixedKeys) (draw0 draw1 : Block) : ∃ as bs : List (List Byte), as.length = 8 ∧ bs.length = 8 ∧
    (∀ key ∈ as, FlaggedKey key 10) ∧ (∀ key ∈ bs, FlaggedKey key 10) ∧
    ∀ b < 8, genFrom k draw0 draw1 (7*b + 5) 10 = some (as.getD b [],bs.getD b []) := by
  have keys : ∀ b < 8, genFrom k draw0 draw1 (7*b + 5) 10 = some (DpfPoint.keyA k draw0 draw1 (7*b + 5) 10,
      DpfPoint.keyB k draw0 draw1 (7*b + 5) 10) :=
    fun b below => DpfPoint.genFromKeys k draw0 draw1 (by decide) (by omega)
  refine ⟨(List.range 8).map (fun b => DpfPoint.keyA k draw0 draw1 (7*b + 5) 10),
    (List.range 8).map (fun b => DpfPoint.keyB k draw0 draw1 (7*b + 5) 10),by simp,by simp,?_,?_,?_⟩
  · intro key member
    obtain ⟨b,below,rfl⟩ := List.mem_map.mp member
    exact (genKeysFlagged _ (keys b (List.mem_range.mp below))).1
  · intro key member
    obtain ⟨b,below,rfl⟩ := List.mem_map.mp member
    exact (genKeysFlagged _ (keys b (List.mem_range.mp below))).2
  · intro b below
    rw [keys b below,Loops.mapRangeGetD _ _ below,Loops.mapRangeGetD _ _ below]

theorem batchAnsweredEight : ∃ (keys : List (List Byte)) (eight : keys.length = 8)
    (flagged : ∀ key ∈ keys, FlaggedKey key 10) (w : World),
    Reachable (fixedKeys Aes128.encrypt) (eightServer ⟨8,by decide⟩ eight flagged) w ∧
    (answeredIn w 0).Perm (List.range 8) ∧ ∀ a ∈ w.answers, answerPir (HostBatch.store 10)
      (query (fixedKeys Aes128.encrypt) (eightServer ⟨8,by decide⟩ eight flagged) a.b) = some a.agg := by
  obtain ⟨keys,_,eight,_,flagged,_,_⟩ := eightKeys (fixedKeys Aes128.encrypt) (Aes128.encrypt TestBlock 0)
    (Aes128.encrypt TestBlock 1)
  obtain ⟨s,threads,ended,_,_⟩ := eightQueries.2
  obtain ⟨w,run,rfl⟩ := worldFollows (fixedKeys Aes128.encrypt) (eightServer ⟨8,by decide⟩ eight flagged) threads
  have answers := batchAnswered run
  exact ⟨keys,eight,flagged,w,run,answers.2.2 ended 0 Nat.zero_lt_one,
    fun a member => (answers.1 a member).2.2 ⟨3,rfl⟩⟩

theorem someAnswer {k : FixedKeys} {N : Nat} {v : Server N} {w : World} (run : Reachable k v w) {r b : Nat}
    (past : r < w.threads.rep) (asked : b < v.batch.batchSize) : ∃ a ∈ w.answers, a.b = b := by
  have member := ((reachableServed run).past r past).mem_iff.mpr (List.mem_range.mpr asked)
  obtain ⟨a,found,same⟩ := List.mem_map.mp member
  exact ⟨a,(List.mem_filter.mp found).1,same⟩

/- Two hosts with the configured 12 tasklets; no index is among the records that these drop. -/
theorem serversDecodeEight : ∃ (as bs : List (List Byte)) (first : as.length = 8) (second : bs.length = 8)
    (flagged : ∀ key ∈ as, FlaggedKey key 10) (flagged' : ∀ key ∈ bs, FlaggedKey key 10) (w w' : World),
    Reachable (fixedKeys Aes128.encrypt) (eightServer configured first flagged) w ∧
    Reachable (fixedKeys Aes128.encrypt) (eightServer configured second flagged') w' ∧
    ∀ b < 8, ∃ a ∈ w.answers, ∃ a' ∈ w'.answers, a.b = b ∧ a'.b = b ∧ a.agg.xor a'.agg = recordOf (7*b + 5) := by
  obtain ⟨as,bs,first,second,flagged,flagged',gen⟩ := eightKeys (fixedKeys Aes128.encrypt)
    (Aes128.encrypt TestBlock 0) (Aes128.encrypt TestBlock 1)
  obtain ⟨s,threads,_,rep,_⟩ := eightQueries.2
  obtain ⟨w,run,rfl⟩ := worldFollows (fixedKeys Aes128.encrypt) (eightServer configured first flagged) threads
  obtain ⟨w',run',alike⟩ := worldFollows (fixedKeys Aes128.encrypt) (eightServer configured second flagged') threads
  refine ⟨as,bs,first,second,flagged,flagged',w,w',run,run',?_⟩
  intro b asked
  obtain ⟨a,member,rfl⟩ := someAnswer run (r := 0) (by rw [rep]; exact Nat.zero_lt_one) asked
  obtain ⟨a',member',same⟩ := someAnswer run' (r := 0) (by rw [alike,rep]; exact Nat.zero_lt_one) asked
  have decoded := @serversDecode (fixedKeys Aes128.encrypt) 10 (eightServer configured first flagged)
    (Aes128.encrypt TestBlock 0) (Aes128.encrypt TestBlock 1) (eightServer configured second flagged')
    (fun _ _ => rfl) (fun b => 7*b + 5) (fun b asked => ⟨by change b < 8 at asked; omega,gen b asked⟩) w w' run run' a a'
    member member' same.symm
  have kept : keptRecord (eightServer configured first flagged).tasklets
      (2^10/numDpus (eightServer configured first flagged)) (7*a.b + 5) = true := by
    change keptRecord configured (2^10/(4/2)) (7*a.b + 5) = true
    change a.b < 8 at asked
    have small : 7*a.b + 5 < 128 := by omega
    rw [keptByTwelve,Nat.mod_eq_of_lt (Nat.lt_of_lt_of_le small (by decide)),Nat.div_eq_of_lt small]
    decide
  exact ⟨a,member,a',member',rfl,same,decoded.trans (if_pos kept)⟩

end ImPir.BatchAnswers
