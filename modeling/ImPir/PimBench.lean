import ImPir.BatchAnswers
import ImPir.BatchProgress
import ImPir.CpuBench
import ImPir.HostTransfers

/-! `pim_bench` from its command line to its answers. The worlds of a batch have the
progress of its threads; both modes answer for the index drawn, query by query. -/
namespace ImPir.PimBench
open Relation (ReflTransGen)
open LittleEndian Blocks Dpf DpfKey DpfLanes Records XorSum DpuKernel HostSharding HostBatch PimRetrieval
open CommandLine Benchmarks WorkerPool BatchQueue BatchDelivery BatchProgress BoundedWork BatchAnswers
open CpuBatch (batchKeys keysGenerated)
open CpuBench (DrawnFrom drawnInside smallMachine)
open AesContext (fixedKeys)

section
variable {k : FixedKeys} {N : Nat} {v : Server N}

def Polls (w w' : World) : Prop := Poll w.threads w'.threads

/- The threads are what is seen of a world; whatever they can do next, some world does. -/
theorem worldDetailed : Detailed (Step v.batch) (WorldStep k v) World.threads where
  shows _ _ step := by
    cases step with
    | main step => exact .main step
    | producer step => exact .producer step
    | submitter step _ => exact .submitter step
    | launch thread _ => exact .submitter (.launch thread)
  follows w s step := by
    cases step with
    | main step => exact ⟨_,.main step,rfl⟩
    | producer step => exact ⟨_,.producer step,rfl⟩
    | submitter step =>
      cases step with
      | tryDequeueBulk thread got fits taken => exact ⟨_,.submitter (.tryDequeueBulk thread got fits taken) rfl,rfl⟩
      | gotNothing thread => exact ⟨_,.submitter (.gotNothing thread) rfl,rfl⟩
      | loadDone thread done => exact ⟨_,.submitter (.loadDone thread done) rfl,rfl⟩
      | loadNotDone thread => exact ⟨_,.submitter (.loadNotDone thread) rfl,rfl⟩
      | sizeZero thread zero => exact ⟨_,.submitter (.sizeZero thread zero) rfl,rfl⟩
      | sizePositive thread => exact ⟨_,.submitter (.sizePositive thread) rfl,rfl⟩
      | launch thread => exact ⟨_,.launch thread (inOrderRuns v.tasklets v.heap),rfl⟩

theorem worldPlaced {w : World} (run : Reachable k v w) : Placed v.batch w.threads := by
  obtain ⟨stale,steps⟩ := run
  exact reachablePlaced someCluster (detailedShows worldDetailed steps)

theorem worldEnds {w : World} (run : Reachable k v w) :
    ∃ w', ReflTransGen (WorldStep k v) w w' ∧ w'.threads.main = .finished := by
  obtain ⟨s,steps,ended⟩ := endInReach (batchMeasured someCluster) (fun s here going => batchOnward here going)
    (worldPlaced run)
  obtain ⟨w',lifted,rfl⟩ := detailedRun worldDetailed steps
  exact ⟨w',lifted,ended⟩

theorem worldBound {stale : Nat → Memories} {n : Nat} {w : World}
    (run : Worked (WorldStep k v) Polls n (startWorld v stale) w) : n ≤ v.batch.reps*roundWork v.batch + 1 := by
  have bound := (workedBound (batchMeasured someCluster) startPlaced (detailedWork worldDetailed run)).2
  have first : work v.batch start = v.batch.reps*roundWork v.batch + 1 := by simp [work,mainWork,sharedWork,start]
  omega

end

section
variable (k : FixedKeys) (draw0 draw1 : Block)

/- `answer` is a share of record `index`, if that is kept: the holder of the second key,
who keeps the same records, is left with it. -/
def IsShare (N : Nat) (kept : Nat → Bool) (index : Nat) (answer : Record) : Prop :=
  ∃ ka kb other, genFrom k draw0 draw1 index N = some (ka,kb) ∧ evalFull8 k kb N = some other ∧
    answer.xor (select (2^N) (fun g => kept g && bitAt other g) recordOf) = if kept index then recordOf index else 0

def singleRounds (heap NUM_DPUS N : Nat) (db : Database) : List Exec → Memories → Option (List Record × Memories)
  | [], memories => some ([],memories)
  | exec :: execs, memories => do
      let keys ← genFrom k draw0 draw1 5 N
      let aaaa ← evalFull8 k keys.1 N
      let round := executionPim heap NUM_DPUS db exec aaaa memories
      let rest ← singleRounds heap NUM_DPUS N db execs round.2
      some (round.1 :: rest.1,rest.2)

/- A batch on `v`: it comes to its end, by then every repetition has answered each query
once, and every answer is a share for the index that was drawn. -/
structure BatchServed {N : Nat} (v : Server N) (indices : List Nat) : Prop where
  bounded : ∀ stale n w, Worked (WorldStep k v) Polls n (startWorld v stale) w → n ≤ v.batch.reps*roundWork v.batch + 1
  ends : ∀ w, Reachable k v w → ∃ w', ReflTransGen (WorldStep k v) w w' ∧ w'.threads.main = .finished
  complete : ∀ w, Reachable k v w → w.threads.main = .finished →
    ∀ r < v.batch.reps, (answeredIn w r).Perm (List.range v.batch.batchSize)
  shares : ∀ w, Reachable k v w → ∀ a ∈ w.answers, ∃ index, indices[a.b]? = some index ∧
    IsShare k draw0 draw1 N (keptRecord v.tasklets (2^N/numDpus v)) index a.agg

variable {k draw0 draw1} {N : Nat}

theorem shareKept (deep : 10 ≤ N) (small : N ≤ 63) {index : Nat} (inside : index < 2^N) (kept : Nat → Bool) :
    IsShare k draw0 draw1 N kept index (select (2^N)
      (fun g => kept g && bitAt (leafBytes k (DpfPoint.keyA k draw0 draw1 index N) N) g) recordOf) := by
  have keys := DpfPoint.genFromKeys k draw0 draw1 small inside
  refine ⟨_,_,_,keys,evalFull8Output k deep small (genKeysFlagged k keys).2,?_⟩
  rw [← addIsXor]
  exact sharesAlike addSelf recordOf inside (fun g below => CpuPir.bytesArePoint k draw0 draw1 inside below)
    (fun _ _ => rfl)

theorem roundsServe (c : Tasklets) {D e heap : Nat} (deep : 10 ≤ N) (small : N ≤ 63) (h : Even N D 1 D e)
    {db : Database} (set : setupDatabase D 1 (2^N) = some db) {execs : List Exec}
    (runs : ∀ exec ∈ execs, MainExec c heap exec) {memories : Memories} (loaded : Loaded heap db memories) :
    ∃ results left, singleRounds k draw0 draw1 heap D N db execs memories = some (results,left) ∧
      results.length = execs.length ∧ ∀ r ∈ results, IsShare k draw0 draw1 N (keptRecord c (8*e)) 5 r := by
  have inside : 5 < 2^N := Nat.lt_of_lt_of_le (by decide) (Nat.pow_le_pow_right (by omega) deep : 2^10 ≤ 2^N)
  have keys := DpfPoint.genFromKeys k draw0 draw1 small inside
  have query := evalFull8Output k deep small (genKeysFlagged k keys).1
  have length : (leafBytes k (DpfPoint.keyA k draw0 draw1 5 N) N).length = 2^(N-3) := by
    rw [leafBytesLength,stopLevels,show N-3 = 4 + (N-7) by omega,pow_add]
    norm_num
  induction execs generalizing memories with
  | nil => exact ⟨[],memories,rfl,rfl,fun _ member => (by contradiction)⟩
  | cons exec execs ih =>
    have answer := executionKept c h set loaded (runs exec List.mem_cons_self) length
    have later : Loaded heap db (executionPim heap D db exec
        (leafBytes k (DpfPoint.keyA k draw0 draw1 5 N) N) memories).2 :=
      copyKeepsLoaded loaded (by rw [(evenSetup h set).1]; exact evenAfter h set) _
    obtain ⟨results,left,rest,count,shares⟩ := ih (fun e member => runs e (List.mem_cons_of_mem _ member)) later
    refine ⟨(executionPim heap D db exec (leafBytes k (DpfPoint.keyA k draw0 draw1 5 N) N) memories).1 :: results,
      left,?_,by rw [List.length_cons,List.length_cons,count],?_⟩
    · rw [singleRounds,keys]
      simp only [Option.bind_eq_bind,Option.bind_some,query,rest]
    · intro r member
      rcases List.mem_cons.mp member with rfl | member
      · rw [answer]
        exact shareKept deep small inside _
      · exact shares r member

theorem batchServer {NUM_DPUS batchSize cluster reps : Nat} {db : Database}
    (deployment : Deployment N NUM_DPUS cluster) (set : setupDatabase NUM_DPUS cluster (2^N) = some db)
    {indices : List Nat} (count : indices.length = batchSize) (inside : ∀ index ∈ indices, index < 2^N)
    (tasklets : Tasklets) (heap : Nat) :
    ∃ v : Server N, v.NUM_DPUS = NUM_DPUS ∧ v.batch = ⟨batchSize,cluster,reps⟩ ∧ v.tasklets = tasklets ∧
      v.heap = heap ∧ v.db = db ∧ batchKeys k draw0 draw1 Prod.fst indices N = some v.keys ∧
      BatchServed k draw0 draw1 v indices := by
  have small := deployment.small
  have flagged : ∀ key ∈ indices.map (fun index => DpfPoint.keyA k draw0 draw1 index N), FlaggedKey key N := by
    intro key member
    obtain ⟨index,drawn,rfl⟩ := List.mem_map.mp member
    exact (genKeysFlagged k (DpfPoint.genFromKeys k draw0 draw1 small (inside index drawn))).1
  refine ⟨⟨NUM_DPUS,⟨batchSize,cluster,reps⟩,tasklets,heap,db,_,deployment,set,by rw [List.length_map,count],flagged⟩,
    rfl,rfl,rfl,rfl,rfl,keysGenerated small inside,?_,?_,?_,?_⟩
  · exact fun stale n w run => worldBound run
  · exact fun w run => worldEnds run
  · intro w run ended r before
    have served := reachableServed run
    have all := served.ended ended
    exact served.past r (Nat.lt_of_lt_of_le before all)
  · intro w run a given
    obtain ⟨asked,agg⟩ := (reachableServed run).right a given
    have place : a.b < indices.length := by rw [count]; exact asked
    refine ⟨indices[a.b],List.getElem?_eq_getElem place,?_⟩
    rw [agg,keptScan,BatchAnswers.queryLeaves asked]
    simp only [List.getD_eq_getElem?_getD,List.getElem?_map,List.getElem?_eq_getElem place,Option.map_some,
      Option.getD_some]
    exact shareKept deployment.large small (inside _ (List.getElem_mem place)) _

/- The shape of the DPUs that both modes need; `cluster` is one where all are asked. -/
structure Shaped (N NUM_DPUS cluster : Nat) : Prop where
  large : 10 ≤ N
  even : NUM_DPUS/cluster ∣ 2^(N-3)
  fits : 32*(2^N/(NUM_DPUS/cluster)) < 2^32

/- Whatever `pim_bench` is asked for on DPUs that divide the query and hold their shards:
in single mode every repetition, in batch mode every query is answered with a share. -/
theorem pimBenchServes {machine : Machine} (program : Text) (tokens : List Text) {s : PimStart}
    (started : pimMain machine (program :: tokens) = .ok s) {cluster : Nat} (clusters : ReadsOr 1 tokens clusterKey cluster)
    (shaped : Shaped N s.NUM_DPUS cluster) (tasklets : Tasklets) (heap : Nat) :
    (∀ reps, s.run = .runSingleQueryPim N reps → cluster = 1 → ∀ execs : List Exec, execs.length = reps →
      (∀ exec ∈ execs, MainExec tasklets heap exec) → ∀ memories, ∃ results left,
        singleRounds k draw0 draw1 heap s.NUM_DPUS N s.db execs (loadDatabase heap s.db memories) =
          some (results,left) ∧ results.length = reps ∧
        ∀ r ∈ results, IsShare k draw0 draw1 N (keptRecord tasklets (2^N/s.NUM_DPUS)) 5 r) ∧
    ∀ batchSize reps, s.run = .runBatchQueryPim N batchSize cluster reps →
      ∀ indices, DrawnFrom N batchSize indices →
        ∃ v : Server N, v.NUM_DPUS = s.NUM_DPUS ∧ v.batch = ⟨batchSize,cluster,reps⟩ ∧ v.tasklets = tasklets ∧
          v.heap = heap ∧ v.db = s.db ∧ batchKeys k draw0 draw1 Prod.fst indices N = some v.keys ∧
          BatchServed k draw0 draw1 v indices := by
  obtain ⟨N',reps',batchSize',cluster',_,below,_,_,_,clusters',_,set,_,asked⟩ := (pimMainRuns s).mp started
  have same : cluster' = cluster := by
    rw [← @numberReads program tokens _ (by decide)] at clusters clusters'
    exact Except.ok.inj (clusters'.symm.trans clusters)
  subst same
  refine ⟨?_,?_⟩
  · intro reps run one execs count runs memories
    subst one
    have deep : N' = N := by
      rcases asked with ⟨_,asked⟩ | ⟨_,asked⟩ <;> rw [run] at asked <;> cases asked
      rfl
    subst deep
    have deployment : Deployment N' s.NUM_DPUS 1 :=
      ⟨shaped.large,by omega,(HostTransfers.setupStores set).1,shaped.even,shaped.fits⟩
    have even := deploymentEven deployment
    simp only [Nat.div_one] at even
    have shard : 2^N'/s.NUM_DPUS = 8*(2^(N'-3)/s.NUM_DPUS) := by
      rw [even.records,Nat.mul_div_cancel_left _ even.positive]
    rw [← count,shard]
    exact roundsServe tasklets shaped.large (by omega) even set runs (loadedAfterSetup heap s.db memories)
  · intro batchSize reps run indices drawn
    have deep : N' = N := by
      rcases asked with ⟨_,asked⟩ | ⟨_,asked⟩ <;> rw [run] at asked <;> cases asked
      rfl
    subst deep
    have positive : N' ≠ 0 := by have := shaped.large; omega
    exact batchServer ⟨shaped.large,by omega,(HostTransfers.setupStores set).1,shaped.even,shaped.fits⟩ set drawn.1
      ((drawnInside drawn).mpr (fun none => absurd none positive)) tasklets heap

end

def smallBatch : List Text :=
  [modeKey ++ '=' :: batch,logNKey ++ ['=','1','0'],numDpusKey ++ ['=','2'],batchKey ++ ['=','3'],repsKey ++ ['=','1']]

theorem pimBenchServesSmall : ∃ s, pimMain smallMachine ([] :: smallBatch) = .ok s ∧
    ∃ v : Server 10, v.NUM_DPUS = s.NUM_DPUS ∧
    v.batch = ⟨3,1,1⟩ ∧ BatchServed (fixedKeys Aes128.encrypt) (Aes128.encrypt TestBlock 0)
      (Aes128.encrypt TestBlock 1) v [2,7,7] := by
  obtain ⟨db,set⟩ := HostAlignment.setupAccepts (by decide : Accepted 2 1) (2^10)
  have read : ∀ key preset n, '=' ∉ key → number (parseArgs ([] :: smallBatch)) key preset = .ok n →
      ReadsOr preset smallBatch key n := fun key preset n plain found => (numberReads plain preset n).mp found
  have said : ∀ key value, '=' ∉ key → parseArgs ([] :: smallBatch) key = some value → Says smallBatch key value :=
    fun key value plain found => (argumentIs plain value).mp found
  have clusters := read clusterKey 1 1 (by decide) rfl
  have started : pimMain smallMachine ([] :: smallBatch) = .ok ⟨2,db,.runBatchQueryPim 10 3 1 1⟩ :=
    (pimMainRuns _).mpr ⟨10,1,3,1,⟨['1','0'],said _ _ (by decide) rfl,rfl⟩,by decide,by decide,
      read repsKey 10 1 (by decide) rfl,read batchKey 1 3 (by decide) rfl,clusters,
      read numDpusKey 128 2 (by decide) rfl,set,rfl,.inr ⟨said _ _ (by decide) rfl,rfl⟩⟩
  have shaped : Shaped 10 2 1 := ⟨by decide,by decide,by decide⟩
  obtain ⟨v,dpus,batch,_,_,_,_,served⟩ :=
    (pimBenchServes [] _ started clusters shaped configured 0).2 3 1 rfl [2,7,7] ⟨rfl,by decide⟩
  exact ⟨_,started,v,dpus,batch,served⟩

end ImPir.PimBench
