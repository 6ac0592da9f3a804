import ImPir.BatchAnswers
import ImPir.Slices

/-! What `pim_bench` sends to its DPUs, joined again. The vectors of `setup_database`
are the whole database and those of a query the whole query, whether or not they divide
evenly; during a batch every launch finds both in the DPUs' memories. -/
namespace ImPir.HostTransfers
open LittleEndian Blocks Dpf DpfLanes Records Slices DpuKernel DpuScan HostSharding HostAlignment HostBatch
open WorkerPool BatchQueue BatchDelivery BatchAnswers
open AesContext (fixedKeys)
open PimRetrieval (configured)

def databaseBytes (n : Nat) : List Byte := (List.range n).flatMap (fun j => (pushRecord j).flatMap (toBytes 8))

theorem databaseLength (n : Nat) : (databaseBytes n).length = n*32 := by
  rw [databaseBytes,flatMapLength _ 32 (fun j _ => flatMapLength (toBytes 8) 8 (fun w _ => toBytesLength w)),
    List.length_range]

def readMram (m : Mram) (address length : Nat) : List Byte := (List.range length).map (fun k => m (address + k))

theorem readWritten (m : Mram) {address : Nat} {bytes : List Byte}
    (held : ∀ k byte, bytes[k]? = some byte → m (address + k) = byte) : readMram m address bytes.length = bytes := by
  apply List.ext_getElem?
  intro k
  rcases Nat.lt_or_ge k bytes.length with inside | outside
  · have byte := List.getElem?_eq_getElem inside
    rw [byte,← held k _ byte]
    simp [readMram,inside]
  · rw [List.getElem?_eq_none outside,List.getElem?_eq_none (by simpa [readMram] using outside)]

theorem partFits {size parts i : Nat} (word : parts < 2^64) (below : size < 2^64) (inside : i ≤ parts) :
    i*SizeT.ceilDiv size parts < 2^64 := by
  rcases Nat.eq_zero_or_pos parts with rfl | positive
  · rw [Nat.le_zero.mp inside,Nat.zero_mul]
    omega
  rcases Nat.lt_or_ge (2^64) (size + parts) with wraps | fits
  · rw [SizeT.ceilDivWraps below word wraps,Nat.mul_zero]
    omega
  · have bounds := ceilBounds (a := size) positive
    have within : i*SizeT.ceilDiv size parts ≤ parts*SizeT.ceilDiv size parts := Nat.mul_le_mul_right _ inside
    rw [SizeT.ceilDivExact positive fits] at within ⊢
    omega

/- Where part `i` of a query starts; the last part ends where the query ends. -/
def queryCut (numDpus : Nat) (query : List Byte) (i : Nat) : Nat :=
  if i = numDpus then query.length else min (SizeT.mul i (SizeT.ceilDiv query.length numDpus)) query.length

theorem partIsSlice {numDpus i : Nat} {query : List Byte} (inside : i < numDpus) :
    queryPart numDpus query i = slice query (queryCut numDpus query i) (queryCut numDpus query (i+1)) := by
  have first : i ≠ numDpus := by omega
  rw [queryPart,slice,queryCut,queryCut,if_neg first]

theorem cutsUp {numDpus : Nat} {query : List Byte} (word : numDpus < 2^64) (below : query.length < 2^64) :
    ∀ i < numDpus, queryCut numDpus query i ≤ queryCut numDpus query (i+1) := by
  intro i inside
  have low := partFits word below (Nat.le_of_lt inside)
  have high := partFits word below (show i+1 ≤ numDpus from inside)
  have next : i*SizeT.ceilDiv query.length numDpus ≤ (i+1)*SizeT.ceilDiv query.length numDpus :=
    Nat.mul_le_mul_right _ (by omega)
  have first : i ≠ numDpus := by omega
  rw [queryCut,queryCut,if_neg first,SizeT.mulExact low,SizeT.mulExact high]
  split <;> omega

theorem queryWhole {numDpus : Nat} {query : List Byte} (positive : 0 < numDpus) (word : numDpus < 2^64)
    (below : query.length < 2^64) : (splitQuery numDpus query).flatten = query := by
  have slices : (splitQuery numDpus query).flatten =
      (List.range numDpus).flatMap (fun i => slice query (queryCut numDpus query i) (queryCut numDpus query (i+1))) := by
    rw [splitQuery,← List.flatMap_def]
    exact List.flatMap_congr (fun i member => partIsSlice (List.mem_range.mp member))
  have start : queryCut numDpus query 0 = 0 := by
    rw [queryCut,if_neg (by omega),SizeT.mulExact (by omega),Nat.zero_mul,Nat.zero_min]
  have stop : queryCut numDpus query numDpus = query.length := by rw [queryCut,if_pos rfl]
  rw [slices,slicesJoin query (cutsUp word below),start,stop,sliceWhole (Nat.le_refl _)]

theorem setupStores {NUM_DPUS cluster n : Nat} {db : Database} (set : setupDatabase NUM_DPUS cluster n = some db) :
    Accepted NUM_DPUS cluster ∧ db.dpuStore = (List.range (NUM_DPUS/cluster)).map
      (fun i => (storedIndices n (SizeT.ceilDiv n (NUM_DPUS/cluster)) i).flatMap pushRecord) := by
  unfold setupDatabase at set
  split at set
  · rename_i accepted
    rw [← Option.some.inj set]
    exact ⟨accepted,rfl⟩
  · contradiction

theorem indicesWhole {n D : Nat} (positive : 0 < D) (fits : n + D ≤ 2^64) (word : D < 2^64) :
    (List.range D).flatMap (storedIndices n (SizeT.ceilDiv n D)) = List.range n := by
  have below : n < 2^64 := by omega
  have bounds := ceilBounds (a := n) positive
  rw [← SizeT.ceilDivExact positive fits] at bounds
  have slices : (List.range D).flatMap (storedIndices n (SizeT.ceilDiv n D)) =
      (List.range D).flatMap (fun i => slice (List.range n) (i*SizeT.ceilDiv n D) ((i+1)*SizeT.ceilDiv n D)) := by
    apply List.flatMap_congr
    intro i member
    have inside := List.mem_range.mp member
    have start := partFits word below (Nat.le_of_lt inside)
    have stop := partFits word below (Nat.succ_le_of_lt inside)
    rw [sliceRange,storedIndices,SizeT.mulExact start,SizeT.addExact (by rwa [Nat.succ_mul] at stop),Nat.succ_mul]
  rw [slices,slicesJoin _ (fun i _ => Nat.mul_le_mul_right _ (by omega : i ≤ i+1)),Nat.zero_mul,
    sliceWhole (by rw [List.length_range]; exact bounds.1)]

theorem storesWhole {NUM_DPUS cluster n : Nat} {db : Database} (word : NUM_DPUS < 2^64)
    (set : setupDatabase NUM_DPUS cluster n = some db) (fits : n + NUM_DPUS/cluster ≤ 2^64) :
    db.dpuStore.flatten = (List.range n).flatMap pushRecord := by
  obtain ⟨accepted,stores⟩ := setupStores set
  have positive : 0 < NUM_DPUS/cluster := Nat.div_pos accepted.2.1 accepted.1
  have fewer : NUM_DPUS/cluster ≤ NUM_DPUS := Nat.div_le_self _ _
  rw [stores,← List.flatMap_def,← List.flatMap_assoc,indicesWhole positive fits (by omega)]

theorem storesNothing {NUM_DPUS cluster n : Nat} {db : Database} (word : NUM_DPUS < 2^64) (below : n < 2^64)
    (set : setupDatabase NUM_DPUS cluster n = some db) (wraps : 2^64 < n + NUM_DPUS/cluster) :
    db.dpuStore.flatten = [] := by
  have fewer : NUM_DPUS/cluster ≤ NUM_DPUS := Nat.div_le_self _ _
  rw [(setupStores set).2,SizeT.ceilDivWraps below (by omega) wraps,← List.flatMap_def,List.flatMap_eq_nil_iff]
  intro i _
  rw [storedNone,List.flatMap_nil]

theorem shardsRead {heap : Nat} {db : Database} {memories : Memories} (loaded : Loaded heap db memories) :
    (List.range db.dpuStore.length).flatMap
      (fun i => readMram (memories i) heap (8*(db.dpuStore.getD i []).length)) =
      db.dpuStore.flatten.flatMap (toBytes 8) := by
  have shard : ∀ i < db.dpuStore.length, readMram (memories i) heap (8*(db.dpuStore.getD i []).length) =
      (db.dpuStore.getD i []).flatMap (toBytes 8) := by
    intro i inside
    have row : db.dpuStore[i]? = some (db.dpuStore.getD i []) := by simp [List.getD_eq_getElem?_getD,inside]
    have length := @flatMapLength _ _ (toBytes 8) 8 (db.dpuStore.getD i []) (fun w _ => toBytesLength w)
    have read := readWritten (memories i) (loaded i _ row)
    rwa [length,Nat.mul_comm] at read
  have rows : (List.range db.dpuStore.length).map (fun i => db.dpuStore.getD i []) = db.dpuStore := by
    apply List.ext_getElem
    · simp
    · intro i _ inside
      simp [List.getD_eq_getElem?_getD,inside]
  rw [List.flatMap_congr (fun i member => shard i (List.mem_range.mp member)),← List.flatMap_map
    (fun i => db.dpuStore.getD i []) (fun words => words.flatMap (toBytes 8)),rows,List.flatten_eq_flatMap,
    List.flatMap_assoc]
  rfl

/- Whatever the number of DPUs: a query is always sent whole, each byte once and in order;
the database is, and is found in the memories, unless its ceiling wraps. -/
theorem transfersWhole {N NUM_DPUS cluster : Nat} (small : N ≤ 63) (word : NUM_DPUS < 2^64) {db : Database}
    (set : setupDatabase NUM_DPUS cluster (2^N) = some db) (heap : Nat) (memories : Memories) :
    ((List.range (NUM_DPUS/cluster)).flatMap (fun i => readMram (loadDatabase heap db memories i) heap
        (8*(db.dpuStore.getD i []).length)) = databaseBytes (2^N) ↔ 2^N + NUM_DPUS/cluster ≤ 2^64) ∧
    ∀ query : List Byte, query.length < 2^64 →
      (executionInputs NUM_DPUS query).flatten = query ∧ (workerInputs NUM_DPUS cluster query).flatten = query := by
  obtain ⟨accepted,stores⟩ := setupStores set
  have positive : 0 < NUM_DPUS/cluster := Nat.div_pos accepted.2.1 accepted.1
  have fewer : NUM_DPUS/cluster ≤ NUM_DPUS := Nat.div_le_self _ _
  have length : db.dpuStore.length = NUM_DPUS/cluster := by rw [stores,List.length_map,List.length_range]
  have below : 2^N < 2^64 := Nat.pow_lt_pow_right (by omega) (by omega)
  refine ⟨?_,fun query fits => ⟨queryWhole (by omega) word fits,queryWhole positive (by omega) fits⟩⟩
  have read := shardsRead (loadedAfterSetup heap db memories)
  rw [length] at read
  rw [read]
  constructor
  · intro whole
    by_contra wraps
    rw [storesNothing word below set (by omega)] at whole
    have bytes := congrArg List.length whole
    have someRecord : 0 < 2^N := Nat.two_pow_pos N
    rw [databaseLength,List.flatMap_nil,List.length_nil] at bytes
    omega
  · intro fits
    rw [storesWhole word set fits,databaseBytes,List.flatMap_assoc]

theorem transfersWholeThree : ∃ db, setupDatabase 3 1 (2^10) = some db ∧
    (List.range 3).flatMap (fun i => readMram (loadDatabase 64 db (fun _ _ => 0) i) 64
      (8*(db.dpuStore.getD i []).length)) = databaseBytes 1024 ∧
    ∀ query : List Byte, query.length = 128 → (executionInputs 3 query).flatten = query := by
  obtain ⟨db,set⟩ := setupAccepts (by decide : Accepted 3 1) (2^10)
  have whole := transfersWhole (by decide) (by decide) set 64 (fun _ _ => 0)
  exact ⟨db,set,whole.1.mpr (by decide),fun query length => (whole.2 query (by omega)).1⟩

section
variable {k : FixedKeys} {N : Nat} {v : Server N}

theorem strideIs (e : Nat) : indexStride (32*(8*e)) = e := by
  rw [indexStride,totalOf,Nat.shiftRight_eq_div_pow]
  omega

theorem shardSize {i : Nat} (inside : i < numDpus v) :
    8*(v.db.dpuStore.getD i []).length = v.db.args.databaseSizeBytes := by
  obtain ⟨size,stores⟩ := evenSetup someEven v.loads
  rw [size,stores,Loops.mapRangeGetD _ _ inside,flatMapLength pushRecord 4 (fun j _ => pushLength j),
    List.length_range']
  omega

theorem loadedWhole {memories : Memories} (loaded : Loaded v.heap v.db memories) :
    (List.range (numDpus v)).flatMap (fun i => readMram (memories i) v.heap v.db.args.databaseSizeBytes) =
      databaseBytes (2^N) := by
  have h := someEven (v := v)
  have words := h.words
  have few : numDpus v ≤ numDpus v*(8*(2^(N-3)/numDpus v)) := Nat.le_mul_of_pos_right _ (by have := h.part; omega)
  have length : v.db.dpuStore.length = numDpus v := by rw [(evenSetup h v.loads).2,List.length_map,List.length_range]
  have read := shardsRead loaded
  rw [length,List.flatMap_congr (fun i member => by rw [shardSize (List.mem_range.mp member)])] at read
  have fits : 2^N + numDpus v ≤ 2^64 := by rw [h.records]; omega
  have whole := indicesWhole h.positive fits (by omega)
  rw [read,(setupStores v.loads).2,← List.flatMap_def,← List.flatMap_assoc,h.dpus,whole,databaseBytes,
    List.flatMap_assoc]

theorem partRead {queries : List (List Byte)} (lengths : ∀ q ∈ queries, q.length = 2^(N-3)) {m : Mram}
    {idx i : Nat} {query : List Byte} (place : queries[idx]? = some query) (inside : i < numDpus v) :
    readMram (writeMram m (v.heap + v.db.args.databaseSizeBytes)
      (queries.flatMap (fun q => queryPart (numDpus v) q i))) (bitmapAt v.heap v.db.args.databaseSizeBytes idx)
        (indexStride v.db.args.databaseSizeBytes) = queryPart (numDpus v) query i := by
  have h := someEven (v := v)
  have size := (evenSetup h v.loads).1
  have part := evenPartLength h (lengths query (List.mem_of_getElem? place)) inside
  have stride : indexStride v.db.args.databaseSizeBytes = (queryPart (numDpus v) query i).length := by
    rw [size,strideIs,part]
  rw [stride]
  apply readWritten
  intro r byte found
  have short : r < (queryPart (numDpus v) query i).length := (List.getElem?_eq_some_iff.mp found).1
  have sent := flatMapItemAt (fun q => queryPart (numDpus v) q i) _
    (fun q member => evenPartLength h (lengths q member) inside) place (by rwa [part] at short)
  rw [found] at sent
  rw [bitmapAt,indexBase,stride,part,Nat.add_assoc]
  exact writtenAt m _ sent

/- In every state of a batch the DPUs of each cluster hold the database between them, and
a launch hands each query over in full, where and as long as the kernel expects it. -/
theorem launchDelivers {w : World} (run : Reachable k v w) :
    (∀ j, (List.range (numDpus v)).flatMap (fun i => readMram (w.memories j i) v.heap
      v.db.args.databaseSizeBytes) = databaseBytes (2^N)) ∧
    ∀ j buf, w.threads.submitters[j]? = some (.launching buf) →
      let sent := submitterMemories v.heap (numDpus v) v.db (buf.map (dpuInputs k v)) (w.memories j)
      let arguments := submitterArguments (numDpus v) v.db (buf.map (dpuInputs k v))
      arguments.inputIndexingSizeBytes = indexStride arguments.databaseSizeBytes ∧
      ∀ idx i, buf[idx]? = some i → idx < clampBatches arguments.numBatches ∧
        (List.range (numDpus v)).flatMap (fun dpu => readMram (sent dpu)
          (bitmapAt v.heap arguments.databaseSizeBytes idx) (indexStride arguments.databaseSizeBytes)) =
          query k v i.b := by
  have served := reachableServed run
  refine ⟨fun j => loadedWhole (served.loaded j),?_⟩
  intro j buf thread
  have h := someEven (v := v)
  have words := h.words
  have few : numDpus v ≤ numDpus v*(8*(2^(N-3)/numDpus v)) := Nat.le_mul_of_pos_right _ (by have := h.part; omega)
  have asked := heldAsked served.threads thread
  obtain ⟨someQuery,fits⟩ := served.threads.conserved.buffers buf (List.mem_of_getElem? thread)
  have lengths : ∀ q ∈ buf.map (fun i => query k v i.b), q.length = 2^(N-3) := by
    intro q member
    obtain ⟨i,held,rfl⟩ := List.mem_map.mp member
    exact queryLength (asked i held)
  have inputs : ∀ dpu < numDpus v, (batchedInputs (numDpus v) (buf.map (dpuInputs k v))).getD dpu [] =
      (buf.map (fun i => query k v i.b)).flatMap (fun q => queryPart (numDpus v) q dpu) := by
    intro dpu inside
    rw [batchedGetD _ inside,List.flatMap_map,List.flatMap_map]
    exact List.flatMap_congr (fun i _ => splitGetD _ inside)
  refine ⟨?_,?_⟩
  · have size := h.size
    have total := flatMapLength (fun q => queryPart (numDpus v) q 0) _
      (fun q member => evenPartLength h (lengths q member) h.positive)
    simp only [submitterArguments]
    rw [inputs 0 h.positive,total,List.length_map,List.length_map,Nat.mul_div_cancel_left _ someQuery,
      SizeT.toUInt32Exact (by omega),(evenSetup h v.loads).1,strideIs]
  · intro idx i found
    have inside : idx < buf.length := (List.getElem?_eq_some_iff.mp found).1
    have member := List.mem_of_getElem? found
    have place : (buf.map (fun i => query k v i.b))[idx]? = some (query k v i.b) := by
      rw [List.getElem?_map,found,Option.map_some]
    have below : 2^(N-3) < 2^64 := Nat.pow_lt_pow_right (by omega) (by have := v.deployment.small; omega)
    have whole := @queryWhole (numDpus v) (query k v i.b) h.positive (by omega)
      (by rw [queryLength (asked i member)]; exact below)
    rw [splitQuery,← List.flatMap_def] at whole
    refine ⟨by rw [clampKeeps someQuery fits]; exact inside,Eq.trans ?_ whole⟩
    apply List.flatMap_congr
    intro dpu inCluster
    have dpuInside := List.mem_range.mp inCluster
    rw [submitterMemories,copyTo,inputs dpu dpuInside]
    exact partRead lengths place dpuInside

end

theorem launchDeliversEight : ∃ (keys : List (List Byte)) (eight : keys.length = 8)
    (flagged : ∀ key ∈ keys, FlaggedKey key 10) (w : World),
    let v := eightServer configured eight flagged
    let sent := submitterMemories v.heap (numDpus v) v.db
      ([⟨1,4⟩,⟨0,2⟩,⟨1,5⟩].map (dpuInputs (fixedKeys Aes128.encrypt) v)) (w.memories 1)
    Reachable (fixedKeys Aes128.encrypt) v w ∧
    (List.range (numDpus v)).flatMap (fun i => readMram (w.memories 1 i) v.heap v.db.args.databaseSizeBytes) =
      databaseBytes (2^10) ∧
    (List.range (numDpus v)).flatMap (fun dpu => readMram (sent dpu) (bitmapAt v.heap v.db.args.databaseSizeBytes 2)
      (indexStride v.db.args.databaseSizeBytes)) = query (fixedKeys Aes128.encrypt) v 5 := by
  obtain ⟨keys,_,eight,_,flagged,_,_⟩ := eightKeys (fixedKeys Aes128.encrypt) (Aes128.encrypt TestBlock 0)
    (Aes128.encrypt TestBlock 1)
  obtain ⟨s,threads,taken⟩ := eightQueries.1
  obtain ⟨w,run,rfl⟩ := worldFollows (fixedKeys Aes128.encrypt) (eightServer configured eight flagged) threads
  have delivers := launchDelivers run
  have thread : w.threads.submitters[1]? = some (.launching [⟨1,4⟩,⟨0,2⟩,⟨1,5⟩]) := by rw [taken]; rfl
  exact ⟨keys,eight,flagged,w,run,delivers.1 1,((delivers.2 1 _ thread).2 2 _ rfl).2⟩

end ImPir.HostTransfers
