import ImPir.Datastore
import ImPir.DpuScan
import ImPir.HostAlignment

/-! The host paths against the CPU scan. On an even deployment each DPU holds its rows
of the store and the matching bytes of every query, so the XOR of the DPUs' answers is
`answer_pir` on the whole store. -/
namespace ImPir.HostBatch
open Finset LittleEndian Loops Records XorSum Datastore DpuKernel DpuScan HostSharding HostAlignment

/- A DPU that answers each query from its memory as the kernel's layout says. -/
def scanExec (heap : Nat) : Exec := fun _ m args b => scanSpec m heap args.databaseSizeBytes b

def store (N : Nat) : List Record := (List.range (2^N)).map recordOf

/- The DPUs of each cluster divide the query bytes, and a shard's size fits its field. -/
structure Deployment (N NUM_DPUS cluster : Nat) : Prop where
  large : 10 ≤ N
  small : N ≤ 63
  accepted : Accepted NUM_DPUS cluster
  even : NUM_DPUS/cluster ∣ 2^(N-3)
  fits : 32*(2^N/(NUM_DPUS/cluster)) < 2^32

def Loaded (heap : Nat) (db : Database) (memories : Memories) : Prop :=
  ∀ i words, db.dpuStore[i]? = some words → ∀ k byte, (words.flatMap (toBytes 8))[k]? = some byte →
    memories i (heap + k) = byte

theorem writtenAt (m : Mram) (address : Nat) {bytes : List Byte} {k : Nat} {byte : Byte}
    (found : bytes[k]? = some byte) : writeMram m address bytes (address + k) = byte := by
  have inside : k < bytes.length := (List.getElem?_eq_some_iff.mp found).1
  have place : address + k - address = k := by omega
  rw [writeMram,if_pos ⟨by omega,by omega⟩,place,List.getD_eq_getElem?_getD,found,Option.getD_some]

theorem loadedAfterSetup (heap : Nat) (db : Database) (memories : Memories) :
    Loaded heap db (loadDatabase heap db memories) := by
  intro i words row k byte found
  have bytes : (db.dpuStore.map (fun words => words.flatMap (toBytes 8))).getD i [] = words.flatMap (toBytes 8) := by
    simp [List.getD_eq_getElem?_getD,row]
  rw [loadDatabase,copyTo,bytes,Nat.add_zero]
  exact writtenAt (memories i) heap found

theorem copyKeepsLoaded {heap offset : Nat} {db : Database} {memories : Memories} (loaded : Loaded heap db memories)
    (after : ∀ words ∈ db.dpuStore, (words.flatMap (toBytes 8)).length ≤ offset) (vectors : List (List Byte)) :
    Loaded heap db (copyTo heap offset vectors memories) := by
  intro i words row k byte found
  have inside : k < (words.flatMap (toBytes 8)).length := (List.getElem?_eq_some_iff.mp found).1
  have below := after words (List.mem_of_getElem? row)
  rw [copyTo,writeMram,if_neg (by omega)]
  exact loaded i words row k byte found

/- The numbers of a deployment: `D` DPUs, `e` query bytes and `8 * e` records each. -/
structure Even (N NUM_DPUS cluster D e : Nat) : Prop where
  dpus : NUM_DPUS/cluster = D
  positive : 0 < D
  part : 0 < e
  bytes : 2^(N-3) = D*e
  records : 2^N = D*(8*e)
  words : D*(8*e) ≤ 2^63
  size : 32*(8*e) < 2^32

theorem deploymentEven {N NUM_DPUS cluster : Nat} (h : Deployment N NUM_DPUS cluster) :
    Even N NUM_DPUS cluster (NUM_DPUS/cluster) (2^(N-3)/(NUM_DPUS/cluster)) := by
  have positive : 0 < NUM_DPUS/cluster := Nat.div_pos h.accepted.2.1 h.accepted.1
  have whole := bytesOf (by have := h.large; omega : 3 ≤ N)
  have fewer : 2^N ≤ 2^63 := Nat.pow_le_pow_right (by omega) h.small
  have some : 0 < 2^(N-3) := Nat.two_pow_pos _
  have fits := h.fits
  obtain ⟨e,bytes⟩ := h.even
  generalize same : NUM_DPUS/cluster = D at positive bytes fits ⊢
  have quotient : 2^(N-3)/D = e := by rw [bytes,Nat.mul_div_cancel_left _ positive]
  have records : 2^N = D*(8*e) := by rw [whole,bytes]; ring
  have part : 0 < e := by
    rcases Nat.eq_zero_or_pos e with none | part
    · rw [none,Nat.mul_zero] at bytes
      omega
    · exact part
  rw [records,Nat.mul_div_cancel_left _ positive] at fits
  exact ⟨same,positive,by rw [quotient]; exact part,by rw [quotient,bytes],by rw [quotient,records],
    by rw [quotient,← records]; exact fewer,by rw [quotient]; exact fits⟩

section
variable {N NUM_DPUS cluster D e : Nat}

theorem evenCeil {n : Nat} (positive : 0 < D) (fits : D*n ≤ 2^63) (few : D ≤ 2^63) : SizeT.ceilDiv (D*n) D = n := by
  rw [SizeT.ceilDivExact positive (by omega)]
  exact ceilUnique positive (le_refl _) (by omega)

theorem evenStored (h : Even N NUM_DPUS cluster D e) {i : Nat} (inside : i < D) :
    storedIndices (2^N) (8*e) i = List.range' (i*(8*e)) (8*e) := by
  have within : (i+1)*(8*e) ≤ D*(8*e) := Nat.mul_le_mul_right _ inside
  have words := h.words
  rw [Nat.succ_mul] at within
  rw [storedIndices,SizeT.mulExact (by omega : i*(8*e) < 2^64),SizeT.addExact (by omega),h.records,
    Nat.min_eq_left within,Nat.add_sub_cancel_left]

theorem evenSetup (h : Even N NUM_DPUS cluster D e) {db : Database}
    (set : setupDatabase NUM_DPUS cluster (2^N) = some db) :
    db.args.databaseSizeBytes = 32*(8*e) ∧
      db.dpuStore = (List.range D).map (fun i => (List.range' (i*(8*e)) (8*e)).flatMap pushRecord) := by
  have size := h.size
  have words := h.words
  have few : D ≤ D*(8*e) := Nat.le_mul_of_pos_right D (by have := h.part; omega)
  have perDpu : SizeT.ceilDiv (2^N) D = 8*e := by
    rw [h.records]
    exact evenCeil h.positive words (by omega)
  have bytes : SizeT.toUInt32 (SizeT.mul (8*e) 32) = 32*(8*e) := by
    rw [SizeT.mulExact (by omega),SizeT.toUInt32Exact (by omega),Nat.mul_comm]
  unfold setupDatabase at set
  split at set
  · simp only [h.dpus,perDpu] at set
    rw [← Option.some.inj set]
    refine ⟨bytes,?_⟩
    apply List.map_congr_left
    intro i member
    rw [evenStored h (List.mem_range.mp member)]
  · contradiction

theorem pushLength (j : Nat) : (pushRecord j).length = 4 := rfl

theorem storeBytesLength (i s : Nat) :
    (((List.range' i s).flatMap pushRecord).flatMap (toBytes 8)).length = 32*s := by
  rw [flatMapLength (toBytes 8) 8 (fun w _ => toBytesLength w),
    flatMapLength pushRecord 4 (fun j _ => pushLength j),List.length_range']
  omega

theorem storeByteAt (first : Nat) {s r w k : Nat} (row : r < s) (word : w < 4) (byte : k < 8) :
    (((List.range' first s).flatMap pushRecord).flatMap (toBytes 8))[32*r + 8*w + k]? =
      (toBytes 8 (BitVec.ofNat 64 (first + r)))[k]? := by
  have record : (List.range' first s)[r]? = some (first + r) := by
    rw [List.getElem?_range' row,Nat.one_mul]
  have copy : (pushRecord (first + r))[w]? = some (BitVec.ofNat 64 (first + r)) := by
    rcases (by omega : w = 0 ∨ w = 1 ∨ w = 2 ∨ w = 3) with rfl | rfl | rfl | rfl <;> rfl
  have item := flatMapItemAt pushRecord 4 (fun j _ => pushLength j) record word
  rw [copy] at item
  have place : 32*r + 8*w + k = (r*4 + w)*8 + k := by omega
  rw [place,flatMapItemAt (toBytes 8) 8 (fun v _ => toBytesLength v) item byte]

theorem wordLoaded {m : Mram} {address : Nat} {v : BitVec 64}
    (bytes : ∀ k < 8, (toBytes 8 v)[k]? = some (m (address + k))) : wordAt m address = v := by
  have list : (List.range 8).map (fun k => m (address + k)) = toBytes 8 v := by
    apply List.ext_getElem?
    intro k
    rcases Nat.lt_or_ge k 8 with inside | outside
    · rw [bytes k inside]
      simp [inside]
    · rw [List.getElem?_eq_none (by simpa using outside),List.getElem?_eq_none (by simpa using outside)]
  rw [wordAt,list]
  exact ofBytesToBytes (n := 8) v

theorem recordLoaded {heap i r s : Nat} {db : Database} {memories : Memories} (loaded : Loaded heap db memories)
    (shard : db.dpuStore[i]? = some ((List.range' (i*s) s).flatMap pushRecord)) (inside : r < s) :
    recordAt (memories i) (heap + recSize*r) = recordOf (i*s + r) := by
  have word : ∀ w < 4, wordAt (memories i) (heap + recSize*r + 8*w) = BitVec.ofNat 64 (i*s + r) := by
    intro w four
    apply wordLoaded
    intro k eight
    have stored := storeByteAt (i*s) inside four eight
    have someByte := toBytesAt (BitVec.ofNat 64 (i*s + r)) eight
    rw [someByte] at stored ⊢
    rw [← loaded i _ shard _ _ stored]
    unfold recSize
    congr 2
    omega
  have w0 := word 0 (by omega)
  have w1 := word 1 (by omega)
  have w2 := word 2 (by omega)
  have w3 := word 3 (by omega)
  simp only [Nat.mul_zero,Nat.add_zero,Nat.mul_one] at w0 w1
  rw [recordAt,w0,w1,w2,w3,recordOf]

theorem evenPart (h : Even N NUM_DPUS cluster D e) {query : List Byte} (length : query.length = 2^(N-3))
    {i : Nat} (inside : i < D) : queryPart D query i = (query.drop (i*e)).take e := by
  have words := h.words
  have eight : D*(8*e) = 8*(D*e) := by ring
  have few : D ≤ D*e := Nat.le_mul_of_pos_right D h.part
  have within : (i+1)*e ≤ D*e := Nat.mul_le_mul_right e inside
  have elems : SizeT.ceilDiv (D*e) D = e := evenCeil h.positive (by omega) (by omega)
  rw [Nat.succ_mul] at within
  have start := SizeT.mulExact (by omega : i*e < 2^64)
  have stop := SizeT.mulExact (by rw [Nat.succ_mul]; omega : (i+1)*e < 2^64)
  rw [Nat.succ_mul] at stop
  rw [h.bytes] at length
  have ends : (if i + 1 = D then D*e else min (i*e + e) (D*e)) = i*e + e := by
    split
    · rename_i last
      rw [← last,Nat.succ_mul]
    · exact Nat.min_eq_left within
  simp only [queryPart,length,elems,start,stop,ends,Nat.min_eq_left (by omega : i*e ≤ D*e),
    Nat.add_sub_cancel_left]

theorem evenPartLength (h : Even N NUM_DPUS cluster D e) {query : List Byte} (length : query.length = 2^(N-3))
    {i : Nat} (inside : i < D) : (queryPart D query i).length = e := by
  have within : (i+1)*e ≤ D*e := Nat.mul_le_mul_right e inside
  rw [Nat.succ_mul] at within
  rw [evenPart h length inside,List.length_take,List.length_drop,length,h.bytes]
  omega

theorem bitmapSent (h : Even N NUM_DPUS cluster D e) {queries : List (List Byte)}
    (lengths : ∀ q ∈ queries, q.length = 2^(N-3)) (heap : Nat) (m : Mram) {i idx r : Nat} {query : List Byte}
    (place : queries[idx]? = some query) (inside : i < D) (row : r < 8*e) :
    bitmapBit (writeMram m (heap + 32*(8*e)) (queries.flatMap (fun q => queryPart D q i)))
      (bitmapAt heap (32*(8*e)) idx) r = bitAt query (i*(8*e) + r) := by
  have length := lengths query (List.mem_of_getElem? place)
  have short : r/8 < e := by omega
  have within : (i+1)*e ≤ D*e := Nat.mul_le_mul_right e inside
  have product : i*(8*e) = 8*(i*e) := by ring
  rw [Nat.succ_mul,← h.bytes,← length] at within
  have here : i*e + r/8 < query.length := by omega
  have part : (queryPart D query i)[r/8]? = some query[i*e + r/8] := by
    rw [evenPart h length inside,List.getElem?_take,if_pos short,List.getElem?_drop,
      List.getElem?_eq_getElem here]
  have sent := flatMapItemAt (fun q => queryPart D q i) e
    (fun q member => evenPartLength h (lengths q member) inside) place short
  rw [part] at sent
  have stride : indexStride (32*(8*e)) = e := by
    unfold indexStride totalRecords recSize
    rw [Nat.shiftRight_eq_div_pow]
    omega
  have address : bitmapAt heap (32*(8*e)) idx + r/8 = heap + 32*(8*e) + (idx*e + r/8) := by
    rw [bitmapAt,indexBase,stride]
    omega
  have byte : (i*(8*e) + r)/8 = i*e + r/8 := by omega
  have low : (i*(8*e) + r) % 8 = r % 8 := by omega
  rw [bitmapBit,address,writtenAt _ _ sent,bitAt,byte,low,List.getD_eq_getElem?_getD,
    List.getElem?_eq_getElem here,Option.getD_some]

theorem xorAllSum (f : Nat → Record) (n : Nat) : xorAll ((List.range n).map f) = ∑ i ∈ range n, f i := by
  induction n with
  | zero => rfl
  | succ n ih =>
    rw [List.range_succ,List.map_append,xorAll,List.foldl_append,← xorAll,ih,sum_range_succ]
    rfl

theorem storeScan (query : List Byte) (long : 3 ≤ N) (enough : 2^(N-3) ≤ query.length) :
    answerPir (HostBatch.store N) query = some (select (2^N) (bitAt query) recordOf) := by
  have size : (HostBatch.store N).length = 2^N := by simp [HostBatch.store]
  have whole := bytesOf long
  rw [answerPirSelect _ _ (by rw [size]; omega) (by rw [size]; omega),size]
  congr 1
  apply selectCongr (fun _ _ => rfl)
  intro i inside
  simp [HostBatch.store,List.getD_eq_getElem?_getD,inside]

theorem evenAfter (h : Even N NUM_DPUS cluster D e) {db : Database}
    (set : setupDatabase NUM_DPUS cluster (2^N) = some db) :
    ∀ words ∈ db.dpuStore, (words.flatMap (toBytes 8)).length ≤ 32*(8*e) := by
  intro words member
  rw [(evenSetup h set).2] at member
  obtain ⟨i,_,rfl⟩ := List.mem_map.mp member
  rw [storeBytesLength]

theorem termSent (h : Even N NUM_DPUS cluster D e) {db : Database}
    (set : setupDatabase NUM_DPUS cluster (2^N) = some db) {heap : Nat} {memories : Memories}
    (loaded : Loaded heap db memories) {queries : List (List Byte)}
    (lengths : ∀ q ∈ queries, q.length = 2^(N-3)) {vectors : List (List Byte)}
    (sent : ∀ i < D, vectors.getD i [] = queries.flatMap (fun q => queryPart D q i))
    {idx : Nat} {query : List Byte} (place : queries[idx]? = some query) {i r : Nat} (inside : i < D)
    (row : r < 8*e) :
    term (copyTo heap (32*(8*e)) vectors memories i) heap (bitmapAt heap (32*(8*e)) idx) r =
      if bitAt query (i*(8*e) + r) then recordOf (i*(8*e) + r) else 0 := by
  have kept := copyKeepsLoaded loaded (evenAfter h set) vectors
  have shard : db.dpuStore[i]? = some ((List.range' (i*(8*e)) (8*e)).flatMap pushRecord) := by
    rw [(evenSetup h set).2,mapRangeAt _ inside]
  have bit := bitmapSent h lengths heap (memories i) place inside row
  rw [← sent i inside] at bit
  rw [term,recordLoaded kept shard row]
  exact if_congr (by rw [copyTo,bit]) rfl rfl

theorem totalOf (e : Nat) : totalRecords (32*(8*e)) = 8*e := by
  unfold totalRecords recSize
  omega

/- One launch on an even deployment, when each DPU answers for the rows in `kept`: the
answers add up to the scan of the records in these rows. -/
theorem launchKept (h : Even N NUM_DPUS cluster D e) {db : Database}
    (set : setupDatabase NUM_DPUS cluster (2^N) = some db) {heap : Nat} {memories : Memories}
    (loaded : Loaded heap db memories) {queries : List (List Byte)}
    (lengths : ∀ q ∈ queries, q.length = 2^(N-3)) {vectors : List (List Byte)}
    (sent : ∀ i < D, vectors.getD i [] = queries.flatMap (fun q => queryPart D q i))
    {idx : Nat} {query : List Byte} (place : queries[idx]? = some query) (kept : Nat → Bool) :
    ∑ i ∈ range D, ∑ r ∈ range (8*e), (if kept r
      then term (copyTo heap (32*(8*e)) vectors memories i) heap (bitmapAt heap (32*(8*e)) idx) r else 0) =
      select (2^N) (fun g => kept (g % (8*e)) && bitAt query g) recordOf := by
  rw [select,h.records,sumRows]
  apply sum_congr rfl
  intro i member
  apply sum_congr rfl
  intro r inShard
  have row := mem_range.mp inShard
  have item : (i*(8*e) + r) % (8*e) = r := by rw [Nat.mul_add_mod_of_lt row]
  rw [termSent h set loaded lengths sent place (mem_range.mp member) row,item]
  cases kept r <;> rfl

theorem launchAnswers (h : Even N NUM_DPUS cluster D e) {db : Database}
    (set : setupDatabase NUM_DPUS cluster (2^N) = some db) {heap : Nat} {memories : Memories}
    (loaded : Loaded heap db memories) {queries : List (List Byte)}
    (lengths : ∀ q ∈ queries, q.length = 2^(N-3)) {vectors : List (List Byte)}
    (sent : ∀ i < D, vectors.getD i [] = queries.flatMap (fun q => queryPart D q i))
    {idx : Nat} {query : List Byte} (place : queries[idx]? = some query) :
    ∑ i ∈ range D, scanSpec (copyTo heap (32*(8*e)) vectors memories i) heap (32*(8*e)) idx =
      select (2^N) (bitAt query) recordOf := by
  have all := launchKept h set loaded lengths sent place (fun _ => true)
  simpa only [if_true,Bool.true_and,scanSpecTerms,totalOf] using all

theorem batchedGetD {D i : Nat} (buf : List (List (List Byte))) (inside : i < D) :
    (batchedInputs D buf).getD i [] = buf.flatMap (fun vectors => vectors.getD i []) := by
  rw [batchedInputs,mapRangeGetD _ _ inside]

theorem splitGetD {D i : Nat} (query : List Byte) (inside : i < D) :
    (splitQuery D query).getD i [] = queryPart D query i := by
  rw [splitQuery,mapRangeGetD _ _ inside]

theorem executionSent (D : Nat) (query : List Byte) : ∀ i < D,
    (executionInputs D query).getD i [] = [query].flatMap (fun q => queryPart D q i) := by
  intro i dpu
  rw [executionInputs,splitGetD query dpu,List.flatMap_singleton]

theorem submitterAt (heap D : Nat) (db : Database) (exec : Exec) {buf : List (List (List Byte))}
    (memories : Memories) {idx : Nat} (launched : idx < buf.length) :
    (dpuSubmitter heap D db exec buf memories).1[idx]? = some (∑ i ∈ range D,
      exec i (submitterMemories heap D db buf memories i) (submitterArguments D db buf) idx) := by
  rw [dpuSubmitter,mapRangeAt _ launched,xorAllSum]

theorem executionAt (heap D : Nat) (db : Database) (exec : Exec) (query : List Byte) (memories : Memories) :
    (executionPim heap D db exec query memories).1 = ∑ i ∈ range D,
      exec i (executionMemories heap D db query memories i) (executionArgs D db query) 0 :=
  xorAllSum _ D

theorem submitterAnswers (h : Even N NUM_DPUS cluster D e) (long : 3 ≤ N) {db : Database}
    (set : setupDatabase NUM_DPUS cluster (2^N) = some db) {heap : Nat} {memories : Memories}
    (loaded : Loaded heap db memories) {queries : List (List Byte)}
    (lengths : ∀ q ∈ queries, q.length = 2^(N-3)) {idx : Nat} {query : List Byte}
    (place : queries[idx]? = some query) :
    ∃ a, answerPir (HostBatch.store N) query = some a ∧
      (dpuSubmitter heap D db (scanExec heap) (queries.map (splitQuery D)) memories).1[idx]? = some a := by
  have length := lengths query (List.mem_of_getElem? place)
  have inside : idx < queries.length := (List.getElem?_eq_some_iff.mp place).1
  have sent : ∀ i < D, (batchedInputs D (queries.map (splitQuery D))).getD i [] =
      queries.flatMap (fun q => queryPart D q i) := by
    intro i dpu
    rw [batchedGetD _ dpu,List.flatMap_map]
    congr 1
    funext q
    exact splitGetD q dpu
  have answers := launchAnswers h set loaded lengths sent place
  rw [← (evenSetup h set).1] at answers
  have launched : idx < (queries.map (splitQuery D)).length := by rwa [List.length_map]
  refine ⟨_,storeScan query long length.ge,?_⟩
  rw [submitterAt heap D db (scanExec heap) memories launched]
  exact congrArg some answers

theorem executionAnswers (h : Even N NUM_DPUS cluster D e) (long : 3 ≤ N) (one : cluster = 1) {db : Database}
    (set : setupDatabase NUM_DPUS cluster (2^N) = some db) {heap : Nat} {memories : Memories}
    (loaded : Loaded heap db memories) {query : List Byte} (length : query.length = 2^(N-3)) :
    ∃ a, answerPir (HostBatch.store N) query = some a ∧
      (executionPim heap NUM_DPUS db (scanExec heap) query memories).1 = a := by
  have all : NUM_DPUS = D := by rw [← h.dpus,one,Nat.div_one]
  have lengths : ∀ q ∈ [query], q.length = 2^(N-3) := by simpa using length
  have first : [query][0]? = some query := rfl
  have answers := launchAnswers h set loaded lengths (executionSent D query) first
  rw [← (evenSetup h set).1] at answers
  refine ⟨_,storeScan query long length.ge,?_⟩
  rw [all,executionAt]
  exact answers

theorem hostMatchesCpuScan (h : Deployment N NUM_DPUS cluster) {db : Database}
    (set : setupDatabase NUM_DPUS cluster (2^N) = some db) {heap : Nat} {memories : Memories}
    (loaded : Loaded heap db memories) :
    (∀ queries : List (List Byte), 1 ≤ queries.length → queries.length ≤ 32 →
      (∀ q ∈ queries, q.length = 2^(N-3)) → ∀ (idx : Nat) (query : List Byte), queries[idx]? = some query →
      ∃ a, answerPir (HostBatch.store N) query = some a ∧
        (dpuSubmitter heap (NUM_DPUS/cluster) db (scanExec heap)
          (queries.map (workerInputs NUM_DPUS cluster)) memories).1[idx]? = some a) ∧
    (cluster = 1 → ∀ query : List Byte, query.length = 2^(N-3) →
      ∃ a, answerPir (HostBatch.store N) query = some a ∧
        (executionPim heap NUM_DPUS db (scanExec heap) query memories).1 = a) := by
  have even := deploymentEven h
  have long : 3 ≤ N := by have := h.large; omega
  refine ⟨?_,?_⟩
  · intro queries _ _ lengths idx query place
    exact submitterAnswers even long set loaded lengths place
  · intro one query length
    exact executionAnswers even long one set loaded length

end

theorem hostMatchesCpuScanTestSetup : ∃ db a, setupDatabase 256 2 (2^20) = some db ∧
    answerPir (HostBatch.store 20) (pointQuery (2^17) 70000) = some a ∧
    (dpuSubmitter 0 128 db (scanExec 0)
      ([pointQuery (2^17) 5,pointQuery (2^17) 1000000,pointQuery (2^17) 70000].map (workerInputs 256 2))
      (loadDatabase 0 db (fun _ _ => 0))).1[2]? = some a := by
  have even : Deployment 20 256 2 := ⟨by decide,by decide,by decide,by decide,by decide⟩
  obtain ⟨db,set⟩ := setupAccepts even.accepted (2^20)
  have lengths : ∀ q ∈ [pointQuery (2^17) 5,pointQuery (2^17) 1000000,pointQuery (2^17) 70000],
      q.length = 2^(20-3) := by
    simp [pointQuery]
  obtain ⟨a,scan,answer⟩ := (hostMatchesCpuScan even set (loadedAfterSetup 0 db (fun _ _ => 0))).1
    [pointQuery (2^17) 5,pointQuery (2^17) 1000000,pointQuery (2^17) 70000] (by decide) (by decide) lengths 2 _ rfl
  exact ⟨db,a,set,scan,answer⟩

theorem scanNothing (m : Mram) (heap b : Nat) : scanSpec m heap 0 b = 0 := rfl

/- One DPU with 2^27 records: 2^32 bytes become a `database_size_bytes` of zero. -/
theorem truncatedSizeAnswersZero : ∃ db a, setupDatabase 1 1 (2^27) = some db ∧
    answerPir (HostBatch.store 27) (pointQuery (2^24) 1) = some a ∧
    ∀ memories, (dpuSubmitter 0 1 db (scanExec 0) [workerInputs 1 1 (pointQuery (2^24) 1)] memories).1[0]? ≠
      some a := by
  obtain ⟨db,set⟩ := setupAccepts (by decide : Accepted 1 1) (2^27)
  have size : db.args.databaseSizeBytes = 0 := by
    unfold setupDatabase at set
    split at set
    · rw [← Option.some.inj set]
      decide
    · contradiction
  have length : (pointQuery (2^24) 1).length = 2^(27-3) := by simp [pointQuery]
  have bits : select (2^27) (bitAt (pointQuery (2^24) 1)) recordOf = recordOf 1 := by
    rw [selectCongr (fun i inside => pointQueryBit (by omega)) (fun _ _ => rfl)]
    exact selectPoint recordOf (by decide)
  refine ⟨db,recordOf 1,set,?_,?_⟩
  · rw [storeScan _ (by decide) length.ge,bits]
  · intro memories same
    rw [submitterAt 0 1 db (scanExec 0) memories (by decide),sum_range_one] at same
    have zero : recordOf 1 = 0 := by
      rw [← Option.some.inj same,scanExec,submitterArguments]
      simp only [size]
      exact scanNothing _ _ _
    exact absurd ((recordOfZero (by decide)).mp zero) (by decide)

end ImPir.HostBatch
