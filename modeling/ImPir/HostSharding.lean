import ImPir.DpuKernel
import ImPir.SizeT

/-! The host side of `pim_bench.cpp`: how `setup_database` shards the records, how
the two query paths split a query over the DPUs, and one launch of each path. The
SDK's `copy` writes vector `i` to DPU `i` at a byte offset of the heap; what the DPUs
compute is a parameter. -/
namespace ImPir.HostSharding
open LittleEndian Records DpuKernel

structure Database where
  dataPerDpu : Nat
  args : DpuArgs
  dpuStore : List (List (BitVec 64))

def storedIndices (numElements dataPerDpu i : Nat) : List Nat :=
  let start := SizeT.mul i dataPerDpu
  let stop := min (SizeT.add start dataPerDpu) numElements
  List.range' start (stop - start)

def pushRecord (j : Nat) : List (BitVec 64) :=
  [BitVec.ofNat 64 j,BitVec.ofNat 64 j,BitVec.ofNat 64 j,BitVec.ofNat 64 j]

def Accepted (NUM_DPUS cluster : Nat) : Prop := 0 < cluster ∧ cluster ≤ NUM_DPUS ∧ NUM_DPUS % cluster = 0
instance (NUM_DPUS cluster) : Decidable (Accepted NUM_DPUS cluster) := by unfold Accepted; infer_instance

def setupDatabase (NUM_DPUS cluster numElements : Nat) : Option Database :=
  if Accepted NUM_DPUS cluster then
    let dpusPerCluster := NUM_DPUS/cluster
    let dataPerDpu := SizeT.ceilDiv numElements dpusPerCluster
    some {
      dataPerDpu := dataPerDpu
      args := {
        databaseSizeBytes := SizeT.toUInt32 (SizeT.mul dataPerDpu 32)
        inputIndexingSizeBytes := 0
        numBatches := 1 }
      dpuStore := (List.range dpusPerCluster).map
        (fun i => (storedIndices numElements dataPerDpu i).flatMap pushRecord) }
  else none

/- Part `i` of a query split over `num_dpus` DPUs; the last part ends with the query. -/
def queryPart (numDpus : Nat) (query : List Byte) (i : Nat) : List Byte :=
  let elems := SizeT.ceilDiv query.length numDpus
  let start := min (SizeT.mul i elems) query.length
  let stop := if i + 1 = numDpus then query.length else min (SizeT.mul (i+1) elems) query.length
  (query.drop start).take (stop - start)

def splitQuery (numDpus : Nat) (query : List Byte) : List (List Byte) :=
  (List.range numDpus).map (queryPart numDpus query)

/- `execution_pim` splits over all DPUs, `cpu_worker` over those of one cluster. -/
def executionInputs (NUM_DPUS : Nat) (aaaa : List Byte) : List (List Byte) := splitQuery NUM_DPUS aaaa
def workerInputs (NUM_DPUS clusters : Nat) (query : List Byte) : List (List Byte) :=
  splitQuery (NUM_DPUS/clusters) query

abbrev Memories := Nat → Mram

def writeMram (m : Mram) (address : Nat) (bytes : List Byte) : Mram :=
  fun a => if address ≤ a ∧ a < address + bytes.length then bytes.getD (a - address) 0 else m a

def copyTo (heap offset : Nat) (vectors : List (List Byte)) (memories : Memories) : Memories :=
  fun i => writeMram (memories i) (heap + offset) (vectors.getD i [])

def loadDatabase (heap : Nat) (db : Database) (memories : Memories) : Memories :=
  copyTo heap 0 (db.dpuStore.map (fun words => words.flatMap (toBytes 8))) memories

/- What the program on DPU `i` leaves in its `out`. -/
abbrev Exec := Nat → Mram → DpuArgs → Nat → Record

def xorAll (partials : List Record) : Record := partials.foldl Record.xor 0

def executionArgs (NUM_DPUS : Nat) (db : Database) (aaaa : List Byte) : DpuArgs :=
  { db.args with inputIndexingSizeBytes := SizeT.toUInt32 (SizeT.ceilDiv aaaa.length NUM_DPUS) }

def executionMemories (heap NUM_DPUS : Nat) (db : Database) (aaaa : List Byte) (memories : Memories) : Memories :=
  copyTo heap db.args.databaseSizeBytes (executionInputs NUM_DPUS aaaa) memories

def executionPim (heap NUM_DPUS : Nat) (db : Database) (exec : Exec) (aaaa : List Byte) (memories : Memories) :
    Record × Memories :=
  (xorAll ((List.range NUM_DPUS).map (fun i =>
      exec i (executionMemories heap NUM_DPUS db aaaa memories i) (executionArgs NUM_DPUS db aaaa) 0)),
    executionMemories heap NUM_DPUS db aaaa memories)

def batchedInputs (numDpus : Nat) (buf : List (List (List Byte))) : List (List Byte) :=
  (List.range numDpus).map (fun dpuId => buf.flatMap (fun dpuInputVectors => dpuInputVectors.getD dpuId []))

def submitterArguments (numDpus : Nat) (db : Database) (buf : List (List (List Byte))) : DpuArgs :=
  { databaseSizeBytes := db.args.databaseSizeBytes
    inputIndexingSizeBytes := SizeT.toUInt32 (((batchedInputs numDpus buf).getD 0 []).length / buf.length)
    numBatches := SizeT.toUInt32 buf.length }

def submitterMemories (heap numDpus : Nat) (db : Database) (buf : List (List (List Byte)))
    (memories : Memories) : Memories :=
  copyTo heap db.args.databaseSizeBytes (batchedInputs numDpus buf) memories

/- One round of `dpu_submitter` with the queries in `buf`: the answers in `agg`. -/
def dpuSubmitter (heap numDpus : Nat) (db : Database) (exec : Exec) (buf : List (List (List Byte)))
    (memories : Memories) : List Record × Memories :=
  ((List.range buf.length).map (fun idx => xorAll ((List.range numDpus).map (fun dpuId =>
      exec dpuId (submitterMemories heap numDpus db buf memories dpuId)
        (submitterArguments numDpus db buf) idx))),
    submitterMemories heap numDpus db buf memories)

end ImPir.HostSharding
