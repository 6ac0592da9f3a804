import ImPir.LittleEndian
import ImPir.Loops
import ImPir.Records

/-! The scan of `dpu_task.c`: what one tasklet computes for one tile of queries. A
stream pointer is the MRAM address it stands at. Addresses are far below 2^32, so
they are plain naturals. -/
namespace ImPir.DpuKernel
open LittleEndian Loops Records

def blockLog2 : Nat := 12
def BLOCK : Nat := 1 <<< blockLog2
def recSize : Nat := 32
def groupSize : Nat := 8*recSize
def maxBatch : Nat := 32
def bTile : Nat := 4

structure Tasklets where
  nrTasklets : Nat
  positive : 0 < nrTasklets

structure DpuArgs where
  databaseSizeBytes : Nat
  inputIndexingSizeBytes : Nat
  numBatches : Nat
  deriving DecidableEq, Repr

abbrev Mram := Nat → Byte

def wordAt (m : Mram) (address : Nat) : BitVec 64 :=
  ofBytes 64 ((List.range 8).map (fun j => m (address + j)))

def recordAt (m : Mram) (address : Nat) : Record :=
  ⟨wordAt m address,wordAt m (address + 8),wordAt m (address + 16),wordAt m (address + 24)⟩

def clampBatches (numBatches : Nat) : Nat :=
  let numBatches := if numBatches = 0 then 1 else numBatches
  if maxBatch < numBatches then maxBatch else numBatches

def tileCnt (numBatches baseB : Nat) : Nat :=
  if baseB + bTile ≤ numBatches then bTile else numBatches - baseB

def totalRecords (dbSize : Nat) : Nat := dbSize / recSize
def indexStride (dbSize : Nat) : Nat := (totalRecords dbSize + 7) >>> 3

/- `0U - (uint64_t)((idx_byte >> k) & 1U)`. -/
def umask (idxByte : Byte) (k : Nat) : BitVec 64 := 0#64 - (((idxByte >>> k) &&& 1#8).setWidth 64)

structure Scan where
  i : Nat
  recp : Nat
  idxp : Nat → Nat
  acc : Nat → Record

section
variable (m : Mram) (recCount tileCount : Nat)

def recordStep (idxByte : Nat → Byte) (k : Nat) (s : Scan) : Scan :=
  { i := s.i + 1
    recp := if s.i + 1 ≤ recCount then s.recp + recSize else s.recp
    idxp := s.idxp
    acc := fun tb =>
      if tb < tileCount then (s.acc tb).xor ((recordAt m s.recp).masked (umask (idxByte tb) k))
      else s.acc tb }

/- `for (k = 0; k < 8 && i < rec_cnt; ++k, ++i)`; `left` is `8 - k`. -/
def recordLoop (idxByte : Nat → Byte) : (left k : Nat) → Scan → Scan
  | 0, _, s => s
  | left+1, k, s =>
      if s.i < recCount then recordLoop idxByte left (k+1) (recordStep m recCount tileCount idxByte k s)
      else s

theorem recordLoopCounts (idxByte : Nat → Byte) (left k : Nat) (s : Scan) :
    (recordLoop m recCount tileCount idxByte left k s).i = max s.i (min (s.i + left) recCount) := by
  induction left generalizing k s with
  | zero =>
    rw [recordLoop]
    omega
  | succ left ih =>
    unfold recordLoop
    split
    · rw [ih]
      simp only [recordStep]
      omega
    · omega

def stepStreams (s : Scan) : Scan :=
  { s with idxp := fun tb => if s.i + 8 < recCount ∧ tb < tileCount then s.idxp tb + 1 else s.idxp tb }

/- One round of `while (i < rec_cnt)`: fetch the index bytes, step the bitmap
streams when more records remain, and take up to eight records. -/
def groupStep (s : Scan) : Scan :=
  recordLoop m recCount tileCount (fun tb => m (s.idxp tb)) 8 0 (stepStreams recCount tileCount s)

def groupLoop (s : Scan) : Scan :=
  if s.i < recCount then groupLoop (groupStep m recCount tileCount s) else s
termination_by recCount - s.i
decreasing_by
  have next : (groupStep m recCount tileCount s).i = max s.i (min (s.i + 8) recCount) :=
    recordLoopCounts m recCount tileCount _ 8 0 (stepStreams recCount tileCount s)
  omega

end

section
variable (c : Tasklets) (m : Mram) (dataBase dbSize : Nat)

def indexBase : Nat := dataBase + dbSize

def blockStart (baseB off : Nat) (acc : Nat → Record) : Scan :=
  { i := 0
    recp := dataBase + off
    idxp := fun tb => indexBase dataBase dbSize + (baseB + tb)*indexStride dbSize + off/groupSize
    acc := acc }

def recCnt (off : Nat) : Nat :=
  let bytes := if off + BLOCK ≤ dbSize then BLOCK else dbSize - off
  bytes / recSize

def blockLoop (baseB tileCount off : Nat) (acc : Nat → Record) : Nat → Record :=
  if off < dbSize then
    if recCnt dbSize off = 0 then acc
    else blockLoop baseB tileCount (off + BLOCK*c.nrTasklets)
      (groupLoop m (recCnt dbSize off) tileCount (blockStart dataBase dbSize baseB off acc)).acc
  else acc
termination_by dbSize - off
decreasing_by
  have positive := c.positive
  have stride : 0 < BLOCK*c.nrTasklets := Nat.mul_pos (by decide) positive
  omega

/- What tasklet `tid` holds in its accumulators after its scan for one tile; the
slots past the tile keep what they held. -/
def tileScan (numBatches tid baseB : Nat) (acc : Nat → Record) : Nat → Record :=
  let tileCount := tileCnt numBatches baseB
  blockLoop c m dataBase dbSize baseB tileCount (tid <<< blockLog2)
    (fun tb => if tb < tileCount then 0 else acc tb)

def tileBases (numBatches : Nat) : List Nat := indices 0 numBatches bTile

def scanTiles (numBatches tid : Nat) (bases : List Nat) (acc : Nat → Record) : Nat → Record :=
  bases.foldl (fun acc baseB => tileScan c m dataBase dbSize numBatches tid baseB acc) acc

end
end ImPir.DpuKernel
