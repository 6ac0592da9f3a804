import ImPir.DpuKernel
import ImPir.Striping
import ImPir.XorSum

/-! The striped scan covers the shard once. Each tasklet collects the stripe of its
blocks for every query of the tile, and the stripes of all tasklets are the XOR of
the records whose index bit is set. -/
namespace ImPir.DpuScan
open Finset LittleEndian Records DpuKernel Striping
open Loops (indicesMember)

def bitmapBit (m : Mram) (address r : Nat) : Bool := (m (address + r/8)).getLsbD (r % 8)

/- Record `r` of a shard: its 32 bytes are four words, low bytes first. -/
def shardWord (m : Mram) (base r w : Nat) : BitVec 64 :=
  BitVec.ofNat 64 (Nat.ofDigits 256 ((List.range 8).map (fun j => (m (base + 32*r + 8*w + j)).toNat)))

def shardRecord (m : Mram) (base r : Nat) : Record :=
  ⟨shardWord m base r 0,shardWord m base r 1,shardWord m base r 2,shardWord m base r 3⟩

/- What the kernel adds for record `r` after `recp` and the bitmap at `address`. -/
def term (m : Mram) (recp address r : Nat) : Record :=
  if bitmapBit m address r then recordAt m (recp + recSize*r) else 0

def bitmapAt (dataBase dbSize b : Nat) : Nat := indexBase dataBase dbSize + b*indexStride dbSize

/- The answer of one DPU to query `b`, as the data layout defines it. -/
def scanSpec (m : Mram) (dataBase dbSize b : Nat) : Record :=
  ∑ r ∈ range (totalRecords dbSize),
    if bitmapBit m (bitmapAt dataBase dbSize b) r then shardRecord m dataBase r else 0

theorem wordLoaded (m : Mram) (base r w : Nat) : wordAt m (base + recSize*r + 8*w) = shardWord m base r w := by
  rw [wordAt,ofBytesDigits,List.map_map]
  rfl

theorem recordLoads (m : Mram) (base r : Nat) : recordAt m (base + recSize*r) = shardRecord m base r := by
  have word := wordLoaded m base r
  rw [shardRecord,← word 0,← word 1,← word 2,← word 3]
  rfl

theorem scanSpecTerms (m : Mram) (dataBase dbSize b : Nat) : scanSpec m dataBase dbSize b =
    ∑ r ∈ range (totalRecords dbSize), term m dataBase (bitmapAt dataBase dbSize b) r := by
  simp only [scanSpec,term,recordLoads]

theorem umaskBit (byte : Byte) (k : Nat) :
    umask byte k = if byte.getLsbD k then BitVec.allOnes 64 else 0 := by
  rw [umask,shiftAndOne]
  cases byte.getLsbD k <;> decide

section
variable (m : Mram) (recCount tileCount : Nat)

theorem recordLoopRecp (idxByte : Nat → Byte) (left k : Nat) (s : Scan) :
    (recordLoop m recCount tileCount idxByte left k s).recp =
      s.recp + recSize*min left (recCount - s.i) ∧
    (recordLoop m recCount tileCount idxByte left k s).idxp = s.idxp := by
  induction left generalizing k s with
  | zero => simp [recordLoop]
  | succ left ih =>
    unfold recordLoop
    split
    · rename_i inside
      have next := ih (k+1) (recordStep m recCount tileCount idxByte k s)
      have more : s.i + 1 ≤ recCount := inside
      simp only [recordStep,if_pos more,recSize] at next ⊢
      exact ⟨by omega,next.2⟩
    · have none : min (left+1) (recCount - s.i) = 0 := by omega
      simp [none]

theorem recordLoopAcc (idxByte : Nat → Byte) {tb : Nat} (inTile : tb < tileCount) (left k : Nat) (s : Scan) :
    (recordLoop m recCount tileCount idxByte left k s).acc tb =
      s.acc tb + ∑ j ∈ range (min left (recCount - s.i)),
        if (idxByte tb).getLsbD (k + j) then recordAt m (s.recp + recSize*j) else 0 := by
  induction left generalizing k s with
  | zero => simp [recordLoop]
  | succ left ih =>
    unfold recordLoop
    split
    · rename_i inside
      have more : s.i + 1 ≤ recCount := inside
      have count : min (left+1) (recCount - s.i) = min left (recCount - (s.i+1)) + 1 := by omega
      have rest : ∀ j, k + 1 + j = k + (j + 1) ∧
          s.recp + recSize + recSize*j = s.recp + recSize*(j + 1) := by
        intro j
        exact ⟨by omega,by unfold recSize; omega⟩
      rw [ih,count,sum_range_succ']
      simp only [recordStep,if_pos more,if_pos inTile,umaskBit,maskedBit,← addIsXor,rest,Nat.add_zero,
        Nat.mul_zero]
      rw [add_assoc,add_comm (if (idxByte tb).getLsbD k then _ else _)]
    · have none : min (left+1) (recCount - s.i) = 0 := by omega
      simp [none]

/- Where the streams stand after `s.i` records of a block that starts at `recp`, with
the bitmap of query `tb` at `bits tb`. -/
structure InBlock (recp : Nat) (bits : Nat → Nat) (acc : Nat → Record) (s : Scan) : Prop where
  bound : s.i ≤ recCount
  record : s.recp = recp + recSize*s.i
  group : s.i < recCount → s.i % 8 = 0 ∧ ∀ tb < tileCount, s.idxp tb = bits tb + s.i/8
  sum : ∀ tb < tileCount, s.acc tb = acc tb + ∑ r ∈ range s.i, term m recp (bits tb) r

variable {m recCount tileCount}

theorem groupKeeps {recp bits acc s} (h : InBlock m recCount tileCount recp bits acc s) (more : s.i < recCount) :
    InBlock m recCount tileCount recp bits acc (groupStep m recCount tileCount s) := by
  obtain ⟨aligned,streams⟩ := h.group more
  have counts : (groupStep m recCount tileCount s).i = s.i + min 8 (recCount - s.i) := by
    have loop := recordLoopCounts m recCount tileCount (fun tb => m (s.idxp tb)) 8 0
      (stepStreams recCount tileCount s)
    rw [groupStep,loop]
    simp only [stepStreams]
    omega
  obtain ⟨recpAfter,idxpAfter⟩ := recordLoopRecp m recCount tileCount (fun tb => m (s.idxp tb)) 8 0
    (stepStreams recCount tileCount s)
  refine ⟨by omega,?_,?_,?_⟩
  · rw [counts,groupStep,recpAfter,Nat.mul_add,← Nat.add_assoc,← h.record]
    rfl
  · intro again
    refine ⟨by omega,?_⟩
    intro tb inTile
    have further : s.i + 8 < recCount := by omega
    have quotient : (groupStep m recCount tileCount s).i/8 = s.i/8 + 1 := by omega
    rw [groupStep] at quotient ⊢
    rw [quotient,idxpAfter]
    simp only [stepStreams,if_pos (And.intro further inTile),streams tb inTile]
    omega
  · intro tb inTile
    rw [counts,sum_range_add,← add_assoc,← h.sum tb inTile,groupStep,
      recordLoopAcc m recCount tileCount _ inTile]
    simp only [stepStreams]
    congr 1
    apply sum_congr rfl
    intro j member
    have small : j < 8 := by have := mem_range.mp member; omega
    have byte : (s.i + j)/8 = s.i/8 := by omega
    have low : (s.i + j) % 8 = 0 + j := by omega
    rw [term,bitmapBit,byte,low,streams tb inTile,h.record,Nat.mul_add,← Nat.add_assoc]

theorem groupLoopKeeps {recp bits acc s} (h : InBlock m recCount tileCount recp bits acc s) :
    InBlock m recCount tileCount recp bits acc (groupLoop m recCount tileCount s) ∧
      (groupLoop m recCount tileCount s).i = recCount := by
  induction s using groupLoop.induct m recCount tileCount with
  | case1 s more ih =>
    rw [groupLoop,if_pos more]
    exact ih (groupKeeps h more)
  | case2 s done =>
    rw [groupLoop,if_neg done]
    have bound := h.bound
    exact ⟨h,by omega⟩

end

section
variable (c : Tasklets) (m : Mram) (dataBase dbSize : Nat)

theorem blockIs : BLOCK = 4096 := rfl

theorem recCntBlock {dbSize q : Nat} (whole : 32 ∣ dbSize) (inside : 4096*q < dbSize) :
    recCnt dbSize (4096*q) = min 128 (totalRecords dbSize - 128*q) ∧ 0 < recCnt dbSize (4096*q) := by
  obtain ⟨total,rfl⟩ := whole
  simp only [recCnt,totalRecords,BLOCK,blockLog2,recSize,Nat.one_shiftLeft]
  split <;> omega

theorem termInBlock (b q j : Nat) :
    term m (dataBase + 4096*q) (bitmapAt dataBase dbSize b + 4096*q/groupSize) j =
      term m dataBase (bitmapAt dataBase dbSize b) (128*q + j) := by
  have record : dataBase + 4096*q + recSize*j = dataBase + recSize*(128*q + j) := by
    unfold recSize; omega
  have byte : bitmapAt dataBase dbSize b + 4096*q/groupSize + j/8 =
      bitmapAt dataBase dbSize b + (128*q + j)/8 := by unfold groupSize recSize; omega
  have low : j % 8 = (128*q + j) % 8 := by omega
  rw [term,term,bitmapBit,bitmapBit,record,byte,low]

theorem blockStarts (recCount tileCount baseB off : Nat) (acc : Nat → Record) :
    InBlock m recCount tileCount (dataBase + off)
      (fun tb => bitmapAt dataBase dbSize (baseB + tb) + off/groupSize) acc
      (blockStart dataBase dbSize baseB off acc) :=
  ⟨Nat.zero_le _,rfl,fun _ => ⟨rfl,fun _ _ => by simp [blockStart,bitmapAt]⟩,fun tb _ => (add_zero (acc tb)).symm⟩

/- From block `q` on, `tid` adds the rest of its stripe to what it holds. -/
theorem blockLoopStripe {baseB tileCount tb off : Nat} {acc : Nat → Record} (whole : 32 ∣ dbSize)
    (inTile : tb < tileCount) {q : Nat} (place : off = 4096*q) :
    blockLoop c m dataBase dbSize baseB tileCount off acc tb =
      acc tb + stripeFrom (totalRecords dbSize) 128 c.nrTasklets
        (term m dataBase (bitmapAt dataBase dbSize (baseB + tb))) q := by
  induction off, acc using blockLoop.induct c m dataBase dbSize baseB tileCount generalizing q with
  | case1 off acc inside none =>
    subst place
    exact absurd none (Nat.ne_of_gt (recCntBlock whole inside).2)
  | case2 off acc inside some ih =>
    subst place
    obtain ⟨kept,ended⟩ := groupLoopKeeps
      (blockStarts m dataBase dbSize (recCnt dbSize (4096*q)) tileCount baseB (4096*q) acc)
    have block := kept.sum tb inTile
    rw [ended] at block
    have count := (recCntBlock whole inside).1
    have next := ih (q := q + c.nrTasklets) (by rw [blockIs,Nat.mul_add])
    rw [blockLoop,if_pos inside,if_neg some,next,block,add_assoc]
    rw [stripeStep _ _ _ _ c.positive (by omega) (by omega) (by omega)
      (show totalRecords dbSize = 128*q + recCnt dbSize (4096*q) +
        (totalRecords dbSize - 128*q - recCnt dbSize (4096*q)) by omega)]
    congr 2
    apply sum_congr rfl
    intro j _
    exact termInBlock m dataBase dbSize (baseB + tb) q j
  | case3 off acc past =>
    subst place
    have done : totalRecords dbSize ≤ 128*q := by
      unfold totalRecords recSize
      omega
    rw [blockLoop,if_neg past,stripeDone _ _ _ _ (by omega) done,add_zero]

theorem tileScanStripe (whole : 32 ∣ dbSize) {numBatches baseB tb : Nat}
    (inTile : tb < tileCnt numBatches baseB) (tid : Nat) (acc : Nat → Record) :
    tileScan c m dataBase dbSize numBatches tid baseB acc tb =
      stripeFrom (totalRecords dbSize) 128 c.nrTasklets
        (term m dataBase (bitmapAt dataBase dbSize (baseB + tb))) tid := by
  have place : tid <<< blockLog2 = 4096*tid := by rw [Nat.shiftLeft_eq,Nat.mul_comm]; rfl
  rw [tileScan,blockLoopStripe c m dataBase dbSize whole inTile place,if_pos inTile,zero_add]

theorem tileSum (whole : 32 ∣ dbSize) {numBatches baseB tb : Nat}
    (inTile : tb < tileCnt numBatches baseB) (acc : Nat → Nat → Record) :
    ∑ tid ∈ range c.nrTasklets, tileScan c m dataBase dbSize numBatches tid baseB (acc tid) tb =
      scanSpec m dataBase dbSize (baseB + tb) := by
  have stripes := fun tid (_ : tid ∈ range c.nrTasklets) =>
    tileScanStripe c m dataBase dbSize whole inTile tid (acc tid)
  rw [sum_congr rfl stripes,stripesCover _ _ _ _ c.positive,scanSpecTerms]

theorem scanSpecReads {m m' : Mram} {b : Nat}
    (records : ∀ a, dataBase ≤ a → a < dataBase + dbSize → m' a = m a)
    (bits : ∀ a, bitmapAt dataBase dbSize b ≤ a →
      a < bitmapAt dataBase dbSize b + indexStride dbSize → m' a = m a) :
    scanSpec m' dataBase dbSize b = scanSpec m dataBase dbSize b := by
  rw [scanSpecTerms,scanSpecTerms]
  apply sum_congr rfl
  intro r member
  have inside : r < dbSize/32 := mem_range.mp member
  have byte : r/8 < indexStride dbSize := by
    unfold indexStride totalRecords recSize
    rw [Nat.shiftRight_eq_div_pow]
    omega
  have word : ∀ k < 4, wordAt m' (dataBase + recSize*r + 8*k) = wordAt m (dataBase + recSize*r + 8*k) := by
    intro k four
    unfold wordAt recSize
    congr 1
    apply List.map_congr_left
    intro j eight
    have small := List.mem_range.mp eight
    exact records _ (by omega) (by omega)
  have record : recordAt m' (dataBase + recSize*r) = recordAt m (dataBase + recSize*r) := by
    have w0 := word 0 (by omega)
    have w1 := word 1 (by omega)
    have w2 := word 2 (by omega)
    have w3 := word 3 (by omega)
    simp only [Nat.mul_zero,Nat.add_zero,Nat.mul_one] at w0 w1
    rw [recordAt,recordAt,w0,w1,w2,w3]
  rw [term,term,bitmapBit,bitmapBit,bits _ (by omega) (by omega),record]

end

theorem tileOfBatch {numBatches b : Nat} (inside : b < numBatches) :
    ∃! tile : Nat × Nat, tile.1 ∈ tileBases numBatches ∧ tile.2 < tileCnt numBatches tile.1 ∧
      b = tile.1 + tile.2 := by
  have tileCntIs : ∀ baseB, tileCnt numBatches baseB = min 4 (numBatches - baseB) := by
    intro baseB
    unfold tileCnt bTile
    split <;> omega
  refine ⟨(4*(b/4),b%4),⟨?_,?_,?_⟩,?_⟩
  · exact (indicesMember (by decide)).mpr ⟨by omega,Nat.mul_mod_right _ _⟩
  · rw [tileCntIs]
    omega
  · omega
  · rintro ⟨baseB,tb⟩ ⟨member,inTile,split⟩
    have aligned : baseB % 4 = 0 := ((indicesMember (by decide)).mp member).2
    rw [tileCntIs] at inTile
    simp only at split inTile
    exact Prod.ext (by simp only; omega) (by simp only; omega)

theorem stripedScanCoversShard (c : Tasklets) (m : Mram) (dataBase : Nat) {dbSize : Nat}
    (whole : 32 ∣ dbSize) (requested : Nat) (stale : Nat → Nat → Record) {b : Nat}
    (inside : b < clampBatches requested) :
    (∃! tile : Nat × Nat, tile.1 ∈ tileBases (clampBatches requested) ∧
      tile.2 < tileCnt (clampBatches requested) tile.1 ∧ b = tile.1 + tile.2) ∧
    ∀ before baseB after tb, tileBases (clampBatches requested) = before ++ baseB :: after →
      tb < tileCnt (clampBatches requested) baseB → b = baseB + tb →
      (∑ tid ∈ range c.nrTasklets, scanTiles c m dataBase dbSize (clampBatches requested) tid
        (before ++ [baseB]) (stale tid) tb) = scanSpec m dataBase dbSize b ∧
      ∀ m', (∀ a, dataBase ≤ a → a < dataBase + dbSize → m' a = m a) →
        (∀ a, bitmapAt dataBase dbSize b ≤ a →
          a < bitmapAt dataBase dbSize b + indexStride dbSize → m' a = m a) →
        (∑ tid ∈ range c.nrTasklets, scanTiles c m' dataBase dbSize (clampBatches requested) tid
          (before ++ [baseB]) (stale tid) tb) = scanSpec m dataBase dbSize b := by
  refine ⟨tileOfBatch inside,?_⟩
  intro before baseB after tb _ inTile same
  subst same
  have scanned : ∀ mem : Mram, (∑ tid ∈ range c.nrTasklets,
      scanTiles c mem dataBase dbSize (clampBatches requested) tid (before ++ [baseB]) (stale tid) tb) =
        scanSpec mem dataBase dbSize (baseB + tb) := by
    intro mem
    simp only [scanTiles,List.foldl_append,List.foldl_cons,List.foldl_nil]
    exact tileSum c mem dataBase dbSize whole inTile _
  refine ⟨scanned m,?_⟩
  intro m' records bits
  rw [scanned m',scanSpecReads dataBase dbSize records bits]

theorem stripedScanCoversShardTwelve :
    (∑ tid ∈ range 12, scanTiles ⟨12,by decide⟩ (fun a => BitVec.ofNat 8 a) 0 8352 (clampBatches 6) tid [0,4]
      (fun _ => 0) 1) = scanSpec (fun a => BitVec.ofNat 8 a) 0 8352 5 := by
  have covered := stripedScanCoversShard ⟨12,by decide⟩ (fun a => BitVec.ofNat 8 a) 0
    (by decide : 32 ∣ 8352) 6 (fun _ _ => 0) (by decide : 5 < clampBatches 6)
  exact (covered.2 [0] 4 [] 1 (by decide) (by decide) rfl).1

end ImPir.DpuScan
