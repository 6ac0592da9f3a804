import ImPir.AesBatch
import ImPir.Dpf

/-! The class `PRNG` and `Gen` on top of it: `Gen` draws the two root seeds from the
test generator, whose seed is the constant `TestBlock`. -/
namespace ImPir.Prng
open LittleEndian Blocks AesContext AesBatch

structure PRNG where
  mBuffer : List Block
  mAes : AES
  mBytesIdx : Nat
  mBlockIdx : Nat
  mBufferByteCapacity : Nat
  deriving DecidableEq, Repr

section
variable (aes : OpenSsl)

def refillBuffer (p : PRNG) : Except String Unit × PRNG :=
  if p.mBuffer.length = 0 then (.error "PRNG has not been keyed ",p)
  else match encryptCTR aes p.mAes p.mBlockIdx p.mBuffer.length p.mBuffer with
    | .error e => (.error e,p)
    | .ok buffer =>
        (.ok (),{ p with mBuffer := buffer, mBlockIdx := SizeT.add p.mBlockIdx buffer.length, mBytesIdx := 0 })

def SetSeed (o : Answers) (seed : Block) (bufferSize : Nat) (p : PRNG) : Except String Unit × PRNG :=
  match setKey o seed p.mAes with
  | (.error e,a) => (.error e,{ p with mAes := a })
  | (.ok _,a) =>
      let p := { p with mAes := a, mBlockIdx := 0 }
      if p.mBuffer.length = 0 then
        refillBuffer aes { p with
          mBuffer := List.replicate bufferSize ZeroBlock
          mBufferByteCapacity := SizeT.mul 16 bufferSize }
      else refillBuffer aes p

/- `PRNG(seed, bufferSize)`: the member `mAes` is default-constructed first. -/
def construct (o o' : Answers) (seed : Block) (bufferSize : Nat) : Except String PRNG :=
  match defaultAes o with
  | (.error e,_) => .error e
  | (.ok _,a) =>
      match SetSeed aes o' seed bufferSize ⟨[],a,0,0,0⟩ with
      | (.error e,_) => .error e
      | (.ok _,p) => .ok p

def defaultConstruct (o : Answers) : Except String PRNG :=
  match defaultAes o with
  | (.error e,_) => .error e
  | (.ok _,a) => .ok ⟨[],a,0,0,0⟩

/- `PRNG(PRNG && s)`: the new object and what becomes of `s`. When `AES{}` throws there is no
new object, and `s` has already lost its buffer and its contexts. -/
def moveConstruct (o : Answers) (s : PRNG) : Except String PRNG × PRNG :=
  match defaultAes o with
  | (.error e,_) => (.error e,{ s with mBuffer := [], mAes := released s.mAes })
  | (.ok _,a) => (.ok s,⟨[],a,0,0,0⟩)

def getSeed (p : PRNG) : Except String Block :=
  if p.mBuffer.length ≠ 0 then .ok p.mAes.key else .error "PRNG has not been keyed "

def bufferBytes (p : PRNG) : List Byte := p.mBuffer.flatMap (toBytes 16)

/- How much of a read of `length` bytes the buffer serves at once. -/
def getStep (length : Nat) (p : PRNG) : Nat := min length (SizeT.sub p.mBufferByteCapacity p.mBytesIdx)

def advance (step : Nat) (p : PRNG) : PRNG := { p with mBytesIdx := SizeT.add p.mBytesIdx step }

/- One round of the loop of `get`: copy out, then refill at the end of the buffer. -/
def getRound (length : Nat) (p : PRNG) : Except String (List Byte) × PRNG :=
  let step := getStep length p
  let copied := ((bufferBytes p).drop p.mBytesIdx).take step
  let p := advance step p
  if p.mBytesIdx = p.mBufferByteCapacity then
    match refillBuffer aes p with
    | (.error e,p) => (.error e,p)
    | (.ok _,p) => (.ok copied,p)
  else (.ok copied,p)

def getLoop : Nat → Nat → PRNG → Option (Except String (List Byte) × PRNG)
  | 0, length, p => if length = 0 then some (.ok [],p) else none
  | rounds+1, length, p =>
      if length = 0 then some (.ok [],p)
      else match getRound aes length p with
        | (.error e,next) => some (.error e,next)
        | (.ok copied,next) =>
            match getLoop rounds (length - getStep length p) next with
            | some (.ok bytes,last) => some (.ok (copied ++ bytes),last)
            | stopped => stopped

def get (length : Nat) (p : PRNG) : Option (Except String (List Byte) × PRNG) := getLoop aes (length+1) length p

def getTestPRNG : Except String PRNG := construct aes .success .success TestBlock 256

def blockRead : Option (Except String (List Byte) × PRNG) → Option (Block × PRNG)
  | some (.ok bytes,p) => some (ofBytes 128 bytes,p)
  | _ => none

def getBlock (p : PRNG) : Option (Block × PRNG) := blockRead (get aes 16 p)

def gen (alpha logn : Nat) : Option (List Byte × List Byte) := do
  let p ← (getTestPRNG aes).toOption
  let s0 ← getBlock aes p
  let s1 ← getBlock aes s0.2
  Dpf.genFrom (fixedKeys aes.cipher) s0.1 s1.1 alpha logn

def unseeded (o : Answers) : PRNG := ⟨[],(defaultAes o).2,0,0,0⟩

theorem defaultMakes {o : Answers} {p : PRNG} (made : defaultConstruct o = .ok p) : p = unseeded o := by
  unfold defaultConstruct at made
  unfold unseeded
  split at made
  · contradiction
  · rename_i set
    rw [set]
    exact (Except.ok.inj made).symm

theorem constructMakes {o o' : Answers} {seed : Block} {bufferSize : Nat} {p : PRNG}
    (made : construct aes o o' seed bufferSize = .ok p) :
    SetSeed aes o' seed bufferSize (unseeded o) = (.ok (),p) := by
  unfold construct at made
  unfold unseeded
  split at made
  · contradiction
  · rename_i set
    split at made
    · contradiction
    · rename_i ran
      rw [set]
      cases Except.ok.inj made
      exact ran

theorem moveMakes {o : Answers} {p q s : PRNG} (made : moveConstruct o p = (.ok q,s)) : q = p ∧ s = unseeded o := by
  unfold moveConstruct at made
  unfold unseeded
  split at made
  · simp at made
  · rename_i set
    rw [set]
    cases made
    exact ⟨rfl,rfl⟩

theorem loopDone (rounds : Nat) (p : PRNG) : getLoop aes rounds 0 p = some (.ok [],p) := by
  cases rounds <;> rw [getLoop,if_pos rfl]

theorem getInside (length : Nat) {p : PRNG} (wanted : 0 < length)
    (room : p.mBytesIdx + length < p.mBufferByteCapacity) (small : p.mBufferByteCapacity < 2^64) :
    get aes length p = some (.ok (((bufferBytes p).drop p.mBytesIdx).take length),advance length p) := by
  have whole : getStep length p = length := by
    rw [getStep,SizeT.subExact (by omega)]
    omega
  have more : (advance length p).mBytesIdx ≠ (advance length p).mBufferByteCapacity := by
    simp only [advance]
    rw [SizeT.addExact (by omega)]
    omega
  have round : getRound aes length p =
      (.ok (((bufferBytes p).drop p.mBytesIdx).take length),advance length p) := by
    unfold getRound
    rw [whole,if_neg more]
  rw [get,getLoop,if_neg (by omega),round,whole,Nat.sub_self]
  simp only [loopDone,List.append_nil]

def seeded (seed : Block) (bufferSize : Nat) : PRNG :=
  { mBuffer := (counters 0 bufferSize).map (aes seed)
    mAes := ⟨some (some seed),some (some seed),true,seed⟩
    mBytesIdx := 0
    mBlockIdx := bufferSize
    mBufferByteCapacity := 16*bufferSize }

theorem countersLength (first size : Nat) : (counters first size).length = size := by simp [counters]

theorem refillKeyed {seed : Block} {p : PRNG} (keyed : Keyed p.mAes seed) (nonempty : 0 < p.mBuffer.length)
    (fits : p.mBuffer.length < 2^27) : refillBuffer aes p =
      (.ok (),{ p with
        mBuffer := (counters p.mBlockIdx p.mBuffer.length).map (aes seed)
        mBlockIdx := SizeT.add p.mBlockIdx p.mBuffer.length
        mBytesIdx := 0 }) := by
  have filled := @batchExact aes p.mAes seed keyed _ p.mBuffer _ fits (countersLength p.mBlockIdx p.mBuffer.length) rfl
  unfold refillBuffer
  rw [if_neg (by omega)]
  simp only [encryptCTR,keyed.ready,Bool.true_eq_false,if_false,filled,List.length_map,countersLength]

theorem seedEmpty (seed : Block) {bufferSize : Nat} {p : PRNG} (empty : p.mBuffer = []) (positive : 1 ≤ bufferSize)
    (fits : bufferSize < 2^27) : SetSeed aes .success seed bufferSize p = (.ok (),seeded aes seed bufferSize) := by
  have zeros : (List.replicate bufferSize ZeroBlock).length = bufferSize := List.length_replicate
  have capacity := SizeT.mulExact (by omega : 16*bufferSize < 2^64)
  have next := SizeT.addExact (by omega : 0 + bufferSize < 2^64)
  have keyed : Keyed ⟨some (some seed),some (some seed),true,seed⟩ seed := ⟨rfl,rfl⟩
  unfold SetSeed
  simp only [setKeySuccess,empty,List.length_nil,if_true]
  rw [@refillKeyed aes seed _ keyed (by rw [zeros]; exact positive) (by rw [zeros]; exact fits)]
  simp only [zeros,capacity,next,Nat.zero_add,seeded]

theorem constructSeeded (seed : Block) {bufferSize : Nat} (positive : 1 ≤ bufferSize) (fits : bufferSize < 2^27) :
    construct aes .success .success seed bufferSize = .ok (seeded aes seed bufferSize) := by
  have ran := @seedEmpty aes seed bufferSize ⟨[],(defaultAes .success).2,0,0,0⟩ rfl positive fits
  unfold construct
  rw [defaultAes,setKeySuccess]
  rw [defaultAes,setKeySuccess] at ran
  simp only [ran]

theorem seededBytes {seed : Block} {bufferSize i : Nat} (inside : i < bufferSize) (small : i < 2^64) :
    ((bufferBytes (seeded aes seed bufferSize)).drop (16*i)).take 16 =
      toBytes 16 (aes seed (BitVec.ofNat 128 i)) := by
  have item : (seeded aes seed bufferSize).mBuffer[i]? = some (aes seed (BitVec.ofNat 128 i)) := by
    simp [seeded,counters,inside,SizeT.addExact (show 0 + i < 2^64 by omega)]
  obtain ⟨before,after,split,place⟩ :=
    flatMapRecordAt (toBytes 16) 16 (fun b _ => toBytesLength b) item
  have start : 16*i = before.length := by rw [place,Nat.mul_comm]
  rw [bufferBytes,split,start,List.append_assoc,List.drop_left' rfl,List.take_left' (toBytesLength _)]

theorem getBlockSeeded (seed : Block) (bufferSize i : Nat) {p : PRNG} (room : 16*(i+1) < 16*bufferSize)
    (small : bufferSize < 2^27) (buffer : bufferBytes p = bufferBytes (seeded aes seed bufferSize))
    (place : p.mBytesIdx = 16*i) (capacity : p.mBufferByteCapacity = 16*bufferSize) :
    getBlock aes p = some (aes seed (BitVec.ofNat 128 i),advance 16 p) := by
  have bytes := getInside aes 16 (by omega) (by omega : p.mBytesIdx + 16 < p.mBufferByteCapacity) (by omega)
  rw [buffer,place,seededBytes aes (by omega) (by omega)] at bytes
  have back : ofBytes 128 (toBytes 16 (aes seed (BitVec.ofNat 128 i))) = _ :=
    ofBytesToBytes (n := 16) (aes seed (BitVec.ofNat 128 i))
  rw [getBlock,bytes,blockRead,back]

theorem bindFound {α β : Type} {x : Option α} {a : α} (found : x = some a) (f : α → Option β) :
    (x >>= f) = f a := by
  rw [found]
  rfl

/- The two root seeds that `Gen` draws, in every run. -/
theorem genDraws (alpha logn : Nat) :
    gen aes alpha logn =
      Dpf.genFrom (fixedKeys aes.cipher) (aes TestBlock 0) (aes TestBlock 1) alpha logn := by
  have fresh : (getTestPRNG aes).toOption = some (seeded aes TestBlock 256) :=
    congrArg Except.toOption (constructSeeded aes TestBlock (by omega) (by omega))
  have first := getBlockSeeded aes TestBlock 256 0 (p := seeded aes TestBlock 256) (by omega) (by omega)
    rfl rfl rfl
  have second := getBlockSeeded aes TestBlock 256 1 (p := advance 16 (seeded aes TestBlock 256)) (by omega)
    (by omega) rfl (SizeT.addExact (by simp [seeded])) rfl
  unfold gen
  exact (bindFound fresh _).trans ((bindFound first _).trans (bindFound second _))

end
end ImPir.Prng
