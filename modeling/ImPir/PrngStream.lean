import ImPir.AesBatch
import ImPir.KeyStream
import ImPir.Prng

/-! A `PRNG` over its life: the bytes it has returned since its last seed are a prefix of
one stream, whatever the buffer size and the lengths of the reads. The buffer is a window
of that stream; a refill moves it on, a re-seed takes it back to the start. -/
namespace ImPir.PrngStream
open LittleEndian Blocks AesContext AesBatch KeyStream Prng

section
variable (aes : OpenSsl)

/- `AES_seed(0) || AES_seed(1) || ..`, byte by byte; the counter has 64 bits. -/
def streamByte (seed : Block) (n : Nat) : Byte :=
  (toBytes 16 (aes seed (BitVec.ofNat 128 (n/16 % 2^64)))).getD (n%16) 0

/- The invariant of a seeded object: the buffer holds the blocks from `first` on, the next
refill goes on behind them, and `position` bytes of the stream have been returned. -/
structure Streams (seed : Block) (position : Nat) (p : PRNG) : Prop where
  keyed : Keyed p.mAes seed
  key : p.mAes.key = seed
  nonempty : 0 < p.mBuffer.length
  fits : p.mBuffer.length < 2^27
  capacity : p.mBufferByteCapacity = 16*p.mBuffer.length
  inside : p.mBytesIdx < p.mBufferByteCapacity
  window : ∃ first, p.mBuffer = (counters first p.mBuffer.length).map (aes seed) ∧
    p.mBlockIdx = SizeT.add first p.mBuffer.length ∧ position = 16*first + p.mBytesIdx

structure Idle (p : PRNG) : Prop where
  buffer : p.mBuffer = []
  capacity : p.mBufferByteCapacity = 0
  index : p.mBytesIdx = 0

variable {aes}

theorem countersWrap (first skip size : Nat) : counters (SizeT.add first skip) size = counters (first + skip) size := by
  unfold counters SizeT.add
  apply List.map_congr_left
  intro i _
  congr 1
  omega

theorem blockStream (seed : Block) (n : Nat) :
    toBytes 16 (aes seed (BitVec.ofNat 128 (n % 2^64))) = stretch (streamByte aes seed) (16*n) 16 := by
  apply List.ext_getElem?
  intro k
  rcases Nat.lt_or_ge k 16 with inside | outside
  · have block : (16*n + k)/16 = n := by omega
    have byte : (16*n + k)%16 = k := by omega
    rw [stretch,List.getElem?_map,List.getElem?_range inside,Option.map_some,streamByte,block,byte,
      List.getD_eq_getElem?_getD,toBytesAt _ inside]
    rfl
  · rw [List.getElem?_eq_none (by simpa using outside),List.getElem?_eq_none (by simpa using outside)]

theorem windowStream (seed : Block) (first size : Nat) :
    ((counters first size).map (aes seed)).flatMap (toBytes 16) =
      stretch (streamByte aes seed) (16*first) (16*size) := by
  have part (j : Nat) (r : Block) (found : ((counters first size).map (aes seed))[j]? = some r) :
      toBytes 16 r = stretch (streamByte aes seed) (16*(first + j)) 16 := by
    rw [counters,List.map_map,List.getElem?_map,Option.map_eq_some_iff] at found
    obtain ⟨i,place,rfl⟩ := found
    obtain ⟨-,rfl⟩ := List.getElem?_eq_some_iff.mp place
    rw [List.getElem_range]
    exact blockStream seed (first + j)
  rw [stretchRecords (streamByte aes seed) (toBytes 16) 16 first part,List.length_map,countersLength]

theorem refillStreams {seed : Block} {first : Nat} {p : PRNG} (keyed : Keyed p.mAes seed) (key : p.mAes.key = seed)
    (nonempty : 0 < p.mBuffer.length) (fits : p.mBuffer.length < 2^27)
    (capacity : p.mBufferByteCapacity = 16*p.mBuffer.length)
    (start : counters p.mBlockIdx p.mBuffer.length = counters first p.mBuffer.length)
    (next : SizeT.add p.mBlockIdx p.mBuffer.length = SizeT.add first p.mBuffer.length) :
    ∃ q, refillBuffer aes p = (.ok (),q) ∧ Streams aes seed (16*first) q := by
  refine ⟨_,refillKeyed aes keyed nonempty fits,?_⟩
  have length : ((counters p.mBlockIdx p.mBuffer.length).map (aes seed)).length = p.mBuffer.length := by
    rw [List.length_map,countersLength]
  refine ⟨keyed,key,?_,?_,?_,?_,first,?_,?_,rfl⟩
  · rw [length]; exact nonempty
  · rw [length]; exact fits
  · rw [length]; exact capacity
  · exact (by omega : 0 < p.mBufferByteCapacity)
  · rw [length,start]
  · rw [length]; exact next

theorem Streams.bytes {seed : Block} {position : Nat} {p : PRNG} (streams : Streams aes seed position p) :
    ∃ first, position = 16*first + p.mBytesIdx ∧
      bufferBytes p = stretch (streamByte aes seed) (16*first) p.mBufferByteCapacity := by
  obtain ⟨first,buffer,-,place⟩ := streams.window
  refine ⟨first,place,?_⟩
  rw [bufferBytes,buffer,windowStream,streams.capacity]

theorem Streams.step {seed : Block} {position : Nat} {p : PRNG} (streams : Streams aes seed position p) (length : Nat) :
    getStep length p = min length (p.mBufferByteCapacity - p.mBytesIdx) := by
  rw [getStep,SizeT.subExact (Nat.le_of_lt streams.inside)]

theorem Streams.index {seed : Block} {position step : Nat} {p : PRNG} (streams : Streams aes seed position p)
    (room : p.mBytesIdx + step ≤ p.mBufferByteCapacity) : (advance step p).mBytesIdx = p.mBytesIdx + step := by
  have capacity := streams.capacity
  have fits := streams.fits
  exact SizeT.addExact (by omega)

theorem Streams.advances {seed : Block} {position step : Nat} {p : PRNG} (streams : Streams aes seed position p)
    (short : p.mBytesIdx + step < p.mBufferByteCapacity) : Streams aes seed (position + step) (advance step p) := by
  have index := streams.index (Nat.le_of_lt short)
  obtain ⟨first,buffer,next,place⟩ := streams.window
  refine ⟨streams.keyed,streams.key,streams.nonempty,streams.fits,streams.capacity,?_,first,buffer,next,?_⟩
  · rw [index]
    exact short
  · rw [index,place,Nat.add_assoc]

theorem Streams.refills {seed : Block} {position step : Nat} {p : PRNG} (streams : Streams aes seed position p)
    (whole : p.mBytesIdx + step = p.mBufferByteCapacity) :
    ∃ q, refillBuffer aes (advance step p) = (.ok (),q) ∧ Streams aes seed (position + step) q := by
  have capacity := streams.capacity
  obtain ⟨first,-,next,place⟩ := streams.window
  have start : counters (advance step p).mBlockIdx (advance step p).mBuffer.length =
      counters (first + p.mBuffer.length) (advance step p).mBuffer.length := by
    simp only [advance,next]
    exact countersWrap first p.mBuffer.length p.mBuffer.length
  have after : SizeT.add (advance step p).mBlockIdx (advance step p).mBuffer.length =
      SizeT.add (first + p.mBuffer.length) (advance step p).mBuffer.length := by
    simp only [advance,next,SizeT.add]
    omega
  have moved : position + step = 16*(first + p.mBuffer.length) := by omega
  rw [moved]
  exact refillStreams streams.keyed streams.key streams.nonempty streams.fits capacity start after

theorem roundStreams {seed : Block} {position length : Nat} {p : PRNG} (streams : Streams aes seed position p) :
    ∃ q, getRound aes length p = (.ok (stretch (streamByte aes seed) position (getStep length p)),q) ∧
      Streams aes seed (position + getStep length p) q := by
  have step := streams.step length
  have inside := streams.inside
  have room : p.mBytesIdx + getStep length p ≤ p.mBufferByteCapacity := by omega
  have index := streams.index room
  obtain ⟨first,place,bytes⟩ := streams.bytes
  have copied : ((bufferBytes p).drop p.mBytesIdx).take (getStep length p) =
      stretch (streamByte aes seed) position (getStep length p) := by
    rw [bytes,stretchPart _ room,place]
  unfold getRound
  simp only [copied]
  by_cases full : p.mBytesIdx + getStep length p = p.mBufferByteCapacity
  · have boundary : (advance (getStep length p) p).mBytesIdx = (advance (getStep length p) p).mBufferByteCapacity :=
      index.trans full
    obtain ⟨q,filled,again⟩ := streams.refills full
    rw [if_pos boundary,filled]
    exact ⟨q,rfl,again⟩
  · have before : (advance (getStep length p) p).mBytesIdx ≠ (advance (getStep length p) p).mBufferByteCapacity :=
      fun same => full (index.symm.trans same)
    rw [if_neg before]
    exact ⟨_,rfl,streams.advances (by omega)⟩

theorem loopStreams {seed : Block} {position : Nat} {p : PRNG} (rounds length : Nat) (enough : length ≤ rounds)
    (streams : Streams aes seed position p) :
    ∃ q, getLoop aes rounds length p = some (.ok (stretch (streamByte aes seed) position length),q) ∧
      Streams aes seed (position + length) q := by
  induction rounds generalizing length position p with
  | zero =>
    have none : length = 0 := by omega
    subst none
    exact ⟨p,rfl,streams⟩
  | succ rounds ih =>
    rcases Nat.eq_zero_or_pos length with rfl | wanted
    · exact ⟨p,by rw [getLoop,if_pos rfl]; rfl,streams⟩
    · have inside := streams.inside
      have step := streams.step length
      obtain ⟨q,round,next⟩ := @roundStreams aes seed position length p streams
      obtain ⟨last,rest,done⟩ := ih (length - getStep length p) (by omega) next
      have total : getStep length p + (length - getStep length p) = length := by omega
      rw [getLoop,if_neg (by omega),round]
      simp only [rest,stretchAppend,total]
      rw [Nat.add_assoc,total] at done
      exact ⟨last,rfl,done⟩

theorem getStreams {seed : Block} {position : Nat} {p : PRNG} (length : Nat) (streams : Streams aes seed position p) :
    ∃ q, get aes length p = some (.ok (stretch (streamByte aes seed) position length),q) ∧
      Streams aes seed (position + length) q :=
  loopStreams (length + 1) length (by omega) streams

/- A seed given to an object that has its buffer: the size asked for does not matter. -/
theorem reseedStreams {seed : Block} {p : PRNG} (bufferSize : Nat) (nonempty : 0 < p.mBuffer.length)
    (fits : p.mBuffer.length < 2^27) (capacity : p.mBufferByteCapacity = 16*p.mBuffer.length) :
    ∃ q, SetSeed aes .success seed bufferSize p = (.ok (),q) ∧ Streams aes seed 0 q := by
  unfold SetSeed
  simp only [setKeySuccess]
  rw [if_neg (by omega)]
  exact @refillStreams aes seed 0 { p with mAes := ⟨some (some seed),some (some seed),true,seed⟩, mBlockIdx := 0 }
    ⟨rfl,rfl⟩ rfl nonempty fits capacity rfl rfl

theorem seededStreams (seed : Block) {bufferSize : Nat} (positive : 1 ≤ bufferSize) (fits : bufferSize < 2^27) :
    Streams aes seed 0 (seeded aes seed bufferSize) := by
  have length : (seeded aes seed bufferSize).mBuffer.length = bufferSize := by
    simp only [seeded,List.length_map,countersLength]
  refine ⟨⟨rfl,rfl⟩,rfl,?_,?_,?_,?_,0,?_,?_,rfl⟩
  · rw [length]; exact positive
  · rw [length]; exact fits
  · rw [length]; rfl
  · exact (by omega : 0 < 16*bufferSize)
  · rw [length]; rfl
  · rw [length,SizeT.addExact (by omega),Nat.zero_add]; rfl

theorem seedStreams {seed : Block} {bufferSize : Nat} {p : PRNG} (idle : Idle p) (positive : 1 ≤ bufferSize)
    (fits : bufferSize < 2^27) :
    ∃ q, SetSeed aes .success seed bufferSize p = (.ok (),q) ∧ Streams aes seed 0 q :=
  ⟨_,seedEmpty aes seed idle.buffer positive fits,seededStreams seed positive fits⟩

theorem Streams.getSeed {seed : Block} {position : Nat} {p : PRNG} (streams : Streams aes seed position p) :
    Prng.getSeed p = .ok seed := by
  have nonempty := streams.nonempty
  rw [Prng.getSeed,if_pos (by omega),streams.key]

theorem getIdle {length : Nat} {p : PRNG} (idle : Idle p) (wanted : 0 < length) :
    ∃ q, get aes length p = some (.error "PRNG has not been keyed ",q) ∧ Idle q := by
  have step : getStep length p = 0 := by
    rw [getStep,idle.capacity,idle.index]
    exact Nat.min_zero length
  have index : SizeT.add p.mBytesIdx 0 = 0 := by rw [idle.index]; rfl
  have round : getRound aes length p = (.error "PRNG has not been keyed ",advance 0 p) := by
    unfold getRound refillBuffer
    simp only [step,advance,index,idle.capacity,idle.buffer,List.length_nil,if_true]
  refine ⟨advance 0 p,?_,idle.buffer,idle.capacity,index⟩
  rw [Prng.get,getLoop,if_neg (by omega),round]

end

structure Life where
  seed : Block
  returned : List Byte
  deriving DecidableEq, Repr

def Life.read (bytes : List Byte) (l : Life) : Life := { l with returned := l.returned ++ bytes }

structure Tracked where
  prng : PRNG
  since : Option Life
  deriving DecidableEq, Repr

inductive Op
  | defaultConstruct
  | construct (seed : Block) (bufferSize : Nat)
  | SetSeed (object : Nat) (seed : Block) (bufferSize : Nat)
  | get (object length : Nat)
  | moveConstruct (object : Nat)
  deriving DecidableEq, Repr

section
variable (aes : OpenSsl)

/- No value when the operation throws or does not return; a `get` may throw and leaves
the history as it was. An operation on an object that does not exist is none. -/
def step (world : List Tracked) : Op → Option (List Tracked)
  | .defaultConstruct =>
      match defaultConstruct .success with
      | .ok p => some (world ++ [⟨p,none⟩])
      | .error _ => none
  | .construct seed bufferSize =>
      match construct aes .success .success seed bufferSize with
      | .ok p => some (world ++ [⟨p,some ⟨seed,[]⟩⟩])
      | .error _ => none
  | .SetSeed object seed bufferSize =>
      match world[object]? with
      | none => some world
      | some t => match SetSeed aes .success seed bufferSize t.prng with
          | (.ok _,p) => some (world.set object ⟨p,some ⟨seed,[]⟩⟩)
          | (.error _,_) => none
  | .get object length =>
      match world[object]? with
      | none => some world
      | some t => match get aes length t.prng with
          | some (.ok bytes,p) => some (world.set object ⟨p,t.since.map (Life.read bytes)⟩)
          | some (.error _,p) => some (world.set object ⟨p,t.since⟩)
          | none => none
  | .moveConstruct object =>
      match world[object]? with
      | none => some world
      | some t => match moveConstruct .success t.prng with
          | (.ok p,s) => some (world.set object ⟨s,none⟩ ++ [⟨p,t.since⟩])
          | (.error _,_) => none

def run (world : List Tracked) : List Op → Option (List Tracked)
  | [] => some world
  | op::ops => step aes world op >>= fun next => run next ops

def Sized (world : List Tracked) : Op → Prop
  | .construct _ bufferSize => 1 ≤ bufferSize ∧ bufferSize < 2^27
  | .SetSeed object _ bufferSize => ∀ t, world[object]? = some t → t.since = none → 1 ≤ bufferSize ∧ bufferSize < 2^27
  | _ => True

def SizedRun (world : List Tracked) : List Op → Prop
  | [] => True
  | op::ops => Sized world op ∧ ∀ next, step aes world op = some next → SizedRun next ops

def Served (t : Tracked) : Prop :=
  match t.since with
  | some life => life.returned = stretch (streamByte aes life.seed) 0 life.returned.length ∧
      getSeed t.prng = .ok life.seed ∧
      ∀ length, ∃ p, get aes length t.prng =
        some (.ok (stretch (streamByte aes life.seed) life.returned.length length),p)
  | none => ∀ length, 0 < length → ∃ e p, get aes length t.prng = some (.error e,p)

def Tracked.seen (t : Tracked) : Option (Block × Nat) := t.since.map (fun life => (life.seed,life.returned.length))

/- What the operations alone say of that: the last seed, and the sum of the gets behind it. -/
def told (objects : List (Option (Block × Nat))) : Op → List (Option (Block × Nat))
  | .defaultConstruct => objects ++ [none]
  | .construct seed _ => objects ++ [some (seed,0)]
  | .SetSeed object seed _ => objects.set object (some (seed,0))
  | .get object length => objects.set object ((objects.getD object none).map (fun life => (life.1,life.2 + length)))
  | .moveConstruct object =>
      match objects[object]? with
      | none => objects
      | some life => objects.set object none ++ [life]

def Good (t : Tracked) : Prop :=
  match t.since with
  | some life => life.returned = stretch (streamByte aes life.seed) 0 life.returned.length ∧
      Streams aes life.seed life.returned.length t.prng
  | none => Idle t.prng

variable {aes}

theorem Good.served {t : Tracked} (good : Good aes t) : Served aes t := by
  unfold Good at good
  unfold Served
  cases since : t.since with
  | none =>
    rw [since] at good
    intro length wanted
    obtain ⟨p,threw,-⟩ := getIdle good wanted
    exact ⟨_,p,threw⟩
  | some life =>
    rw [since] at good
    obtain ⟨returned,streams⟩ := good
    refine ⟨returned,streams.getSeed,?_⟩
    intro length
    obtain ⟨p,read,-⟩ := getStreams length streams
    exact ⟨p,read⟩

theorem freshGood {seed : Block} {p : PRNG} (streams : Streams aes seed 0 p) : Good aes ⟨p,some ⟨seed,[]⟩⟩ :=
  ⟨rfl,streams⟩

theorem setGood {world : List Tracked} {t : Tracked} (object : Nat) (good : ∀ t ∈ world, Good aes t)
    (new : Good aes t) : ∀ u ∈ world.set object t, Good aes u := by
  intro u mem
  rcases List.mem_or_eq_of_mem_set mem with old | rfl
  · exact good u old
  · exact new

theorem addGood {world : List Tracked} {t : Tracked} (good : ∀ t ∈ world, Good aes t) (new : Good aes t) :
    ∀ u ∈ world ++ [t], Good aes u := by
  intro u mem
  rcases List.mem_append.mp mem with old | last
  · exact good u old
  · rw [List.mem_singleton.mp last]
    exact new

theorem Good.seeds {t : Tracked} (good : Good aes t) (seed : Block) {bufferSize : Nat}
    (sized : t.since = none → 1 ≤ bufferSize ∧ bufferSize < 2^27) :
    ∃ q, SetSeed aes .success seed bufferSize t.prng = (.ok (),q) ∧ Streams aes seed 0 q := by
  unfold Good at good
  cases since : t.since with
  | none =>
    rw [since] at good
    obtain ⟨positive,fits⟩ := sized since
    exact seedStreams good positive fits
  | some life =>
    rw [since] at good
    obtain ⟨-,streams⟩ := good
    exact reseedStreams bufferSize streams.nonempty streams.fits streams.capacity

theorem Good.reads {t : Tracked} (good : Good aes t) (length : Nat) :
    (∃ bytes q, get aes length t.prng = some (.ok bytes,q) ∧ Good aes ⟨q,t.since.map (Life.read bytes)⟩ ∧
      (t.since ≠ none → bytes.length = length)) ∨
    ∃ e q, get aes length t.prng = some (.error e,q) ∧ Good aes ⟨q,t.since⟩ ∧ t.since = none := by
  unfold Good at good
  cases since : t.since with
  | none =>
    rw [since] at good
    rcases Nat.eq_zero_or_pos length with rfl | wanted
    · exact Or.inl ⟨[],t.prng,loopDone aes 1 t.prng,good,fun _ => rfl⟩
    · obtain ⟨q,threw,idle⟩ := getIdle good wanted
      exact Or.inr ⟨_,q,threw,idle,rfl⟩
  | some life =>
    rw [since] at good
    obtain ⟨returned,streams⟩ := good
    obtain ⟨q,read,next⟩ := getStreams length streams
    refine Or.inl ⟨_,q,read,⟨?_,?_⟩,fun _ => stretchLength _ _ _⟩
    · have joined := stretchAppend (streamByte aes life.seed) 0 life.returned.length length
      rw [Nat.zero_add,← returned] at joined
      simp only [Life.read,stretchLength,joined]
    · simp only [Life.read,List.length_append,stretchLength]
      exact next

theorem toldNothing {objects : List (Option (Block × Nat))} {object : Nat} (missing : objects[object]? = none) (op : Op)
    (on : op = .moveConstruct object ∨ (∃ length, op = .get object length) ∨
      ∃ seed bufferSize, op = .SetSeed object seed bufferSize) : told objects op = objects := by
  have outside := List.getElem?_eq_none_iff.mp missing
  rcases on with rfl | ⟨length,rfl⟩ | ⟨seed,bufferSize,rfl⟩
  · rw [told,missing]
  · exact List.set_eq_of_length_le outside
  · exact List.set_eq_of_length_le outside

theorem seenAt (world : List Tracked) (object : Nat) :
    (world.map Tracked.seen)[object]? = world[object]?.map Tracked.seen := List.getElem?_map ..

theorem stepGood {world : List Tracked} {op : Op} (good : ∀ t ∈ world, Good aes t) (sized : Sized world op) :
    ∃ next, step aes world op = some next ∧ (∀ t ∈ next, Good aes t) ∧
      next.map Tracked.seen = told (world.map Tracked.seen) op := by
  have missing {object : Nat} (absent : world[object]? = none) : (world.map Tracked.seen)[object]? = none := by
    rw [seenAt,absent]
    rfl
  cases op with
  | defaultConstruct => exact ⟨_,rfl,addGood good ⟨rfl,rfl,rfl⟩,List.map_append⟩
  | construct seed bufferSize =>
    obtain ⟨positive,fits⟩ := sized
    have made := constructSeeded aes seed positive fits
    exact ⟨_,by rw [step,made],addGood good (freshGood (seededStreams seed positive fits)),List.map_append⟩
  | SetSeed object seed bufferSize =>
    cases found : world[object]? with
    | none => exact ⟨world,by simp only [step,found],good,(toldNothing (missing found) _ (.inr (.inr ⟨_,_,rfl⟩))).symm⟩
    | some t =>
      obtain ⟨q,seeded,streams⟩ := (good t (List.mem_of_getElem? found)).seeds seed (sized t found)
      exact ⟨_,by simp only [step,found,seeded],setGood object good (freshGood streams),List.map_set ..⟩
  | get object length =>
    cases found : world[object]? with
    | none => exact ⟨world,by simp only [step,found],good,(toldNothing (missing found) _ (.inr (.inl ⟨_,rfl⟩))).symm⟩
    | some t =>
      have here : (world.map Tracked.seen).getD object none = t.seen := by
        rw [List.getD_eq_getElem?_getD,seenAt,found]
        rfl
      rcases (good t (List.mem_of_getElem? found)).reads length with ⟨bytes,q,read,next,count⟩ | ⟨e,q,threw,next,unseeded⟩
      · refine ⟨_,by simp only [step,found,read],setGood object good next,?_⟩
        rw [List.map_set,told,here]
        congr 1
        cases since : t.since with
        | none => simp [Tracked.seen,since]
        | some life => simp [Tracked.seen,since,Life.read,count (by rw [since]; exact Option.some_ne_none _)]
      · refine ⟨_,by simp only [step,found,threw],setGood object good next,?_⟩
        rw [List.map_set,told,here]
        congr 1
        simp [Tracked.seen,unseeded]
  | moveConstruct object =>
    cases found : world[object]? with
    | none => exact ⟨world,by simp only [step,found],good,(toldNothing (missing found) _ (.inl rfl)).symm⟩
    | some t =>
      have moved : Good aes ⟨t.prng,t.since⟩ := good t (List.mem_of_getElem? found)
      have left : Good aes ⟨⟨[],(defaultAes .success).2,0,0,0⟩,none⟩ := ⟨rfl,rfl,rfl⟩
      refine ⟨_,by simp only [step,found]; rfl,addGood (setGood object good left) moved,?_⟩
      rw [List.map_append,List.map_set,told,seenAt,found]
      rfl

theorem runGood {world : List Tracked} (ops : List Op) (good : ∀ t ∈ world, Good aes t)
    (sized : SizedRun aes world ops) : ∃ last, run aes world ops = some last ∧ (∀ t ∈ last, Good aes t) ∧
      last.map Tracked.seen = ops.foldl told (world.map Tracked.seen) := by
  induction ops generalizing world with
  | nil => exact ⟨world,rfl,good,rfl⟩
  | cons op ops ih =>
    obtain ⟨next,stepped,kept,seen⟩ := stepGood good sized.1
    obtain ⟨last,rest,all,ends⟩ := ih kept (sized.2 next stepped)
    exact ⟨last,by rw [run,stepped]; exact rest,all,by rw [ends,seen,List.foldl_cons]⟩

end

theorem oneStream (aes : OpenSsl) (ops : List Op) (sized : SizedRun aes [] ops) :
    ∃ world, run aes [] ops = some world ∧ (∀ t ∈ world, Served aes t) ∧
      world.map Tracked.seen = ops.foldl told [] := by
  obtain ⟨world,ran,good,seen⟩ := runGood ops (fun _ none => absurd none List.not_mem_nil) sized
  exact ⟨world,ran,fun t mem => (good t mem).served,seen⟩

def chunkedOps : List Op :=
  [.construct TestBlock 2,.get 0 40,.SetSeed 0 ZeroBlock 256,.get 0 5,.moveConstruct 0,.get 1 32,.get 0 3]

theorem oneStreamChunked :
    ∃ world, run (ecb Aes128.encrypt) [] chunkedOps = some world ∧ (∀ t ∈ world, Served (ecb Aes128.encrypt) t) ∧
      world.map Tracked.seen = [none,some (ZeroBlock,37)] := by
  apply oneStream
  refine ⟨⟨by decide,by decide⟩,fun _ _ => ⟨trivial,fun _ _ => ⟨fun _ _ _ => ⟨by decide,by decide⟩,fun _ _ => ?_⟩⟩⟩
  exact ⟨trivial,fun _ _ => ⟨trivial,fun _ _ => ⟨trivial,fun _ _ => ⟨trivial,fun _ _ => trivial⟩⟩⟩⟩

end ImPir.PrngStream
