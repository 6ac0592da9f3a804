import ImPir.PrngCalls

/-! A `SetSeed` that throws because OpenSSL fails while the key is being set. By then the
key is overwritten and the contexts are gone, but what is left of the old buffer is not
touched; how much is left decides whether anybody can tell. -/
namespace ImPir.PrngFailure
open LittleEndian Blocks AesContext AesBatch KeyStream Prng PrngStream PrngCalls

section
variable (aes : OpenSsl)

def outputs : PRNG → List Call → List Output
  | _, [] => []
  | p, c::calls => (call aes p c).1 :: outputs (call aes p c).2 calls

def after : PRNG → List Call → PRNG
  | p, [] => p
  | p, c::calls => after (call aes p c).2 calls

/- No later calls tell the two objects apart. -/
def Unchanged (p q : PRNG) : Prop := ∀ calls, outputs aes q calls = outputs aes p calls

/- No read gives a byte until a `SetSeed` succeeds. -/
def Silent (q : PRNG) : Prop := ∀ calls length, 0 < length → Output.done (.ok ()) ∉ outputs aes q calls →
  ∃ e last, get aes length (after aes q calls) = some (.error e,last)

variable {aes}

theorem fullRound {p q : PRNG} {length : Nat} {result : Except String Unit} (sound : Sound p)
    (all : p.mBufferByteCapacity - p.mBytesIdx ≤ length)
    (refill : refillBuffer aes (advance (p.mBufferByteCapacity - p.mBytesIdx) p) = (result,q)) :
    getStep length p = p.mBufferByteCapacity - p.mBytesIdx ∧ getRound aes length p =
      (result.map (fun _ => ((bufferBytes p).drop p.mBytesIdx).take (p.mBufferByteCapacity - p.mBytesIdx)),q) := by
  have inside := sound.inside
  have step : getStep length p = p.mBufferByteCapacity - p.mBytesIdx := by
    rw [sound.step length,Nat.min_eq_right all]
  have index := (@Sound.advances p sound (p.mBufferByteCapacity - p.mBytesIdx) (by omega)).1
  refine ⟨step,?_⟩
  unfold getRound
  simp only [step]
  rw [if_pos (by rw [index]; exact Nat.add_sub_cancel' inside),refill]
  cases result with
  | error e => rfl
  | ok u => rfl

theorem drainDead {e : String} {p : PRNG} {length : Nat} (sound : Sound p) (dead : Dead aes e p) (wanted : 0 < length)
    (all : p.mBufferByteCapacity - p.mBytesIdx ≤ length) :
    get aes length p = some (.error e,advance (p.mBufferByteCapacity - p.mBytesIdx) p) := by
  have round := (fullRound sound all (dead.moves _).refills).2
  rw [Prng.get,getLoop,if_neg (by omega),round]
  rfl

theorem drainReady {p : PRNG} (sound : Sound p) (ready : p.mAes.initialized = true) (nonempty : 0 < p.mBuffer.length)
    (unread : 0 < p.mBufferByteCapacity - p.mBytesIdx) :
    ∃ result q, get aes (p.mBufferByteCapacity - p.mBytesIdx) p = some (result,q) ∧
      result ≠ .error "AES context not initialized" := by
  have keyed : Keyed (advance (p.mBufferByteCapacity - p.mBytesIdx) p).mAes p.mAes.key := sound.keyed ready
  rcases @refillOutcome aes (advance (p.mBufferByteCapacity - p.mBytesIdx) p) keyed nonempty with ⟨out,filled,-⟩ | dead
  · obtain ⟨q,filled⟩ : ∃ q, refillBuffer aes (advance (p.mBufferByteCapacity - p.mBytesIdx) p) = (.ok (),q) :=
      ⟨_,filled⟩
    obtain ⟨step,round⟩ := fullRound sound (Nat.le_refl _) filled
    refine ⟨.ok (((bufferBytes p).drop p.mBytesIdx).take (p.mBufferByteCapacity - p.mBytesIdx)),q,?_,by simp⟩
    rw [Prng.get,getLoop,if_neg (by omega),round]
    simp only [Except.map,step,Nat.sub_self,loopDone,List.append_nil]
  · exact ⟨_,_,@drainDead aes _ p _ sound (fun i => dead i) unread (Nat.le_refl _),by decide⟩

section
variable (aes : OpenSsl)

def Alike (p q : PRNG) : Prop :=
  ∃ a e, q = { p with mAes := a } ∧ Sound p ∧ Sound q ∧ Dead aes e p ∧ Dead aes e q ∧ getSeed q = getSeed p

structure Muted (q : PRNG) : Prop where
  sound : Sound q
  nonempty : 0 < q.mBuffer.length
  unread : q.mBufferByteCapacity - q.mBytesIdx ≤ 1
  dead : ∃ e, Dead aes e q

end

theorem alikeGet {p q : PRNG} (alike : Alike aes p q) (length : Nat) :
    ∃ result next next', get aes length p = some (result,next) ∧ get aes length q = some (result,next') ∧
      Alike aes next next' := by
  obtain ⟨a,e,rfl,sound,other,dead,dead',seed⟩ := alike
  have fits := sound.fits
  have capacity := sound.capacity
  have inside := sound.inside
  have moved {step : Nat} (room : p.mBytesIdx + step ≤ p.mBufferByteCapacity) :
      Alike aes (advance step p) (advance step { p with mAes := a }) :=
    ⟨a,e,rfl,(sound.advances room).2,(other.advances room).2,dead.moves step,dead'.moves step,seed⟩
  rcases Nat.eq_zero_or_pos length with rfl | wanted
  · exact ⟨.ok [],p,_,loopDone aes 1 p,loopDone aes 1 _,a,e,rfl,sound,other,dead,dead',seed⟩
  · rcases Nat.lt_or_ge length (p.mBufferByteCapacity - p.mBytesIdx) with within | all
    · exact ⟨_,_,_,getInside aes length wanted (by omega) (by omega),
        @getInside aes length { p with mAes := a } wanted (by simp only; omega) (by simp only; omega),moved (by omega)⟩
    · exact ⟨_,_,_,drainDead sound dead wanted all,drainDead other dead' wanted all,moved (by omega)⟩

theorem alikeCall {p q : PRNG} (alike : Alike aes p q) (c : Call) : (call aes q c).1 = (call aes p c).1 ∧
    ((call aes q c).2 = (call aes p c).2 ∨ Alike aes (call aes p c).2 (call aes q c).2) := by
  cases c with
  | get length =>
    obtain ⟨result,next,next',left,right,again⟩ := alikeGet alike length
    refine ⟨?_,Or.inr ?_⟩
    · simp only [call,left,right]
    · simp only [call,left,right]
      exact again
  | getSeed =>
    refine ⟨?_,Or.inr alike⟩
    obtain ⟨a,e,rfl,sound,other,dead,dead',seed⟩ := alike
    simp only [call,seed]
  | SetSeed o seed bufferSize =>
    obtain ⟨a,e,rfl,-⟩ := alike
    exact ⟨rfl,Or.inl rfl⟩

theorem alikeUnchanged {p q : PRNG} (alike : Alike aes p q) : Unchanged aes p q := by
  intro calls
  induction calls generalizing p q with
  | nil => rfl
  | cons c calls ih =>
    obtain ⟨output,same | next⟩ := alikeCall alike c
    · rw [outputs,outputs,output,same]
    · rw [outputs,outputs,output,ih next]

theorem callNothing (p : PRNG) : call aes p (.get 0) = (.bytes (some (.ok [])),p) := by
  have none : get aes 0 p = some (.ok [],p) := loopDone aes 1 p
  simp only [call,none]

theorem mutedGet {q : PRNG} (muted : Muted aes q) {length : Nat} (wanted : 0 < length) :
    ∃ e last, get aes length q = some (.error e,last) ∧ last.mBuffer = q.mBuffer ∧ Muted aes last := by
  obtain ⟨sound,nonempty,unread,e,dead⟩ := muted
  have inside := sound.inside
  obtain ⟨index,again⟩ := @Sound.advances q sound (q.mBufferByteCapacity - q.mBytesIdx) (by omega)
  refine ⟨e,_,drainDead sound dead wanted (by omega),rfl,again,nonempty,?_,e,dead.moves _⟩
  rw [index]
  exact (by omega : q.mBufferByteCapacity - (q.mBytesIdx + (q.mBufferByteCapacity - q.mBytesIdx)) ≤ 1)

theorem mutedCall {q : PRNG} (muted : Muted aes q) (c : Call) (open' : (call aes q c).1 ≠ .done (.ok ())) :
    Muted aes (call aes q c).2 := by
  cases c with
  | get length =>
    rcases Nat.eq_zero_or_pos length with rfl | wanted
    · rw [callNothing]
      exact muted
    · obtain ⟨e,last,threw,-,again⟩ := mutedGet muted wanted
      simp only [call,threw]
      exact again
  | getSeed => exact muted
  | SetSeed o seed bufferSize =>
    have nonempty := muted.nonempty
    have sound : Sound (SetSeedSized aes o seed bufferSize q).2 := callSound muted.sound (.SetSeed o seed bufferSize)
    by_cases success : o = .success
    · subst success
      have keyed : Keyed (⟨some (some seed),some (some seed),true,seed⟩ : AES) seed := ⟨rfl,rfl⟩
      have run : SetSeedSized aes .success seed bufferSize q =
          refillBuffer aes { q with mAes := ⟨some (some seed),some (some seed),true,seed⟩, mBlockIdx := 0 } := by
        unfold SetSeedSized SetSeed
        simp only [setKeySuccess]
        rw [if_neg (by omega),if_neg (by omega)]
      rcases @refillOutcome aes { q with mAes := ⟨some (some seed),some (some seed),true,seed⟩, mBlockIdx := 0 }
        keyed nonempty with ⟨out,filled,-⟩ | dead
      · rw [filled] at run
        exact absurd (by rw [call,run]) open'
      · rw [dead.refills] at run
        rw [run] at sound
        simp only [call,run]
        exact ⟨sound,nonempty,muted.unread,_,dead⟩
    · obtain ⟨e,a,threw,off,-⟩ := @failedSetSeed aes o success seed bufferSize q
      rw [threw] at sound
      simp only [call,threw]
      exact ⟨sound,nonempty,muted.unread,_,deadUninitialized nonempty off⟩

theorem mutedSilent {q : PRNG} (muted : Muted aes q) : Silent aes q := by
  intro calls length wanted unseeded
  induction calls generalizing q with
  | nil =>
    obtain ⟨e,last,threw,-⟩ := mutedGet muted wanted
    exact ⟨e,last,threw⟩
  | cons c calls ih =>
    rw [outputs,List.mem_cons,not_or] at unseeded
    exact ih (mutedCall muted c (fun same => unseeded.1 same.symm)) unseeded.2

section
variable (aes : OpenSsl)

/- What decides over a failed `SetSeed`, before it is called. -/
def Harmless (p : PRNG) (seed : Block) : Prop :=
  p.mBufferByteCapacity - p.mBytesIdx ≤ 1 ∨ p.mAes.initialized = false ∧ p.mAes.key = seed

/- A call of a program in which OpenSSL fails only where it is harmless, and no buffer is
larger than one call of OpenSSL can fill. -/
def Careful (p : PRNG) : Call → Prop
  | .SetSeed o seed bufferSize => bufferSize < 2^27 ∧ (o ≠ .success → Harmless p seed)
  | _ => True

inductive CarefullyReached : PRNG → Prop
  | default {o p} (made : defaultConstruct o = .ok p) : CarefullyReached p
  | construct {o o' seed bufferSize p} (sized : bufferSize < 2^27)
      (made : construct aes o o' seed bufferSize = .ok p) : CarefullyReached p
  | call {p} (before : CarefullyReached p) {c : Call} (careful : Careful p c) : CarefullyReached (call aes p c).2
  | movedTo {o p q s} (before : CarefullyReached p) (made : moveConstruct o p = (.ok q,s)) : CarefullyReached q
  | movedFrom {o p q s} (before : CarefullyReached p) (made : moveConstruct o p = (.ok q,s)) : CarefullyReached s

def Kept (p : PRNG) : Prop :=
  Idle p ∨ (Muted aes p ∧ p.mBuffer.length < 2^27) ∨ ∃ seed position, Streams aes seed position p

end

theorem harmlessConsistent {p : PRNG} (sound : Sound p) {o : Answers} (failed : o ≠ .success) {seed : Block}
    (bufferSize : Nat) (harmless : Harmless p seed) :
    Unchanged aes p (SetSeedSized aes o seed bufferSize p).2 ∨ Silent aes (SetSeedSized aes o seed bufferSize p).2 := by
  have kept : Sound (SetSeedSized aes o seed bufferSize p).2 := callSound sound (.SetSeed o seed bufferSize)
  obtain ⟨e,a,threw,off,key⟩ := @failedSetSeed aes o failed seed bufferSize p
  rw [threw] at kept
  rw [threw]
  rcases Nat.eq_zero_or_pos p.mBuffer.length with empty | nonempty
  · refine Or.inl (alikeUnchanged ⟨a,_,rfl,sound,kept,deadEmpty empty,deadEmpty empty,?_⟩)
    unfold getSeed
    rw [if_neg (by simp only; omega),if_neg (by omega)]
  · rcases harmless with unread | ⟨off',same⟩
    · exact Or.inr (mutedSilent ⟨kept,nonempty,unread,_,deadUninitialized nonempty off⟩)
    · refine Or.inl (alikeUnchanged ⟨a,_,rfl,sound,kept,deadUninitialized nonempty off',
        deadUninitialized nonempty off,?_⟩)
      simp only [getSeed,key,same]

/- Two bytes left: the first can be read, and the second shows that the key is gone. -/
theorem inconsistentOtherwise {p : PRNG} (sound : Sound p) {o : Answers} (failed : o ≠ .success) (seed : Block)
    (bufferSize : Nat) (unread : 2 ≤ p.mBufferByteCapacity - p.mBytesIdx)
    (other : p.mAes.initialized = true ∨ p.mAes.key ≠ seed) :
    ¬ Unchanged aes p (SetSeedSized aes o seed bufferSize p).2 ∧ ¬ Silent aes (SetSeedSized aes o seed bufferSize p).2 := by
  have kept : Sound (SetSeedSized aes o seed bufferSize p).2 := callSound sound (.SetSeed o seed bufferSize)
  have capacity := sound.capacity
  have fits := sound.fits
  obtain ⟨e,a,threw,off,key⟩ := @failedSetSeed aes o failed seed bufferSize p
  rw [threw] at kept
  rw [threw]
  have nonempty : 0 < p.mBuffer.length := by omega
  constructor
  · intro unchanged
    have sameSeed : call aes { p with mAes := a } .getSeed = (.seed (.ok seed),{ p with mAes := a }) := by
      simp only [call,getSeed,key]
      rw [if_pos (by omega)]
    have oldSeed : call aes p .getSeed = (.seed (.ok p.mAes.key),p) := by
      simp only [call,getSeed]
      rw [if_pos (by omega)]
    have seeds := unchanged [.getSeed]
    simp only [outputs,sameSeed,oldSeed,List.cons.injEq,Output.seed.injEq,Except.ok.injEq,and_true] at seeds
    have ready : p.mAes.initialized = true := other.resolve_right (fun differs => differs seeds.symm)
    obtain ⟨result,q,read,healthy⟩ := @drainReady aes p sound ready nonempty (by omega)
    have dead : Dead aes "AES context not initialized" { p with mAes := a } := deadUninitialized nonempty off
    have stuck := @drainDead aes _ { p with mAes := a } (p.mBufferByteCapacity - p.mBytesIdx) kept dead (by omega)
      (Nat.le_refl _)
    have reads := unchanged [.get (p.mBufferByteCapacity - p.mBytesIdx)]
    simp only [outputs,call,read,stuck,List.cons.injEq,Output.bytes.injEq,Option.some.injEq,and_true] at reads
    exact healthy reads.symm
  · intro silent
    obtain ⟨e,last,none⟩ := silent [] 1 (by omega) List.not_mem_nil
    have byte := @getInside aes 1 { p with mAes := a } (by omega) (by simp only; omega) (by simp only; omega)
    rw [after,byte] at none
    simp at none

theorem streamsSound {seed : Block} {position : Nat} {p : PRNG} (streams : Streams aes seed position p) : Sound p := by
  have fits := streams.fits
  refine ⟨fun _ => ?_,by omega,streams.capacity,Nat.le_of_lt streams.inside⟩
  rw [streams.key]
  exact streams.keyed

theorem keptGet {p : PRNG} (kept : Kept aes p) (length : Nat) : Kept aes (call aes p (.get length)).2 := by
  rcases Nat.eq_zero_or_pos length with rfl | wanted
  · rw [callNothing]
    exact kept
  · rcases kept with idle | ⟨muted,fits⟩ | ⟨seed,position,streams⟩
    · obtain ⟨q,threw,again⟩ := @getIdle aes length p idle wanted
      simp only [call,threw]
      exact Or.inl again
    · obtain ⟨e,q,threw,buffer,again⟩ := mutedGet muted wanted
      simp only [call,threw]
      exact Or.inr (Or.inl ⟨again,by rw [buffer]; exact fits⟩)
    · obtain ⟨q,read,again⟩ := getStreams length streams
      simp only [call,read]
      exact Or.inr (Or.inr ⟨seed,_,again⟩)

theorem keptSeeded {p : PRNG} (kept : Kept aes p) (seed : Block) {bufferSize : Nat} (sized : bufferSize < 2^27) :
    Kept aes (SetSeed aes .success seed bufferSize p).2 := by
  have streamed (reseeded : ∃ q, SetSeed aes .success seed bufferSize p = (.ok (),q) ∧ Streams aes seed 0 q) :
      Kept aes (SetSeed aes .success seed bufferSize p).2 := by
    obtain ⟨q,ran,streams⟩ := reseeded
    rw [ran]
    exact Or.inr (Or.inr ⟨seed,0,streams⟩)
  rcases kept with idle | ⟨muted,fits⟩ | ⟨old,position,streams⟩
  · rcases Nat.eq_zero_or_pos bufferSize with rfl | positive
    · refine Or.inl ⟨?_,?_,?_⟩
      · simp [SetSeed,setKeySuccess,idle.buffer,refillBuffer]
      · simp [SetSeed,setKeySuccess,idle.buffer,refillBuffer,SizeT.mul]
      · simp [SetSeed,setKeySuccess,idle.buffer,refillBuffer,idle.index]
    · exact streamed (seedStreams idle positive sized)
  · exact streamed (reseedStreams bufferSize muted.nonempty fits muted.sound.capacity)
  · exact streamed (reseedStreams bufferSize streams.nonempty streams.fits streams.capacity)

theorem keptFailed {p : PRNG} (kept : Kept aes p) {o : Answers} (failed : o ≠ .success) {seed : Block}
    (bufferSize : Nat) (harmless : Harmless p seed) : Kept aes (SetSeedSized aes o seed bufferSize p).2 := by
  obtain ⟨e,a,threw,off,key⟩ := @failedSetSeed aes o failed seed bufferSize p
  have muted (sound : Sound p) (nonempty : 0 < p.mBuffer.length)
      (unread : p.mBufferByteCapacity - p.mBytesIdx ≤ 1) : Muted aes { p with mAes := a } := by
    have after : Sound (SetSeedSized aes o seed bufferSize p).2 := callSound sound (.SetSeed o seed bufferSize)
    rw [threw] at after
    exact ⟨after,nonempty,unread,_,deadUninitialized nonempty off⟩
  rw [threw]
  rcases kept with idle | ⟨before,fits⟩ | ⟨old,position,streams⟩
  · exact Or.inl ⟨idle.buffer,idle.capacity,idle.index⟩
  · exact Or.inr (Or.inl ⟨muted before.sound before.nonempty before.unread,fits⟩)
  · have ready := streams.keyed.ready
    rcases harmless with unread | ⟨unset,-⟩
    · exact Or.inr (Or.inl ⟨muted (streamsSound streams) streams.nonempty unread,streams.fits⟩)
    · rw [ready] at unset
      contradiction

theorem keptCall {p : PRNG} (kept : Kept aes p) {c : Call} (careful : Careful p c) : Kept aes (call aes p c).2 := by
  cases c with
  | get length => exact keptGet kept length
  | getSeed => exact kept
  | SetSeed o seed bufferSize =>
    obtain ⟨sized,harmless⟩ := careful
    by_cases success : o = .success
    · subst success
      unfold call SetSeedSized
      simp only
      rw [if_neg (by omega)]
      exact keptSeeded kept seed sized
    · exact keptFailed kept success bufferSize (harmless success)

theorem keptConstructed {o o' : Answers} {seed : Block} {bufferSize : Nat} {p : PRNG} (sized : bufferSize < 2^27)
    (made : construct aes o o' seed bufferSize = .ok p) : Kept aes p := by
  have ran := constructMakes aes made
  by_cases success : o' = .success
  · subst success
    have seeded := @keptSeeded aes (unseeded o) (Or.inl ⟨rfl,rfl,rfl⟩) seed bufferSize sized
    rw [ran] at seeded
    exact seeded
  · obtain ⟨e,a,threw,-⟩ := @failedSetSeed aes o' success seed bufferSize (unseeded o)
    rw [SetSeedSized,if_neg (by omega),ran] at threw
    cases threw

theorem keptReached {p : PRNG} (reached : CarefullyReached aes p) : Kept aes p := by
  induction reached with
  | default made =>
    rw [defaultMakes made]
    exact Or.inl ⟨rfl,rfl,rfl⟩
  | construct sized made => exact keptConstructed sized made
  | call before careful ih => exact keptCall ih careful
  | movedTo before made ih =>
    rw [(moveMakes made).1]
    exact ih
  | movedFrom before made ih =>
    rw [(moveMakes made).2]
    exact Or.inl ⟨rfl,rfl,rfl⟩

theorem keptReads {p q : PRNG} (kept : Kept aes p) {length : Nat} {bytes : List Byte} (wanted : 0 < length)
    (read : get aes length p = some (.ok bytes,q)) :
    ∃ seed position, getSeed p = .ok seed ∧ bytes = stretch (streamByte aes seed) position length := by
  rcases kept with idle | ⟨muted,-⟩ | ⟨seed,position,streams⟩
  · obtain ⟨last,threw,-⟩ := @getIdle aes length p idle wanted
    rw [threw] at read
    simp at read
  · obtain ⟨e,last,threw,-⟩ := mutedGet muted wanted
    rw [threw] at read
    simp at read
  · obtain ⟨last,same,-⟩ := getStreams length streams
    rw [same] at read
    cases Option.some.inj read
    exact ⟨seed,position,streams.getSeed,rfl⟩

end

theorem failedSeedConsistentWhen (aes : OpenSsl) :
    (∀ p, Reachable aes p → ∀ o : Answers, o ≠ .success → ∀ seed bufferSize,
      (∃ e, (SetSeedSized aes o seed bufferSize p).1 = .error e) ∧
      (Unchanged aes p (SetSeedSized aes o seed bufferSize p).2 ∨
        Silent aes (SetSeedSized aes o seed bufferSize p).2 ↔ Harmless p seed)) ∧
    (∀ p, CarefullyReached aes p → ∀ length bytes q, 0 < length → get aes length p = some (.ok bytes,q) →
      ∃ seed position, getSeed p = .ok seed ∧ bytes = stretch (streamByte aes seed) position length) := by
  constructor
  · intro p reachable o failed seed bufferSize
    have sound := reachableSound reachable
    refine ⟨?_,?_,fun harmless => harmlessConsistent sound failed bufferSize harmless⟩
    · obtain ⟨e,a,threw,-⟩ := @failedSetSeed aes o failed seed bufferSize p
      exact ⟨e,by rw [threw]⟩
    · intro consistent
      by_contra harmful
      rw [Harmless,not_or,not_and_or,Bool.not_eq_false] at harmful
      obtain ⟨changed,loud⟩ := @inconsistentOtherwise aes p sound o failed seed bufferSize (by omega) harmful.2
      exact consistent.elim changed loud
  · intro p reached length bytes q wanted read
    exact keptReads (keptReached reached) wanted read

theorem failedSeedConsistentLastByte :
    Unchanged (ecb Aes128.encrypt) (advance 127 (seeded (ecb Aes128.encrypt) TestBlock 8))
      (SetSeedSized (ecb Aes128.encrypt) ⟨true,true,false,true⟩ ZeroBlock 256
        (advance 127 (seeded (ecb Aes128.encrypt) TestBlock 8))).2 ∨
    Silent (ecb Aes128.encrypt) (SetSeedSized (ecb Aes128.encrypt) ⟨true,true,false,true⟩ ZeroBlock 256
      (advance 127 (seeded (ecb Aes128.encrypt) TestBlock 8))).2 := by
  have made := constructSeeded (ecb Aes128.encrypt) TestBlock (by decide : 1 ≤ 8) (by decide)
  have read := (Reachable.construct (by decide) made).call (.get 127)
  rw [call,getInside (ecb Aes128.encrypt) 127 (by decide) (by decide) (by decide)] at read
  exact ((failedSeedConsistentWhen (ecb Aes128.encrypt)).1 _ read _ (by decide) _ _).2.mpr (Or.inl (by decide))

def halfSeeded : PRNG :=
  (SetSeedSized (ecb Aes128.encrypt) ⟨false,true,true,true⟩ ZeroBlock 256 (seeded (ecb Aes128.encrypt) TestBlock 8)).2

/- It reports the new seed and returns the first block of the old one's stream. -/
theorem failedSeedMixes :
    Reachable (ecb Aes128.encrypt) (seeded (ecb Aes128.encrypt) TestBlock 8) ∧ getSeed halfSeeded = .ok ZeroBlock ∧
    (∃ q, get (ecb Aes128.encrypt) 16 halfSeeded = some (.ok (toBytes 16 ((ecb Aes128.encrypt) TestBlock 0)),q)) ∧
    ¬ (Unchanged (ecb Aes128.encrypt) (seeded (ecb Aes128.encrypt) TestBlock 8) halfSeeded ∨
      Silent (ecb Aes128.encrypt) halfSeeded) := by
  have reachable : Reachable (ecb Aes128.encrypt) (seeded (ecb Aes128.encrypt) TestBlock 8) :=
    Reachable.construct (by decide) (constructSeeded (ecb Aes128.encrypt) TestBlock (by decide) (by decide))
  have first := @getInside (ecb Aes128.encrypt) 16 halfSeeded (by decide) (by decide) (by decide)
  have bytes := @seededBytes (ecb Aes128.encrypt) TestBlock 8 0 (by decide) (by decide)
  obtain ⟨changed,loud⟩ := @inconsistentOtherwise (ecb Aes128.encrypt) _ (reachableSound reachable)
    ⟨false,true,true,true⟩ (by decide) ZeroBlock 256 (by decide) (Or.inl rfl)
  refine ⟨reachable,rfl,⟨advance 16 halfSeeded,first.trans ?_⟩,fun consistent => consistent.elim changed loud⟩
  exact congrArg (fun b => some (Except.ok b,advance 16 halfSeeded)) bytes

end ImPir.PrngFailure
