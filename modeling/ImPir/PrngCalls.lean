import ImPir.PrngStream

/-! The calls on one `PRNG` when OpenSSL may fail, and the objects that a program can
reach by them. A key that cannot be set is in place all the same, and every refill
without a context throws. -/
namespace ImPir.PrngCalls
open LittleEndian Blocks AesContext AesBatch Prng PrngStream

inductive Call
  | get (length : Nat)
  | getSeed
  | SetSeed (o : Answers) (seed : Block) (bufferSize : Nat)
  deriving DecidableEq, Repr

inductive Output
  | bytes (result : Option (Except String (List Byte)))
  | seed (result : Except String Block)
  | done (result : Except String Unit)

section
variable (aes : OpenSsl)

/- `SetSeed` with the limit of `resize`: a `std::vector<block>` holds fewer than 2^59. -/
def SetSeedSized (o : Answers) (seed : Block) (bufferSize : Nat) (p : PRNG) : Except String Unit × PRNG :=
  if p.mBuffer.length = 0 ∧ 2^59 ≤ bufferSize then
    match setKey o seed p.mAes with
    | (.error e,a) => (.error e,{ p with mAes := a })
    | (.ok _,a) => (.error "vector::_M_default_append",{ p with mAes := a, mBlockIdx := 0 })
  else SetSeed aes o seed bufferSize p

def call (p : PRNG) : Call → Output × PRNG
  | .get length =>
      match get aes length p with
      | some (result,q) => (.bytes (some result),q)
      | none => (.bytes none,p)
  | .getSeed => (.seed (getSeed p),p)
  | .SetSeed o seed bufferSize =>
      (.done (SetSeedSized aes o seed bufferSize p).1,(SetSeedSized aes o seed bufferSize p).2)

/- The objects a program can have. A move construction that itself throws is left out: its
source has offsets into a buffer that it lost, and a read from it has no meaning in C++. -/
inductive Reachable : PRNG → Prop
  | default {o p} (made : defaultConstruct o = .ok p) : Reachable p
  | construct {o o' seed bufferSize p} (sized : bufferSize < 2^59)
      (made : construct aes o o' seed bufferSize = .ok p) : Reachable p
  | call {p} (before : Reachable p) (c : Call) : Reachable (call aes p c).2
  | movedTo {o p q s} (before : Reachable p) (made : moveConstruct o p = (.ok q,s)) : Reachable q
  | movedFrom {o p q s} (before : Reachable p) (made : moveConstruct o p = (.ok q,s)) : Reachable s

structure Sound (p : PRNG) : Prop where
  keyed : p.mAes.initialized = true → Keyed p.mAes p.mAes.key
  fits : p.mBuffer.length < 2^59
  capacity : p.mBufferByteCapacity = 16*p.mBuffer.length
  inside : p.mBytesIdx ≤ p.mBufferByteCapacity

def Dead (e : String) (p : PRNG) : Prop :=
  ∀ i, refillBuffer aes { p with mBytesIdx := i } = (.error e,{ p with mBytesIdx := i })

variable {aes}

theorem setKeyFails {o : Answers} (failed : o ≠ .success) (seed : Block) (a : AES) :
    ∃ e b, setKey o seed a = (.error e,b) ∧ b.initialized = false ∧ b.key = seed := by
  obtain ⟨newEncrypt,newDecrypt,encryptInit,decryptInit⟩ := o
  cases newEncrypt
  · exact ⟨_,_,rfl,rfl,rfl⟩
  · cases newDecrypt
    · exact ⟨_,_,rfl,rfl,rfl⟩
    · cases encryptInit
      · exact ⟨_,_,rfl,rfl,rfl⟩
      · cases decryptInit
        · exact ⟨_,_,rfl,rfl,rfl⟩
        · exact absurd rfl failed

theorem setKeySound (o : Answers) (seed : Block) (a : AES) :
    (setKey o seed a).2.initialized = true → Keyed (setKey o seed a).2 (setKey o seed a).2.key := by
  by_cases success : o = .success
  · subst success
    intro _
    exact ⟨rfl,rfl⟩
  · obtain ⟨e,b,same,off,-⟩ := setKeyFails success seed a
    rw [same,off]
    intro on
    contradiction

theorem failedSetSeed {o : Answers} (failed : o ≠ .success) (seed : Block) (bufferSize : Nat) (p : PRNG) :
    ∃ e a, SetSeedSized aes o seed bufferSize p = (.error e,{ p with mAes := a }) ∧
      a.initialized = false ∧ a.key = seed := by
  obtain ⟨e,a,threw,off,key⟩ := setKeyFails failed seed p.mAes
  refine ⟨e,a,?_,off,key⟩
  unfold SetSeedSized SetSeed
  simp only [threw]
  exact ite_self _

theorem deadEmpty {p : PRNG} (empty : p.mBuffer.length = 0) : Dead aes "PRNG has not been keyed " p := by
  intro i
  unfold refillBuffer
  rw [if_pos empty]

theorem deadUninitialized {p : PRNG} (nonempty : 0 < p.mBuffer.length) (off : p.mAes.initialized = false) :
    Dead aes "AES context not initialized" p := by
  intro i
  unfold refillBuffer encryptCTR
  rw [if_neg (by simp only; omega)]
  simp only [off,if_true]

theorem deadBatch {p : PRNG} (keyed : Keyed p.mAes p.mAes.key) (batch : 8 ≤ p.mBuffer.length)
    (negative : 2^27 ≤ p.mBuffer.length % 2^28) : Dead aes "Batch encryption failed" p := by
  intro i
  have threw := @batchThrows aes p.mAes p.mAes.key keyed (counters p.mBlockIdx p.mBuffer.length) p.mBuffer
    p.mBuffer.length batch negative
  unfold refillBuffer encryptCTR
  rw [if_neg (by simp only; omega)]
  simp only [keyed.ready,Bool.true_eq_false,if_false,threw]

theorem refillOutcome {p : PRNG} (keyed : Keyed p.mAes p.mAes.key) (nonempty : 0 < p.mBuffer.length) :
    (∃ out, refillBuffer aes p = (.ok (),{ p with
        mBuffer := out
        mBlockIdx := SizeT.add p.mBlockIdx p.mBuffer.length
        mBytesIdx := 0 }) ∧ out.length = p.mBuffer.length) ∨
    Dead aes "Batch encryption failed" p := by
  rcases @batchOutcome aes p.mAes p.mAes.key keyed _ p.mBuffer _ (countersLength p.mBlockIdx p.mBuffer.length) rfl
    with ⟨out,filled,length⟩ | ⟨batch,negative⟩
  · refine Or.inl ⟨out,?_,length⟩
    unfold refillBuffer encryptCTR
    rw [if_neg (by omega)]
    simp only [keyed.ready,Bool.true_eq_false,if_false,filled,length]
  · exact Or.inr (deadBatch keyed batch negative)

theorem Dead.refills {e : String} {p : PRNG} (dead : Dead aes e p) : refillBuffer aes p = (.error e,p) :=
  dead p.mBytesIdx

theorem Dead.moves {e : String} {p : PRNG} (dead : Dead aes e p) (step : Nat) : Dead aes e (advance step p) :=
  fun i => dead i

theorem Sound.refills {p : PRNG} (sound : Sound p) : Sound (refillBuffer aes p).2 := by
  rcases Nat.eq_zero_or_pos p.mBuffer.length with empty | nonempty
  · rw [(deadEmpty empty).refills]
    exact sound
  · cases ready : p.mAes.initialized with
    | false =>
      rw [(deadUninitialized nonempty ready).refills]
      exact sound
    | true =>
      rcases @refillOutcome aes p (sound.keyed ready) nonempty with ⟨out,filled,length⟩ | dead
      · rw [filled]
        refine ⟨sound.keyed,?_,?_,Nat.zero_le _⟩
        · rw [length]
          exact sound.fits
        · rw [length]
          exact sound.capacity
      · rw [dead.refills]
        exact sound

theorem Sound.step {p : PRNG} (sound : Sound p) (length : Nat) :
    getStep length p = min length (p.mBufferByteCapacity - p.mBytesIdx) := by
  rw [getStep,SizeT.subExact sound.inside]

theorem Sound.advances {p : PRNG} (sound : Sound p) {step : Nat}
    (room : p.mBytesIdx + step ≤ p.mBufferByteCapacity) :
    (advance step p).mBytesIdx = p.mBytesIdx + step ∧ Sound (advance step p) := by
  have fits := sound.fits
  have capacity := sound.capacity
  have index : (advance step p).mBytesIdx = p.mBytesIdx + step := SizeT.addExact (by omega)
  refine ⟨index,sound.keyed,fits,capacity,?_⟩
  rw [index]
  exact room

theorem Sound.rounds {p : PRNG} (sound : Sound p) (length : Nat) : Sound (getRound aes length p).2 := by
  have inside := sound.inside
  have step := sound.step length
  have room : p.mBytesIdx + getStep length p ≤ p.mBufferByteCapacity := by omega
  have kept := (sound.advances room).2
  have filled : Sound (refillBuffer aes (advance (getStep length p) p)).2 := kept.refills
  unfold getRound
  simp only
  split
  · split
    · rename_i refilled
      rw [refilled] at filled
      exact filled
    · rename_i refilled
      rw [refilled] at filled
      exact filled
  · exact kept

theorem loopSound {p q : PRNG} {rounds length : Nat} {result : Except String (List Byte)} (sound : Sound p)
    (read : getLoop aes rounds length p = some (result,q)) : Sound q := by
  induction rounds generalizing length p result with
  | zero =>
    rw [getLoop] at read
    split at read
    · cases Option.some.inj read
      exact sound
    · contradiction
  | succ rounds ih =>
    have next : Sound (getRound aes length p).2 := sound.rounds length
    rw [getLoop] at read
    split at read
    · cases Option.some.inj read
      exact sound
    · split at read
      · rename_i round
        cases Option.some.inj read
        rw [round] at next
        exact next
      · rename_i round
        rw [round] at next
        split at read
        · rename_i rest
          cases Option.some.inj read
          exact ih next rest
        · exact ih next read

theorem Sound.rekeys {p : PRNG} (sound : Sound p) (o : Answers) (seed : Block) (blockIdx : Nat) :
    Sound { p with mAes := (setKey o seed p.mAes).2, mBlockIdx := blockIdx } :=
  ⟨setKeySound o seed p.mAes,sound.fits,sound.capacity,sound.inside⟩

theorem setSeedSound {p : PRNG} (sound : Sound p) (o : Answers) (seed : Block) {bufferSize : Nat}
    (sized : p.mBuffer.length = 0 → bufferSize < 2^59) : Sound (SetSeed aes o seed bufferSize p).2 := by
  have keyed := sound.rekeys o seed
  unfold SetSeed
  split
  · rename_i e a set
    rw [set] at keyed
    exact keyed p.mBlockIdx
  · rename_i u a set
    rw [set] at keyed
    simp only
    split
    · rename_i empty
      have fits := sized empty
      have capacity := sound.capacity
      have inside := sound.inside
      refine Sound.refills ⟨(keyed 0).keyed,?_,?_,?_⟩
      · simp only [List.length_replicate]
        exact fits
      · simp only [List.length_replicate]
        exact SizeT.mulExact (by omega)
      · simp only
        omega
    · exact (keyed 0).refills

theorem callSound {p : PRNG} (sound : Sound p) (c : Call) : Sound (call aes p c).2 := by
  cases c with
  | get length =>
    unfold call
    simp only
    split
    · rename_i read
      exact loopSound sound read
    · exact sound
  | getSeed => exact sound
  | SetSeed o seed bufferSize =>
    unfold call SetSeedSized
    simp only
    split
    · split
      · rename_i set
        have keyed := sound.rekeys o seed p.mBlockIdx
        rw [set] at keyed
        exact keyed
      · rename_i set
        have keyed := sound.rekeys o seed 0
        rw [set] at keyed
        exact keyed
    · rename_i small
      exact setSeedSound sound o seed (by omega)

theorem unseededSound (o : Answers) : Sound (unseeded o) :=
  ⟨setKeySound o ZeroBlock unkeyed,by simp [unseeded],rfl,Nat.le_refl 0⟩

theorem reachableSound {p : PRNG} (reachable : Reachable aes p) : Sound p := by
  induction reachable with
  | default made =>
    rw [defaultMakes made]
    exact unseededSound _
  | @construct o o' seed bufferSize p sized made =>
    have seeded := @setSeedSound aes (unseeded o) (unseededSound o) o' seed bufferSize (fun _ => sized)
    rw [constructMakes aes made] at seeded
    exact seeded
  | call before c ih => exact callSound ih c
  | movedTo before made ih =>
    rw [(moveMakes made).1]
    exact ih
  | movedFrom before made ih =>
    rw [(moveMakes made).2]
    exact unseededSound _

end
end ImPir.PrngCalls
