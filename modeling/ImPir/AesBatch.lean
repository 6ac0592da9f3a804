import ImPir.Aes128
import ImPir.AesContext
import ImPir.Loops

/-! The batch encryptions of `AES` against the single ones. From eight blocks on the byte
length goes to OpenSSL as a 32-bit `int`: a negative one is refused, and a length that
loses its upper bits leaves the blocks behind it as they were. -/
namespace ImPir.AesBatch
open LittleEndian Blocks AesContext Loops

section
variable (aes : OpenSsl)

def encryptECBMMO (a : AES) (plaintext : Block) : Except String Block := do
  let ciphertext ← encryptECB aes a plaintext
  .ok (ciphertext ^^^ plaintext)

def feedForward (plaintexts ciphertexts : List Block) (idx : Nat) : List Block :=
  ciphertexts.set idx (ciphertexts.getD idx ZeroBlock ^^^ plaintexts.getD idx ZeroBlock)

/- The first loop ends at `length`, a multiple of its step; the second goes on from there. -/
def encryptECBMMOBlocks (a : AES) (plaintexts : List Block) (blockLength : Nat) (ciphertexts : List Block) :
    Except String (List Block) := do
  let ciphertexts ← encryptECBBlocks aes a plaintexts blockLength ciphertexts
  let step := 8
  let length := blockLength - blockLength % step
  let ciphertexts := (indices 0 length step).foldl
    (fun out idx => (List.range step).foldl (fun out j => feedForward plaintexts out (idx + j)) out) ciphertexts
  .ok ((List.range' length (blockLength - length)).foldl (feedForward plaintexts) ciphertexts)

end

/- A batch that throws, or leaves in each place what the single call gives. -/
def Agrees (single : Block → Except String Block) (plaintexts : List Block) (batch : Except String (List Block)) : Prop :=
  (∃ e, batch = .error e) ∨ ∃ out : List Block, batch = .ok out ∧ ∀ (i : Nat) (p : Block), plaintexts[i]? = some p →
    ∃ c, single p = .ok c ∧ out[i]? = some c

structure Keyed (a : AES) (key : Block) : Prop where
  ready : a.initialized = true
  ctx : a.encryptCtx = some (some key)

theorem setKeyKeyed (key : Block) (a : AES) : Keyed (setKey .success key a).2 key := ⟨rfl,rfl⟩

section
variable {aes : OpenSsl} {a : AES} {key : Block}

theorem encryptSingle (keyed : Keyed a key) (p : Block) : encryptECB aes a p = .ok (aes key p) := by
  simp only [encryptECB,keyed.ready,Bool.true_eq_false,if_false,keyed.ctx,oneBlockOk]

/- The `int` that OpenSSL receives for a batch hangs on the low 28 bits of its block count. -/
theorem batchLow (blockLength : Nat) : SizeT.mul blockLength 16 % 2^32 = 16*(blockLength % 2^28) := by
  unfold SizeT.mul
  omega

theorem intModulus : ((2^32 : Nat) : Int) = 4294967296 := by norm_num

theorem bmodLow {x r k : Int} {m : Nat} (same : (m : Int) = k) (low : x % k = r) (small : r < (k+1)/2) :
    Int.bmod x m = r := by
  subst same
  rw [Int.bmod_eq_emod_of_lt (by omega)]
  exact low

theorem bmodHigh {x r k : Int} {m : Nat} (same : (m : Int) = k) (low : x % k = r) (large : (k+1)/2 ≤ r) :
    Int.bmod x m = r - k := by
  subst same
  rw [Int.bmod_eq_emod,if_pos (by omega),low]

theorem batchIntSmall {blockLength : Nat} (small : blockLength % 2^28 < 2^27) :
    toInt (SizeT.mul blockLength 16) = ((16*(blockLength % 2^28) : Nat) : Int) := by
  have low := batchLow blockLength
  exact bmodLow intModulus (by omega) (by omega)

theorem batchIntNegative {blockLength : Nat} (large : 2^27 ≤ blockLength % 2^28) :
    toInt (SizeT.mul blockLength 16) < 0 := by
  have low := batchLow blockLength
  have value : toInt (SizeT.mul blockLength 16) = ((16*(blockLength % 2^28) : Nat) : Int) - 4294967296 :=
    bmodHigh intModulus (by omega) (by omega)
  rw [value]
  omega

theorem batchEncrypts (keyed : Keyed a key) {plaintexts ciphertexts : List Block} {blockLength : Nat}
    (batch : 8 ≤ blockLength) (small : blockLength % 2^28 < 2^27) (input : plaintexts.length = blockLength)
    (output : ciphertexts.length = blockLength) :
    encryptECBBlocks aes a plaintexts blockLength ciphertexts =
      .ok ((plaintexts.take (blockLength % 2^28)).map (aes key) ++ ciphertexts.drop (blockLength % 2^28)) := by
  have low := Nat.mod_le blockLength (2^28)
  have blocks := aes.wholeBlocks key (blockLength % 2^28) plaintexts ciphertexts (by omega) (by omega)
  simp only [encryptECBBlocks,keyed.ready,Bool.true_eq_false,if_false,if_pos batch,batchIntSmall small,keyed.ctx,blocks]

theorem batchThrows (keyed : Keyed a key) {plaintexts ciphertexts : List Block} {blockLength : Nat}
    (batch : 8 ≤ blockLength) (large : 2^27 ≤ blockLength % 2^28) :
    encryptECBBlocks aes a plaintexts blockLength ciphertexts = .error "Batch encryption failed" := by
  have refused := aes.negativeFails (some (some key)) _ plaintexts ciphertexts (batchIntNegative large)
  simp only [encryptECBBlocks,keyed.ready,Bool.true_eq_false,if_false,if_pos batch,keyed.ctx,refused]

theorem fewEncrypt (keyed : Keyed a key) {plaintexts ciphertexts : List Block} {blockLength : Nat}
    (few : blockLength < 8) : encryptECBBlocks aes a plaintexts blockLength ciphertexts =
      .ok ((List.range blockLength).foldl (fun out i => out.set i (aes key (plaintexts.getD i ZeroBlock))) ciphertexts) := by
  have loop (xs : List Nat) (out : List Block) : xs.foldlM (fun out i => do
      let ciphertext ← encryptECB aes a (plaintexts.getD i ZeroBlock)
      Except.ok (out.set i ciphertext)) out =
      Except.ok (xs.foldl (fun out i => out.set i (aes key (plaintexts.getD i ZeroBlock))) out) := by
    induction xs generalizing out with
    | nil => rfl
    | cons x xs ih =>
      rw [List.foldlM_cons,encryptSingle keyed]
      exact ih _
  simp only [encryptECBBlocks,keyed.ready,Bool.true_eq_false,if_false,if_neg (by omega : ¬ 8 ≤ blockLength)]
  exact loop _ _

theorem batchExact (keyed : Keyed a key) {plaintexts ciphertexts : List Block} {blockLength : Nat}
    (small : blockLength < 2^27) (input : plaintexts.length = blockLength) (output : ciphertexts.length = blockLength) :
    encryptECBBlocks aes a plaintexts blockLength ciphertexts = .ok (plaintexts.map (aes key)) := by
  rcases Nat.lt_or_ge blockLength 8 with few | batch
  · rw [fewEncrypt keyed few]
    congr 1
    apply List.ext_getElem?
    intro j
    rw [rewriteAt (fun i _ => aes key (plaintexts.getD i ZeroBlock)) ZeroBlock]
    split
    · rename_i inside
      rw [List.getElem?_eq_getElem (by omega),List.getElem?_map,List.getD_eq_getElem?_getD,
        List.getElem?_eq_getElem (by omega : j < plaintexts.length)]
      rfl
    · rw [List.getElem?_eq_none (by omega),List.getElem?_eq_none (by rw [List.length_map]; omega)]
  · have low : blockLength % 2^28 = blockLength := Nat.mod_eq_of_lt (by omega)
    rw [batchEncrypts keyed batch (by omega) input output,low,List.take_of_length_le (by omega),
      List.drop_of_length_le (by omega),List.append_nil]

theorem batchOutcome (keyed : Keyed a key) {plaintexts ciphertexts : List Block} {blockLength : Nat}
    (input : plaintexts.length = blockLength) (output : ciphertexts.length = blockLength) :
    (∃ out, encryptECBBlocks aes a plaintexts blockLength ciphertexts = .ok out ∧ out.length = blockLength) ∨
    8 ≤ blockLength ∧ 2^27 ≤ blockLength % 2^28 := by
  rcases Nat.lt_or_ge blockLength (2^27) with small | large
  · exact Or.inl ⟨_,batchExact keyed small input output,by rw [List.length_map,input]⟩
  · rcases Nat.lt_or_ge (blockLength % 2^28) (2^27) with low | negative
    · refine Or.inl ⟨_,batchEncrypts keyed (by omega) low input output,?_⟩
      rw [List.length_append,List.length_map,List.length_take,List.length_drop]
      omega
    · exact Or.inr ⟨by omega,negative⟩

theorem feedForwardAll (plaintexts ciphertexts : List Block) (blockLength : Nat) :
    (List.range' (blockLength - blockLength % 8) (blockLength - (blockLength - blockLength % 8))).foldl
      (feedForward plaintexts) ((indices 0 (blockLength - blockLength % 8) 8).foldl
        (fun out idx => (List.range 8).foldl (fun out j => feedForward plaintexts out (idx + j)) out) ciphertexts) =
    (List.range blockLength).foldl (feedForward plaintexts) ciphertexts := by
  have whole : blockLength - blockLength % 8 = 8*(blockLength/8) := by omega
  have rest : blockLength - 8*(blockLength/8) = blockLength % 8 := by omega
  have all : List.range blockLength = List.range (8*(blockLength/8)) ++
      List.range' (8*(blockLength/8)) (blockLength % 8) := by
    have joined := @List.range'_append_1 0 (8*(blockLength/8)) (blockLength % 8)
    rw [Nat.zero_add,Nat.div_add_mod] at joined
    rw [List.range_eq_range',List.range_eq_range',joined]
  have grouped : (fun (out : List Block) idx => (List.range 8).foldl
      (fun out j => feedForward plaintexts out (idx + j)) out) =
      fun out idx => ((List.range 8).map (fun j => idx + j)).foldl (feedForward plaintexts) out := by
    funext out idx
    rw [List.foldl_map]
  rw [whole,rest,grouped,← List.foldl_flatMap,groupsFlat (by decide),all,List.foldl_append]

theorem mmoBlocks (a : AES) (plaintexts : List Block) (blockLength : Nat) (ciphertexts : List Block) :
    encryptECBMMOBlocks aes a plaintexts blockLength ciphertexts =
      match encryptECBBlocks aes a plaintexts blockLength ciphertexts with
      | .ok out => .ok ((List.range blockLength).foldl (feedForward plaintexts) out)
      | .error e => .error e := by
  unfold encryptECBMMOBlocks
  cases encryptECBBlocks aes a plaintexts blockLength ciphertexts with
  | error e => rfl
  | ok out => exact congrArg Except.ok (feedForwardAll plaintexts out blockLength)

theorem feedForwardAt {plaintexts out : List Block} {blockLength i : Nat} {p c : Block} (inside : i < blockLength)
    (plain : plaintexts[i]? = some p) (cipher : out[i]? = some c) :
    ((List.range blockLength).foldl (feedForward plaintexts) out)[i]? = some (c ^^^ p) := by
  have place := rewriteAt (fun i c => c ^^^ plaintexts.getD i ZeroBlock) ZeroBlock out blockLength i
  rw [if_pos inside,cipher,List.getD_eq_getElem?_getD,plain] at place
  exact place

theorem mmoAgrees {plaintexts ciphertexts : List Block} {blockLength : Nat}
    (input : plaintexts.length = blockLength)
    (agrees : Agrees (encryptECB aes a) plaintexts (encryptECBBlocks aes a plaintexts blockLength ciphertexts)) :
    Agrees (encryptECBMMO aes a) plaintexts (encryptECBMMOBlocks aes a plaintexts blockLength ciphertexts) := by
  rw [mmoBlocks]
  rcases agrees with ⟨e,threw⟩ | ⟨out,left,places⟩
  · exact Or.inl ⟨e,by rw [threw]⟩
  · refine Or.inr ⟨_,by rw [left],?_⟩
    intro i p plain
    obtain ⟨c,single,cipher⟩ := places i p plain
    have inside : i < blockLength := by
      rw [← input]
      exact (List.getElem?_eq_some_iff.mp plain).1
    exact ⟨c ^^^ p,by rw [encryptECBMMO,single]; rfl,feedForwardAt inside plain cipher⟩

theorem wrappedKeeps (keyed : Keyed a key) {blockLength : Nat} (large : 2^28 ≤ blockLength)
    (wraps : blockLength % 2^28 < 2^27) (p c : Block) :
    ∃ out, encryptECBBlocks aes a (List.replicate blockLength p) blockLength (List.replicate blockLength c) = .ok out ∧
      out[blockLength-1]? = some c := by
  refine ⟨_,batchEncrypts keyed (by omega) wraps List.length_replicate List.length_replicate,?_⟩
  have few : ((List.replicate blockLength p).take (blockLength % 2^28)).length = blockLength % 2^28 := by
    rw [List.length_take,List.length_replicate]
    omega
  rw [List.getElem?_append_right (by rw [List.length_map,few]; omega),List.length_map,few,List.getElem?_drop,
    List.getElem?_replicate,if_pos (by omega)]

theorem wrappedDisagrees (keyed : Keyed a key) {blockLength : Nat} (large : 2^28 ≤ blockLength)
    (wraps : blockLength % 2^28 < 2^27) {p c : Block} (stale : c ≠ aes key p) :
    ¬ Agrees (encryptECB aes a) (List.replicate blockLength p)
      (encryptECBBlocks aes a (List.replicate blockLength p) blockLength (List.replicate blockLength c)) ∧
    ¬ Agrees (encryptECBMMO aes a) (List.replicate blockLength p)
      (encryptECBMMOBlocks aes a (List.replicate blockLength p) blockLength (List.replicate blockLength c)) := by
  obtain ⟨out,batch,last⟩ := @wrappedKeeps aes a key keyed blockLength large wraps p c
  have plain : (List.replicate blockLength p)[blockLength-1]? = some p := by
    rw [List.getElem?_replicate,if_pos (by omega)]
  constructor
  · rintro (⟨e,threw⟩ | ⟨out',left,places⟩)
    · rw [batch] at threw
      contradiction
    · rw [batch,Except.ok.injEq] at left
      obtain ⟨c',single,cipher⟩ := places _ p plain
      rw [encryptSingle keyed,Except.ok.injEq] at single
      rw [← left,last,Option.some.injEq,← single] at cipher
      exact stale cipher
  · rw [mmoBlocks,batch]
    rintro (⟨e,threw⟩ | ⟨out',left,places⟩)
    · contradiction
    · rw [Except.ok.injEq] at left
      obtain ⟨c',single,cipher⟩ := places _ p plain
      rw [encryptECBMMO,encryptSingle keyed] at single
      have value : aes key p ^^^ p = c' := Except.ok.inj single
      rw [← left,feedForwardAt (by omega) plain last,Option.some.injEq,← value] at cipher
      exact stale ((BitVec.xor_left_inj p).mp cipher)

theorem batchAgrees (keyed : Keyed a key) {blockLength : Nat} (met : blockLength < 2^28 ∨ 2^27 ≤ blockLength % 2^28)
    {plaintexts ciphertexts : List Block} (input : plaintexts.length = blockLength)
    (output : ciphertexts.length = blockLength) :
    Agrees (encryptECB aes a) plaintexts (encryptECBBlocks aes a plaintexts blockLength ciphertexts) := by
  rcases Nat.lt_or_ge blockLength (2^27) with small | large
  · refine Or.inr ⟨_,batchExact keyed small input output,?_⟩
    intro i p plain
    exact ⟨_,encryptSingle keyed p,by rw [List.getElem?_map,plain]; rfl⟩
  · exact Or.inl ⟨_,batchThrows keyed (by omega) (by omega)⟩

theorem batchAgreesWhen (keyed : Keyed a key) (blockLength : Nat) :
    ((∀ plaintexts ciphertexts : List Block, plaintexts.length = blockLength → ciphertexts.length = blockLength →
      Agrees (encryptECB aes a) plaintexts (encryptECBBlocks aes a plaintexts blockLength ciphertexts)) ↔
      blockLength < 2^28 ∨ 2^27 ≤ blockLength % 2^28) ∧
    ((∀ plaintexts ciphertexts : List Block, plaintexts.length = blockLength → ciphertexts.length = blockLength →
      Agrees (encryptECBMMO aes a) plaintexts (encryptECBMMOBlocks aes a plaintexts blockLength ciphertexts)) ↔
      blockLength < 2^28 ∨ 2^27 ≤ blockLength % 2^28) := by
  have wrapped (unmet : ¬ (blockLength < 2^28 ∨ 2^27 ≤ blockLength % 2^28)) :=
    @wrappedDisagrees aes a key keyed blockLength (by omega) (by omega) 0#128 (~~~ aes key 0#128) (by simp)
  refine ⟨⟨?_,?_⟩,⟨?_,?_⟩⟩
  · intro all
    by_contra unmet
    exact (wrapped unmet).1 (all _ _ List.length_replicate List.length_replicate)
  · intro met plaintexts ciphertexts input output
    exact batchAgrees keyed met input output
  · intro all
    by_contra unmet
    exact (wrapped unmet).2 (all _ _ List.length_replicate List.length_replicate)
  · intro met plaintexts ciphertexts input output
    exact mmoAgrees input (batchAgrees keyed met input output)

end

def mFixedKey : AES := (setKey .success fixedKey unkeyed).2

theorem batchAgreesThousand : Agrees (encryptECBMMO (ecb Aes128.encrypt) mFixedKey) (List.replicate 1000 0#128)
    (encryptECBMMOBlocks (ecb Aes128.encrypt) mFixedKey (List.replicate 1000 0#128) 1000 (List.replicate 1000 0#128)) :=
  (batchAgreesWhen (setKeyKeyed fixedKey unkeyed) 1000).2.mpr (Or.inl (by decide)) _ _ List.length_replicate
    List.length_replicate

/- 2^28 zero blocks over zero blocks: the length is 0 as an `int`, and nothing is written. -/
theorem wrappedLengthDisagrees :
    ¬ Agrees (encryptECB (ecb Aes128.encrypt) mFixedKey) (List.replicate (2^28) 0#128)
      (encryptECBBlocks (ecb Aes128.encrypt) mFixedKey (List.replicate (2^28) 0#128) (2^28) (List.replicate (2^28) 0#128)) ∧
    ¬ Agrees (encryptECBMMO (ecb Aes128.encrypt) mFixedKey) (List.replicate (2^28) 0#128)
      (encryptECBMMOBlocks (ecb Aes128.encrypt) mFixedKey (List.replicate (2^28) 0#128) (2^28)
        (List.replicate (2^28) 0#128)) :=
  wrappedDisagrees (setKeyKeyed fixedKey unkeyed) (by decide) (by decide) (by decide +kernel)

end ImPir.AesBatch
