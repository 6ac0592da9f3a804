import ImPir.Blocks
import ImPir.SizeT

/-! The class `AES` over OpenSSL's cipher contexts. OpenSSL is a parameter: its cipher, its
update call, and what it answers while a key is being set; a failed call throws and leaves
the object as the source leaves it. -/
namespace ImPir.AesContext
open LittleEndian Blocks

abbrev Cipher := Block → Block → Block

def fixedKey : Block :=
  ofBytes 128 [36,156,50,234,92,230,49,9,174,170,205,160,98,236,29,243]
def fixedKey2 : Block :=
  ofBytes 128 [209,12,199,173,29,74,44,128,194,224,14,44,2,201,110,28]

def fixedKeys (aes : Cipher) : FixedKeys := ⟨aes fixedKey,aes fixedKey2⟩

/- An allocated context holds the key it was initialised with, once it was. -/
abbrev Context := Option Block

structure AES where
  encryptCtx : Option Context
  decryptCtx : Option Context
  initialized : Bool
  key : Block
  deriving DecidableEq, Repr

structure Answers where
  newEncrypt : Bool
  newDecrypt : Bool
  encryptInit : Bool
  decryptInit : Bool
  deriving DecidableEq, Repr

def Answers.success : Answers := ⟨true,true,true,true⟩

def cleanupContexts (a : AES) : AES :=
  { a with encryptCtx := none, decryptCtx := none, initialized := false }

def initContexts (o : Answers) (a : AES) : Except String Unit × AES :=
  let a := { cleanupContexts a with
    encryptCtx := if o.newEncrypt then some none else none
    decryptCtx := if o.newDecrypt then some none else none }
  if a.encryptCtx = none ∨ a.decryptCtx = none then
    (.error "Failed to create EVP contexts",a)
  else if o.encryptInit = false then
    (.error "Failed to initialize encryption context",cleanupContexts a)
  else if o.decryptInit = false then
    (.error "Failed to initialize decryption context",cleanupContexts a)
  else
    (.ok (),{ a with encryptCtx := some (some a.key), decryptCtx := some (some a.key), initialized := true })

def setKey (o : Answers) (keyBlock : Block) (a : AES) : Except String Unit × AES :=
  initContexts o { a with key := keyBlock }

def unkeyed : AES := ⟨none,none,false,ZeroBlock⟩

def defaultAes (o : Answers) : Except String Unit × AES := setKey o ZeroBlock unkeyed

/- What a moved-from object keeps: the key, without the contexts. -/
def released (a : AES) : AES := { a with encryptCtx := none, decryptCtx := none, initialized := false }

def toInt (length : Nat) : Int := Int.bmod length (2^32)

/- `EVP_EncryptUpdate` in ECB mode without padding: from the context, the length and the two
arrays, what is in the second afterwards, or that the call failed. -/
abbrev Update := Option Context → Int → List Block → List Block → Option (List Block)

/- What the code relies on: with a key, a multiple of 16 that fits the arrays encrypts exactly
that many bytes, zero none, and a negative length fails. -/
structure OpenSsl where
  cipher : Cipher
  evpEncryptUpdate : Update
  wholeBlocks : ∀ (key : Block) (n : Nat) (plaintexts ciphertexts : List Block),
    n ≤ plaintexts.length → n ≤ ciphertexts.length →
    evpEncryptUpdate (some (some key)) ((16*n : Nat) : Int) plaintexts ciphertexts =
      some ((plaintexts.take n).map (cipher key) ++ ciphertexts.drop n)
  negativeFails : ∀ ctx inl plaintexts ciphertexts, inl < 0 → evpEncryptUpdate ctx inl plaintexts ciphertexts = none

instance : CoeFun OpenSsl (fun _ => Cipher) := ⟨OpenSsl.cipher⟩

def oneBlock (failed : String) (update : Option (List Block)) : Except String Block :=
  match update with
  | some out => .ok (out.headD ZeroBlock)
  | none => .error failed

theorem oneBlockOk (aes : OpenSsl) (failed : String) (key m : Block) :
    oneBlock failed (aes.evpEncryptUpdate (some (some key)) 16 [m] [ZeroBlock]) = .ok (aes key m) :=
  congrArg (oneBlock failed) (aes.wholeBlocks key 1 [m] [ZeroBlock] (Nat.le_refl 1) (Nat.le_refl 1))

def encryptECB (aes : OpenSsl) (a : AES) (plaintext : Block) : Except String Block :=
  if a.initialized = false then .error "AES context not initialized"
  else oneBlock "Encryption failed" (aes.evpEncryptUpdate a.encryptCtx 16 [plaintext] [ZeroBlock])

def encryptECBBlocks (aes : OpenSsl) (a : AES) (plaintexts : List Block) (blockLength : Nat)
    (ciphertexts : List Block) : Except String (List Block) :=
  if a.initialized = false then .error "AES context not initialized"
  else if 8 ≤ blockLength then
    match aes.evpEncryptUpdate a.encryptCtx (toInt (SizeT.mul blockLength 16)) plaintexts ciphertexts with
    | some out => .ok out
    | none => .error "Batch encryption failed"
  else
    (List.range blockLength).foldlM (fun out i => do
      let ciphertext ← encryptECB aes a (plaintexts.getD i ZeroBlock)
      .ok (out.set i ciphertext)) ciphertexts

def counters (baseIdx blockLength : Nat) : List Block :=
  (List.range blockLength).map (fun i => BitVec.ofNat 128 (SizeT.add baseIdx i))

def encryptCTR (aes : OpenSsl) (a : AES) (baseIdx blockLength : Nat) (ciphertext : List Block) :
    Except String (List Block) :=
  if a.initialized = false then .error "AES context not initialized"
  else encryptECBBlocks aes a (counters baseIdx blockLength) blockLength ciphertext

def ecb (aes : Cipher) : OpenSsl where
  cipher := aes
  evpEncryptUpdate ctx inl plaintexts ciphertexts :=
    match ctx with
    | some (some key) =>
        if inl < 0 then none
        else some ((plaintexts.take (inl.toNat/16)).map (aes key) ++ ciphertexts.drop (inl.toNat/16))
    | _ => none
  wholeBlocks key n plaintexts ciphertexts _ _ := by
    have positive : ¬ ((16*n : Nat) : Int) < 0 := by omega
    have blocks : ((16*n : Nat) : Int).toNat/16 = n := by omega
    simp only [if_neg positive,blocks]
  negativeFails ctx inl plaintexts ciphertexts negative := by
    match ctx with
    | some (some key) => exact if_pos negative
    | some none => rfl
    | none => rfl

theorem setKeySuccess (key : Block) (a : AES) :
    setKey .success key a = (.ok (),⟨some (some key),some (some key),true,key⟩) := rfl

end ImPir.AesContext
