import Mathlib.Data.Fin.VecNotation
import ImPir.LittleEndian

/-! The 128-bit block, the constants of `Defines`, and the two fixed-key ciphers.
AES itself is not in the repository: `encryptECB` under each of the two fixed keys
is a parameter, and the MMO feed-forward is built on it as in the source. -/
namespace ImPir.Blocks
open LittleEndian (Byte toBytes ofBytes)

abbrev Block := BitVec 128

def ZeroBlock : Block := 0
def MSBBlock : Block := 1#128 <<< 127
def TestBlock : Block := ofBytes 128 (List.replicate 16 0xaa)

def isZero (b : Block) : Bool := b == 0

def clr (b : Block) : Block := b &&& ~~~MSBBlock
def getT (b : Block) : Bool := !isZero (b &&& MSBBlock)

def ofFlag (b : Bool) : Byte := if b then 1#8 else 0#8

def set1 (b : Byte) : Block := ofBytes 128 (List.replicate 16 b)

/- `_mm_set1_epi8(-t)`: the mask that stands for a branch on `t`. -/
def maskOf (t : Byte) : Block := set1 (-t)

structure FixedKeys where
  mFixedKey : Block → Block
  mFixedKey2 : Block → Block

def encryptEcbMmo (encryptECB : Block → Block) (plaintext : Block) : Block :=
  encryptECB plaintext ^^^ plaintext

def encryptEcbBlocks (encryptECB : Block → Block) (plaintexts : Fin 8 → Block) : Fin 8 → Block :=
  fun i => encryptECB (plaintexts i)

def encryptEcbMmoBlocks (encryptECB : Block → Block) (plaintexts : Fin 8 → Block) : Fin 8 → Block :=
  fun i => encryptEcbBlocks encryptECB plaintexts i ^^^ plaintexts i

section
variable (k : FixedKeys)

def getL (seed : Block) : Block := encryptEcbMmo k.mFixedKey seed
def getR (seed : Block) : Block := encryptEcbMmo k.mFixedKey2 seed
def getL8 (seed : Fin 8 → Block) : Fin 8 → Block := encryptEcbMmoBlocks k.mFixedKey seed
def getR8 (seed : Fin 8 → Block) : Fin 8 → Block := encryptEcbMmoBlocks k.mFixedKey2 seed
def convertBlock (b : Block) : Block := k.mFixedKey b
def convertBlock8 (b : Fin 8 → Block) : Fin 8 → Block := encryptEcbBlocks k.mFixedKey b

end

def clr8 (b : Fin 8 → Block) : Fin 8 → Block := fun i => b i &&& ~~~MSBBlock
def getT8 (b : Fin 8 → Block) : Fin 8 → Byte := fun i => ofFlag (!isZero (b i &&& MSBBlock))

theorem ofFlagXor (a b : Bool) : ofFlag a ^^^ ofFlag b = ofFlag (a ^^ b) := by
  cases a <;> cases b <;> rfl

def IsFlag (t : Byte) : Prop := t = 0#8 ∨ t = 1#8
instance (t) : Decidable (IsFlag t) := by unfold IsFlag; infer_instance

theorem ofFlagIsFlag (b : Bool) : IsFlag (ofFlag b) := by cases b <;> decide

theorem flagXor {a b : Byte} (ha : IsFlag a) (hb : IsFlag b) : IsFlag (a ^^^ b) := by
  rcases ha with rfl | rfl <;> rcases hb with rfl | rfl <;> decide

theorem maskOfZero : maskOf 0#8 = 0#128 := by decide
theorem maskOfOne : maskOf 1#8 = BitVec.allOnes 128 := by decide

theorem maskIsBranch {t : Byte} (h : IsFlag t) (cw b : Block) :
    b ^^^ (cw &&& maskOf t) = if t ≠ 0#8 then b ^^^ cw else b := by
  rcases h with rfl | rfl
  · rw [maskOfZero,BitVec.and_zero]
    simp
  · rw [maskOfOne,BitVec.and_allOnes]
    simp

theorem byteMaskIsBranch {t : Byte} (h : IsFlag t) (cw b : Byte) (hcw : IsFlag cw) :
    b ^^^ (cw &&& t) = if t ≠ 0#8 then b ^^^ cw else b := by
  rcases h with rfl | rfl <;> rcases hcw with rfl | rfl <;> simp

end ImPir.Blocks
