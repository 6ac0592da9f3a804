import Mathlib.Algebra.Group.Defs
import ImPir.XorSum

/-! The 256-bit record: `__m256i` on the host, `uint256_t` on a DPU. Four 64-bit
words; addition of records is their XOR. -/
namespace ImPir.Records

structure Record where
  w0 : BitVec 64
  w1 : BitVec 64
  w2 : BitVec 64
  w3 : BitVec 64
  deriving DecidableEq, Repr

def Record.xor (a b : Record) : Record := ⟨a.w0 ^^^ b.w0,a.w1 ^^^ b.w1,a.w2 ^^^ b.w2,a.w3 ^^^ b.w3⟩

/- A 64-bit mask broadcast to the four words. -/
def Record.masked (a : Record) (mask : BitVec 64) : Record :=
  ⟨a.w0 &&& mask,a.w1 &&& mask,a.w2 &&& mask,a.w3 &&& mask⟩

instance : Zero Record := ⟨⟨0,0,0,0⟩⟩
instance : Add Record := ⟨Record.xor⟩

theorem addIsXor (a b : Record) : a + b = a.xor b := rfl
theorem zeroIs : (0 : Record) = ⟨0,0,0,0⟩ := rfl

instance : AddCommMonoid Record where
  add_assoc a b c := by simp [addIsXor,Record.xor,BitVec.xor_assoc]
  zero_add a := by simp [addIsXor,Record.xor,zeroIs]
  add_zero a := by simp [addIsXor,Record.xor,zeroIs]
  add_comm a b := by simp [addIsXor,Record.xor,BitVec.xor_comm]
  nsmul := nsmulRec

theorem addSelf (a : Record) : a + a = 0 := by simp [addIsXor,Record.xor,zeroIs]

/- `set_epi64x(j, j, j, j)` and the four `push_back(j)`: the record of index `j`. -/
def recordOf (j : Nat) : Record := ⟨BitVec.ofNat 64 j,BitVec.ofNat 64 j,BitVec.ofNat 64 j,BitVec.ofNat 64 j⟩

theorem maskedBit (a : Record) (b : Bool) :
    a.masked (if b then BitVec.allOnes 64 else 0) = if b then a else 0 := by
  cases b with
  | false => simp [Record.masked,zeroIs]
  | true => simp only [Record.masked,if_true,BitVec.and_allOnes]

theorem recordOfZero {j : Nat} (small : j < 2^64) : recordOf j = 0 ↔ j = 0 := by
  constructor
  · intro zero
    have word := congrArg Record.w0 zero
    have value := congrArg BitVec.toNat word
    simp only [recordOf,BitVec.toNat_ofNat,Nat.mod_eq_of_lt small] at value
    exact value
  · rintro rfl; rfl

end ImPir.Records
