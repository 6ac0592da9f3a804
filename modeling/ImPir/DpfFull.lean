import ImPir.Aes128
import ImPir.AesContext
import ImPir.DpfKey

/-! Bit `x` of the bytes of `EvalFull` is `Eval` at `x`, for keys of any contents. -/
namespace ImPir.DpfFull
open LittleEndian Blocks Dpf DpfKey PerfectTree
open AesContext (fixedKeys)

section
variable (k : FixedKeys)

theorem leafBytesAt (key : List Byte) {logn x : Nat} (inside : x < 2^logn) :
    (leafBytes k key logn)[x/8]? = some ((leafOf k key logn x).extractLsb' (8*(x % 128 / 8)) 8) := by
  have found := leavesAt (child k key) 0 (x/128) (root key) (leafNumber inside)
  have byte : x % 128 / 8 < 16 := by omega
  have place : x/8 = x/128*16 + x % 128 / 8 := by omega
  have atLeaf := flatMapItemAt (fun n => toBytes 16 (leaf k key n)) 16 (fun n _ => toBytesLength _)
    found byte
  rw [place,leafBytes,atLeaf,toBytesAt _ byte]
  rfl

theorem leafBytesBit (key : List Byte) {logn x : Nat} (inside : x < 2^logn) :
    bitAt (leafBytes k key logn) x = (leafOf k key logn x).getLsbD (x % 128) := by
  have place : 8*(x % 128 / 8) + x % 8 = x % 128 := by omega
  have low : x % 8 < 8 := by omega
  rw [bitAt,List.getD_eq_getElem?_getD,leafBytesAt k key inside]
  simp [place,low]

theorem evalFullMatchesEval {key : List Byte} {logn x : Nat} (length : key.length = (logn-7)*18 + 33)
    (small : logn ≤ 63) (inside : x < 2^logn) :
    ∃ out b byte, evalFull k key logn = some out ∧ out.length = 16 * 2^(logn-7) ∧
      eval k key x logn = some b ∧ out[x/8]? = some byte ∧ byte.getLsbD (x%8) = b := by
  have shape : KeyLength key logn := by
    rw [KeyLength,stopLevels]
    omega
  have low : x % 8 < 8 := by omega
  have place : 8*(x % 128 / 8) + x % 8 = x % 128 := by omega
  refine ⟨_,_,_,evalFullLeaves k shape small,?_,evalBit k shape small inside,
    leafBytesAt k key inside,?_⟩
  · rw [leafBytesLength,stopLevels]
  · simp [place,low]

end

theorem evalFullMatchesEvalAes : ∃ out b byte,
    evalFull (fixedKeys Aes128.encrypt) (List.replicate 69 0x80#8) 9 = some out ∧ out.length = 16 * 2^(9-7) ∧
    eval (fixedKeys Aes128.encrypt) (List.replicate 69 0x80#8) 300 9 = some b ∧ out[300/8]? = some byte ∧
    byte.getLsbD (300%8) = b :=
  evalFullMatchesEval (fixedKeys Aes128.encrypt) (by simp) (by decide) (by decide)

end ImPir.DpfFull
