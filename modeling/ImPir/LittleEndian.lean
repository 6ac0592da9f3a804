import Mathlib.Algebra.BigOperators.Group.List.Basic
import Mathlib.Algebra.Group.Action.Defs
import Mathlib.Data.List.Basic
import Mathlib.Data.Nat.Digits.Defs
import Mathlib.Tactic.Ring

/-! Fixed-width words as little-endian byte lists, and reads from byte lists.
A read outside the list has no value; it is never padded with zeros. -/
namespace ImPir.LittleEndian

abbrev Byte := BitVec 8

def toBytes {w : Nat} (n : Nat) (v : BitVec w) : List Byte :=
  (List.range n).map (fun k => v.extractLsb' (8*k) 8)

def ofBytes (w : Nat) : List Byte → BitVec w
  | [] => 0
  | b :: bs => b.setWidth w ||| (ofBytes w bs <<< 8)

@[simp] theorem toBytesLength {w n} (v : BitVec w) : (toBytes n v).length = n := by
  simp [toBytes]

theorem toBytesAt {w n k} (v : BitVec w) (h : k < n) :
    (toBytes n v)[k]? = some (v.extractLsb' (8*k) 8) := by
  simp [toBytes,h]

theorem ofBytesBit (w : Nat) (bs : List Byte) (i : Nat) :
    (ofBytes w bs).getLsbD i = (decide (i < w) && (bs.getD (i/8) 0).getLsbD (i%8)) := by
  induction bs generalizing i with
  | nil => simp [ofBytes]
  | cons b bs ih =>
    simp only [ofBytes,BitVec.getLsbD_or,BitVec.getLsbD_setWidth,BitVec.getLsbD_shiftLeft,ih]
    by_cases low : i < 8
    · have head : i / 8 = 0 := by omega
      have same : i % 8 = i := by omega
      simp [low,head,same]
    · obtain ⟨j,rfl⟩ : ∃ j, i = j+8 := ⟨i-8,by omega⟩
      have next : (j+8) / 8 = j/8 + 1 := by omega
      have high : b.getLsbD (j+8) = false := BitVec.getLsbD_of_ge b (j+8) (by omega)
      have rest : j+8 < w → j < w := by omega
      simp only [high,next,List.getD_cons_succ,Nat.add_mod_right]
      by_cases inside : j+8 < w
      · simp [inside,rest inside]
      · simp [inside]

/- The word is the number whose digits are the bytes. -/
theorem ofBytesDigits (w : Nat) (bs : List Byte) :
    ofBytes w bs = BitVec.ofNat w (Nat.ofDigits 256 (bs.map BitVec.toNat)) := by
  induction bs with
  | nil => rfl
  | cons b bs ih =>
    have apart : b.setWidth w &&& (ofBytes w bs <<< 8) = 0 := by
      apply BitVec.eq_of_getLsbD_eq
      intro i _
      rcases Nat.lt_or_ge i 8 with low | high
      · simp [low]
      · simp [BitVec.getLsbD_of_ge b i high]
    have base : BitVec.twoPow w 8 = BitVec.ofNat w 256 := by
      apply BitVec.eq_of_toNat_eq
      rw [BitVec.toNat_twoPow,BitVec.toNat_ofNat]
    rw [ofBytes,← BitVec.add_eq_or_of_and_eq_zero _ _ apart,ih,List.map_cons,Nat.ofDigits_cons,
      BitVec.shiftLeft_eq_mul_twoPow,base,BitVec.ofNat_add,BitVec.ofNat_mul,BitVec.ofNat_toNat,BitVec.mul_comm]

theorem ofBytesToBytes {n : Nat} (v : BitVec (8*n)) : ofBytes (8*n) (toBytes n v) = v := by
  apply BitVec.eq_of_getLsbD_eq
  intro i hi
  have inside : i/8 < n := by omega
  have place : 8*(i/8) + i%8 = i := by omega
  have low : i%8 < 8 := by omega
  rw [ofBytesBit,List.getD_eq_getElem?_getD,toBytesAt v inside]
  simp [hi,place,low]

theorem toBytesOfBytes {n : Nat} {bs : List Byte} (length : bs.length = n) : toBytes n (ofBytes (8*n) bs) = bs := by
  apply List.ext_getElem?
  intro j
  rcases Nat.lt_or_ge j n with inside | outside
  · rw [toBytesAt _ inside,List.getElem?_eq_getElem (by omega),Option.some.injEq]
    apply BitVec.eq_of_getLsbD_eq
    intro i low
    have byte : (8*j + i)/8 = j := by omega
    have bit : (8*j + i)%8 = i := by omega
    have whole : 8*j + i < 8*n := by omega
    rw [BitVec.getLsbD_extractLsb',ofBytesBit,byte,bit,List.getD_eq_getElem?_getD,
      List.getElem?_eq_getElem (by omega : j < bs.length)]
    simp [low,whole]
  · rw [List.getElem?_eq_none (by simpa using outside),List.getElem?_eq_none (by omega)]

theorem andOneShift {w : Nat} (x : BitVec w) (i : Nat) (h : i < w) :
    (x &&& (1#w <<< i) ≠ 0#w) ↔ x.getLsbD i = true := by
  rw [← BitVec.twoPow_eq,BitVec.and_twoPow]
  have nonzero : BitVec.twoPow w i ≠ 0#w := by
    intro zero
    have bit := congrArg (fun v => v.getLsbD i) zero
    simp [h] at bit
  by_cases set : x.getLsbD i = true
  · simp [set,nonzero]
  · simp [set]

theorem shiftAndOne {w : Nat} (x : BitVec w) (i : Nat) :
    (x >>> i) &&& 1#w = if x.getLsbD i then 1#w else 0#w := by
  apply BitVec.eq_of_getLsbD_eq
  intro j hj
  by_cases first : j = 0
  · subst first
    cases bit : x.getLsbD i <;> simp [bit]
  · cases bit : x.getLsbD i <;> simp [first]

def bitAt (bytes : List Byte) (i : Nat) : Bool := (bytes.getD (i/8) 0).getLsbD (i%8)

def xorBytes (a b : List Byte) : List Byte := List.zipWith (fun x y => x ^^^ y) a b

theorem bitAtXor {a b : List Byte} (same : a.length = b.length) (i : Nat) :
    bitAt (xorBytes a b) i = (bitAt a i ^^ bitAt b i) := by
  have byte : (xorBytes a b).getD (i/8) 0 = a.getD (i/8) 0 ^^^ b.getD (i/8) 0 := by
    simp only [xorBytes,List.getD_eq_getElem?_getD,List.getElem?_zipWith]
    rcases Nat.lt_or_ge (i/8) a.length with inside | outside
    · rw [List.getElem?_eq_getElem inside,List.getElem?_eq_getElem (by omega)]
      rfl
    · rw [List.getElem?_eq_none outside,List.getElem?_eq_none (by omega)]
      rfl
  rw [bitAt,byte,BitVec.getLsbD_xor]
  rfl

theorem bitAtTake {a b : List Byte} {n i : Nat} (same : a.take n = b.take n) (inside : i/8 < n) :
    bitAt a i = bitAt b i := by
  have byte := congrArg (fun l => l[i/8]?) same
  simp only [List.getElem?_take_of_lt inside] at byte
  rw [bitAt,bitAt,List.getD_eq_getElem?_getD,List.getD_eq_getElem?_getD,byte]

def readByte (bytes : List Byte) (offset : Nat) : Option Byte := bytes[offset]?

def readWord (n : Nat) (bytes : List Byte) (offset : Nat) : Option (BitVec (8*n)) :=
  if offset + n ≤ bytes.length then some (ofBytes (8*n) ((bytes.drop offset).take n)) else none

theorem readWordInside {n bytes offset} (h : offset + n ≤ bytes.length) :
    readWord n bytes offset = some (ofBytes (8*n) ((bytes.drop offset).take n)) := if_pos h

theorem readWordStored {n : Nat} (before after : List Byte) (v : BitVec (8*n)) :
    readWord n (before ++ toBytes n v ++ after) before.length = some v := by
  have inside : before.length + n ≤ (before ++ toBytes n v ++ after).length := by simp
  have exact : ((before ++ toBytes n v ++ after).drop before.length).take n = toBytes n v := by
    rw [List.append_assoc,List.drop_left' rfl,List.take_left' (by simp)]
  rw [readWordInside inside,exact,ofBytesToBytes]

theorem readByteStored (before after : List Byte) (b : Byte) :
    readByte (before ++ b :: after) before.length = some b := by
  simp [readByte]

theorem flatMapRecordAt {α β : Type} (encode : α → List β) (size : Nat) {xs : List α}
    (fixed : ∀ a ∈ xs, (encode a).length = size) {i : Nat} {x : α} (found : xs[i]? = some x) :
    ∃ before after, xs.flatMap encode = before ++ encode x ++ after ∧ before.length = i*size := by
  induction xs generalizing i with
  | nil => simp at found
  | cons head tail ih =>
    cases i with
    | zero =>
      simp only [List.getElem?_cons_zero,Option.some.injEq] at found
      subst head
      exact ⟨[],tail.flatMap encode,by simp,by simp⟩
    | succ i =>
      obtain ⟨before,after,split,place⟩ :=
        ih (fun a member => fixed a (List.mem_cons_of_mem _ member)) (by simpa using found)
      refine ⟨encode head ++ before,after,by simp [split],?_⟩
      rw [List.length_append,fixed head List.mem_cons_self,place]
      ring

theorem flatMapItemAt {α β : Type} (encode : α → List β) (size : Nat) {xs : List α}
    (fixed : ∀ a ∈ xs, (encode a).length = size) {i : Nat} {x : α} (found : xs[i]? = some x)
    {j : Nat} (inside : j < size) : (xs.flatMap encode)[i*size + j]? = (encode x)[j]? := by
  obtain ⟨before,after,split,place⟩ := flatMapRecordAt encode size fixed found
  have short : j < (encode x).length := by
    rw [fixed x (List.mem_of_getElem? found)]
    exact inside
  rw [split,List.append_assoc,← place,List.getElem?_append_right (by omega),Nat.add_sub_cancel_left,
    List.getElem?_append_left short]

theorem flatMapLength {α β : Type} (encode : α → List β) (size : Nat) {xs : List α}
    (fixed : ∀ a ∈ xs, (encode a).length = size) : (xs.flatMap encode).length = xs.length*size := by
  rw [List.length_flatMap,List.map_congr_left fixed,List.map_const',List.sum_replicate,smul_eq_mul]

end ImPir.LittleEndian
