import Mathlib.Algebra.BigOperators.Group.List.Basic
import Mathlib.Data.Nat.Bitwise
import ImPir.Dpf
import ImPir.PerfectTree

/-! A key of the right length answers every read of the evaluators. Under that
length alone `Eval` is a walk down the correction tree of the key and `EvalFull`
lists its leaves; the contents of the key, control bytes included, are arbitrary. -/
namespace ImPir.DpfKey
open LittleEndian Blocks Dpf PerfectTree

def KeyLength (key : List Byte) (logn : Nat) : Prop := key.length = 17 + 18*stop logn + 16

def wordAt (key : List Byte) (offset : Nat) : Block := ofBytes 128 ((key.drop offset).take 16)
def byteAt (key : List Byte) (offset : Nat) : Byte := key.getD offset 0

theorem wordRead (key : List Byte) (offset : Nat) (h : offset + 16 ≤ key.length) :
    readWord 16 key offset = some (wordAt key offset) := readWordInside h

theorem byteRead (key : List Byte) (offset : Nat) (h : offset < key.length) :
    readByte key offset = some (byteAt key offset) := by
  simp [readByte,byteAt,h]

section
variable (k : FixedKeys)

def expand (d : Bool) (seed : Block) : Block := if d then getR k seed else getL k seed

def child (key : List Byte) (lvl : Nat) (d : Bool) (n : Node) : Node :=
  let raw := expand k d n.s
  if n.t ≠ 0#8 then
    ⟨clr raw ^^^ wordAt key (17 + lvl*18),
      ofFlag (getT raw) ^^^ byteAt key (17 + lvl*18 + if d then 17 else 16)⟩
  else ⟨clr raw,ofFlag (getT raw)⟩

def root (key : List Byte) : Node := ⟨wordAt key 0,byteAt key 16⟩

def leaf (key : List Byte) (n : Node) : Block :=
  if n.t ≠ 0#8 then wordAt key (key.length - 16) ^^^ convertBlock k n.s else convertBlock k n.s

theorem rootRead {key} (h : 17 ≤ key.length) : rootNode key = some (root key) := by
  simp [rootNode,root,wordRead key 0 (by omega),
    byteRead key (16) (by omega)]

theorem childrenRead {key lvl} (n : Node) (h : 17 + lvl*18 + 18 ≤ key.length) :
    children k key lvl n = some (child k key lvl false n,child k key lvl true n) := by
  have word := wordRead key (17 + lvl*18) (by omega)
  have left := byteRead key (17 + lvl*18 + 16) (by omega)
  have right := byteRead key (17 + lvl*18 + 17) (by omega)
  by_cases set : n.t = 0#8
  · simp [children,child,expand,set]
  · simp [children,child,expand,set,word,left,right]

theorem leafRead {key} (n : Node) (h : 16 ≤ key.length) :
    leafBlock k key n = some (leaf k key n) := by
  have word := wordRead key (key.length - 16) (by omega)
  by_cases set : n.t = 0#8
  · simp [leafBlock,leaf,set]
  · simp [leafBlock,leaf,set,word]

theorem bitTest (x j : Nat) : (x &&& (1 <<< j) ≠ 0) ↔ x.testBit j = true := by
  rw [Nat.one_shiftLeft,Nat.and_two_pow]
  cases h : x.testBit j <;> simp

/- The turns that `Eval` takes for `x`: the bits of `x` from the top one down. -/
def turn (logn x i : Nat) : Bool := x.testBit (logn-1-i)

theorem evalLoopWalk {key logn} (x : Nat) (length : KeyLength key logn) {i : Nat} (h : i ≤ stop logn) :
    evalLoop k key x logn i =
      some (walk (child k key) 0 ((List.range i).map (turn logn x)) (root key)) := by
  unfold KeyLength at length
  induction i with
  | zero => exact rootRead (by omega)
  | succ i ih =>
    have inside : 17 + i*18 + 18 ≤ key.length := by omega
    rw [evalLoop,ih (by omega)]
    simp only [Option.bind_eq_bind,Option.bind_some,childrenRead k _ inside,bitTest]
    rw [List.range_succ,List.map_append,List.map_singleton,walkSnoc]
    simp only [List.length_map,List.length_range,Nat.zero_add]
    cases h : turn logn x i with
    | false => simp [turn] at h; simp [h]
    | true => simp [turn] at h; simp [h]

theorem evalFullRecursiveLeaves {key logn} (length : KeyLength key logn) {left lvl : Nat}
    (h : lvl + left ≤ stop logn) (n : Node) (res : List Byte) :
    evalFullRecursive k key left lvl n res =
      some (res ++ (leaves (child k key) left lvl n).flatMap (fun n => toBytes 16 (leaf k key n))) := by
  have enough : 17 + 18*stop logn + 16 ≤ key.length := Nat.le_of_eq length.symm
  induction left generalizing lvl n res with
  | zero => simp [evalFullRecursive,leafRead k n (by omega : 16 ≤ key.length),leaves]
  | succ left ih =>
    have inside : 17 + lvl*18 + 18 ≤ key.length := by omega
    simp [evalFullRecursive,childrenRead k n inside,ih (by omega : lvl+1 + left ≤ stop logn),leaves]

/- The 16-byte results of the leaves, leftmost first. -/
def leafBytes (key : List Byte) (logn : Nat) : List Byte :=
  (leaves (child k key) (stop logn) 0 (root key)).flatMap (fun n => toBytes 16 (leaf k key n))

theorem evalFullLeaves {key logn} (length : KeyLength key logn) (small : logn ≤ 63) :
    evalFull k key logn = some (leafBytes k key logn) := by
  have enough : 17 + 18*stop logn + 16 ≤ key.length := Nat.le_of_eq length.symm
  simp only [evalFull,if_pos small,rootRead (by omega : 17 ≤ key.length),Option.bind_eq_bind,
    Option.bind_some]
  rw [evalFullRecursiveLeaves k length (by omega)]
  rfl

theorem leafBytesLength (key : List Byte) (logn : Nat) :
    (leafBytes k key logn).length = 16 * 2^stop logn := by
  rw [leafBytes,List.length_flatMap]
  simp only [toBytesLength,List.map_const',List.sum_replicate,leavesLength]
  exact Nat.mul_comm _ _

theorem stopLevels (logn : Nat) : stop logn = logn-7 := by
  unfold stop
  split <;> omega

theorem leafNumber {logn x : Nat} (inside : x < 2^logn) : x/128 < 2^stop logn := by
  rw [stopLevels]
  by_cases deep : 7 ≤ logn
  · have split : 2^logn = 2^7 * 2^(logn-7) := by
      rw [← pow_add]
      congr 1
      omega
    exact Nat.div_lt_of_lt_mul (by omega)
  · have shallow : logn - 7 = 0 := by omega
    have bound : 2^logn ≤ 2^7 := Nat.pow_le_pow_right (by omega) (by omega)
    rw [shallow]
    omega

theorem stopBits {logn : Nat} (x : Nat) :
    (List.range (stop logn)).map (turn logn x) = turns (stop logn) (x/128) := by
  rw [turnsRange]
  apply List.map_congr_left
  intro i member
  have below : i < stop logn := by simpa using member
  have place : logn-1-i = stop logn-1-i + 7 := by
    have levels : stop logn = logn-7 := stopLevels logn
    omega
  rw [turn,place]
  exact (Nat.testBit_div_two_pow x (stop logn-1-i)).symm

/- The leaf of the tree that holds bit `x`. -/
def leafOf (key : List Byte) (logn x : Nat) : Block :=
  leaf k key (walk (child k key) 0 (turns (stop logn) (x/128)) (root key))

theorem evalBit {key logn x} (length : KeyLength key logn) (small : logn ≤ 63) (inside : x < 2^logn) :
    eval k key x logn = some ((leafOf k key logn x).getLsbD (x % 128)) := by
  have enough : 17 + 18*stop logn + 16 ≤ key.length := Nat.le_of_eq length.symm
  have low : x &&& 127 = x % 128 := Nat.and_two_pow_sub_one_eq_mod x 7
  have asserted : logn ≤ 63 ∧ x < 1 <<< logn := ⟨small,by rwa [Nat.one_shiftLeft]⟩
  have byte : x % 128 / 8 < 16 := by omega
  have place : 8*(x % 128 / 8) + x % 128 % 8 = x % 128 := by omega
  rw [eval,if_pos asserted,evalLoopWalk k x length (Nat.le_refl _),stopBits,low]
  simp only [Option.bind_eq_bind,Option.bind_some,leafRead k _ (by omega : 16 ≤ key.length),
    toBytesAt _ byte]
  have test := andOneShift ((leafOf k key logn x).extractLsb' (8*(x % 128 / 8)) 8) (x % 128 % 8) (by omega)
  rw [leafOf] at test ⊢
  simp only [test,BitVec.getLsbD_extractLsb',place,(by omega : x % 128 % 8 < 8),decide_true,
    Bool.true_and,Bool.decide_eq_true]

end
end ImPir.DpfKey
