import Mathlib.Data.List.OfFn
import Mathlib.Logic.Function.Basic
import ImPir.LittleEndian

/-! AES-128 encryption of one block, and that it is injective under every key: a
concrete instance of the block ciphers that OpenSSL supplies. -/
namespace ImPir.Aes128
open LittleEndian Function

abbrev State := Fin 4 → Fin 4 → Byte

/- Cell `r` of column `c` is byte `4*c + r` of the block. -/
def cells (b : BitVec 128) : State := fun c r => b.extractLsb' (8*(4*c.val + r.val)) 8

def ofCells (s : State) : BitVec 128 :=
  ofBytes 128 (List.ofFn (fun i : Fin 16 => s ⟨i.val/4,by omega⟩ ⟨i.val%4,by omega⟩))

theorem cellsInjective : Injective cells := by
  intro a b same
  apply BitVec.eq_of_getLsbD_eq
  intro i hi
  have cell := congrFun (congrFun same ⟨i/32,by omega⟩) ⟨i/8%4,by omega⟩
  have bit := congrArg (fun v => v.getLsbD (i%8)) cell
  have place : 8*(4*(i/32) + i/8%4) + i%8 = i := by omega
  simpa [cells,Nat.mod_lt,place] using bit

theorem ofCellsInjective : Injective ofCells := by
  intro s t same
  funext c r
  apply BitVec.eq_of_getLsbD_eq
  intro i hi
  have bit := congrArg (fun v => v.getLsbD (8*(4*c.val + r.val) + i)) same
  have byte : (8*(4*c.val + r.val) + i)/8 = 4*c.val + r.val := by omega
  have low : (8*(4*c.val + r.val) + i)%8 = i := by omega
  have column : (4*c.val + r.val)/4 = c.val := by omega
  have row : (4*c.val + r.val)%4 = r.val := by omega
  have inside : 8*(4*c.val + r.val) + i < 128 := by omega
  have cell : 4*c.val + r.val < 16 := by omega
  simp only [ofCells,ofBytesBit,byte,low,inside,List.getD_eq_getElem?_getD,List.getElem?_ofFn,
    dif_pos cell,column,row,Option.getD_some,decide_true,Bool.true_and] at bit
  exact bit

def xtime (a : Byte) : Byte := (a <<< 1) ^^^ (if a.msb then 0x1b#8 else 0#8)

def sboxTable : List (List Nat) :=
  [[99,124,119,123,242,107,111,197,48,1,103,43,254,215,171,118],
   [202,130,201,125,250,89,71,240,173,212,162,175,156,164,114,192],
   [183,253,147,38,54,63,247,204,52,165,229,241,113,216,49,21],
   [4,199,35,195,24,150,5,154,7,18,128,226,235,39,178,117],
   [9,131,44,26,27,110,90,160,82,59,214,179,41,227,47,132],
   [83,209,0,237,32,252,177,91,106,203,190,57,74,76,88,207],
   [208,239,170,251,67,77,51,133,69,249,2,127,80,60,159,168],
   [81,163,64,143,146,157,56,245,188,182,218,33,16,255,243,210],
   [205,12,19,236,95,151,68,23,196,167,126,61,100,93,25,115],
   [96,129,79,220,34,42,144,136,70,238,184,20,222,94,11,219],
   [224,50,58,10,73,6,36,92,194,211,172,98,145,149,228,121],
   [231,200,55,109,141,213,78,169,108,86,244,234,101,122,174,8],
   [186,120,37,46,28,166,180,198,232,221,116,31,75,189,139,138],
   [112,62,181,102,72,3,246,14,97,53,87,185,134,193,29,158],
   [225,248,152,17,105,217,142,148,155,30,135,233,206,85,40,223],
   [140,161,137,13,191,230,66,104,65,153,45,15,176,84,187,22]]

def sbox (a : Byte) : Byte := BitVec.ofNat 8 ((sboxTable.getD (a.toNat/16) []).getD (a.toNat%16) 0)

def sboxBack (a : Byte) : Byte := BitVec.ofNat 8 (sboxTable.flatten.idxOf a.toNat)

theorem sboxBackSbox : ∀ a, sboxBack (sbox a) = a := by decide +kernel

theorem sboxInjective : Injective sbox := LeftInverse.injective sboxBackSbox

def subBytes (s : State) : State := fun c r => sbox (s c r)

def shiftRows (s : State) : State := fun c r => s (c + r) r

def mixColumn (a : Fin 4 → Byte) : Fin 4 → Byte :=
  fun r => xtime (a r ^^^ a (r+1)) ^^^ a (r+1) ^^^ a (r+2) ^^^ a (r+3)

def mixColumns (s : State) : State := fun c => mixColumn (s c)

def addRoundKey (key s : State) : State := fun c r => s c r ^^^ key c r

theorem subBytesInjective : Injective subBytes := by
  intro s t same
  funext c r
  exact sboxInjective (congrFun (congrFun same c) r)

theorem shiftRowsInjective : Injective shiftRows := by
  intro s t same
  funext c r
  have back : c - r + r = c := by revert c r; decide
  have cell := congrFun (congrFun same (c - r)) r
  simpa only [shiftRows,back] using cell

theorem xorCancel (a b : Byte) : a ^^^ (a ^^^ b) = b := by rw [← BitVec.xor_assoc,BitVec.xor_self,BitVec.zero_xor]

theorem xorLeftComm (a b c : Byte) : a ^^^ (b ^^^ c) = b ^^^ (a ^^^ c) := by
  rw [← BitVec.xor_assoc,BitVec.xor_comm a b,BitVec.xor_assoc]

theorem xtimeXor (a b : Byte) : xtime (a ^^^ b) = xtime a ^^^ xtime b := by
  unfold xtime
  rw [BitVec.shiftLeft_xor_distrib,BitVec.msb_xor]
  cases a.msb <;> cases b.msb <;> simp [BitVec.xor_assoc,BitVec.xor_comm,xorLeftComm]

/- Squared, the circulant of `mixColumn` couples a cell with the one opposite only. -/
theorem mixColumnTwice (a : Fin 4 → Byte) (r : Fin 4) :
    mixColumn (mixColumn a) r = a r ^^^ xtime (xtime (a r ^^^ a (r+2))) := by
  have around : r+1+1 = r+2 ∧ r+1+2 = r+3 ∧ r+1+3 = r ∧ r+2+1 = r+3 ∧ r+2+2 = r ∧ r+2+3 = r+1 ∧
      r+3+1 = r ∧ r+3+2 = r+1 ∧ r+3+3 = r+2 := by revert r; decide
  obtain ⟨h1,h2,h3,h4,h5,h6,h7,h8,h9⟩ := around
  simp only [mixColumn,h1,h2,h3,h4,h5,h6,h7,h8,h9,xtimeXor]
  generalize xtime (xtime (a r)) = p'',xtime (xtime (a (r+1))) = q'',xtime (xtime (a (r+2))) = s''
  generalize xtime (a r) = p',xtime (a (r+1)) = q',xtime (a (r+2)) = s',xtime (a (r+3)) = t'
  generalize a r = p,a (r+1) = q,a (r+2) = s,a (r+3) = t
  simp only [BitVec.xor_assoc,BitVec.xor_comm,xorLeftComm,xorCancel,BitVec.xor_self,BitVec.xor_zero]

theorem mixColumnFour (a : Fin 4 → Byte) : mixColumn (mixColumn (mixColumn (mixColumn a))) = a := by
  funext r
  have opposite : r+2+2 = r := by revert r; decide
  rw [mixColumnTwice,mixColumnTwice,mixColumnTwice,opposite]
  simp only [xtimeXor,BitVec.xor_assoc,BitVec.xor_comm,xorLeftComm,xorCancel,BitVec.xor_self,
    BitVec.xor_zero]

theorem mixColumnsInjective : Injective mixColumns := by
  intro s t same
  funext c
  have column := congrFun same c
  rw [← mixColumnFour (s c),← mixColumnFour (t c)]
  exact congrArg (fun v => mixColumn (mixColumn (mixColumn v))) column

theorem addRoundKeyInjective (key : State) : Injective (addRoundKey key) := by
  intro s t same
  funext c r
  exact BitVec.xor_left_inj (key c r) |>.mp (congrFun (congrFun same c) r)

def nextKey (rcon : Byte) (k : State) : State :=
  let turned : Fin 4 → Byte := fun r => sbox (k 3 (r+1)) ^^^ (if r = 0 then rcon else 0#8)
  fun c r =>
    let first := k 0 r ^^^ turned r
    match c with
    | 0 => first
    | 1 => first ^^^ k 1 r
    | 2 => first ^^^ k 1 r ^^^ k 2 r
    | 3 => first ^^^ k 1 r ^^^ k 2 r ^^^ k 3 r

/- The `n` round keys after `key`, each held as a block. -/
def roundKeys : Nat → Byte → BitVec 128 → List (BitVec 128)
  | 0, _, _ => []
  | n+1, rcon, key =>
      let next := ofCells (nextKey rcon (cells key))
      next :: roundKeys n (xtime rcon) next

def keyed (key block : BitVec 128) : BitVec 128 := ofCells (addRoundKey (cells key) (cells block))

def round (block key : BitVec 128) : BitVec 128 :=
  ofCells (addRoundKey (cells key) (mixColumns (shiftRows (subBytes (cells block)))))

def lastRound (block key : BitVec 128) : BitVec 128 :=
  ofCells (addRoundKey (cells key) (shiftRows (subBytes (cells block))))

def encryptUnder (key : BitVec 128) (keys : List (BitVec 128)) (last block : BitVec 128) : BitVec 128 :=
  lastRound (keys.foldl round (keyed key block)) last

def encrypt (key block : BitVec 128) : BitVec 128 :=
  let keys := roundKeys 10 1#8 key
  encryptUnder key (keys.take 9) (keys.getD 9 0#128) block

theorem keyedInjective (key : BitVec 128) : Injective (keyed key) :=
  ofCellsInjective.comp ((addRoundKeyInjective _).comp cellsInjective)

theorem roundInjective (key : BitVec 128) : Injective (fun block => round block key) :=
  ofCellsInjective.comp ((addRoundKeyInjective _).comp
    (mixColumnsInjective.comp (shiftRowsInjective.comp (subBytesInjective.comp cellsInjective))))

theorem lastRoundInjective (key : BitVec 128) : Injective (fun block => lastRound block key) :=
  ofCellsInjective.comp ((addRoundKeyInjective _).comp
    (shiftRowsInjective.comp (subBytesInjective.comp cellsInjective)))

theorem roundsInjective (keys : List (BitVec 128)) : Injective (fun block => keys.foldl round block) := by
  induction keys with
  | nil => exact injective_id
  | cons key keys ih => exact ih.comp (roundInjective key)

theorem encryptUnderInjective (key : BitVec 128) (keys : List (BitVec 128)) (last : BitVec 128) :
    Injective (encryptUnder key keys last) :=
  (lastRoundInjective last).comp ((roundsInjective keys).comp (keyedInjective key))

theorem encryptInjective (key : BitVec 128) : Injective (encrypt key) := encryptUnderInjective key _ _

example : encrypt (ofBytes 128 ((List.range 16).map (BitVec.ofNat 8)))
    (ofBytes 128 ((List.range 16).map (fun i => BitVec.ofNat 8 (17*i)))) =
    ofBytes 128 [0x69,0xc4,0xe0,0xd8,0x6a,0x7b,0x04,0x30,0xd8,0xcd,0xb7,0x80,0x70,0xb4,0xc5,0x5a] := by
  decide +kernel

end ImPir.Aes128
