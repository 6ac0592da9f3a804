import ImPir.Blocks
import ImPir.BufferWrites

/-! The functions of `dpf.cpp`. Keys are byte lists and every read of a key is
checked: an evaluator that reads outside its key has no result. Failed asserts
have no result either. `size_t` values stay below 2^64 here, as `logn ≤ 63`. -/
namespace ImPir.Dpf
open LittleEndian Blocks
open BufferWrites (Write replay)

section
variable (k : FixedKeys)

structure GenState where
  s0 : Block
  s1 : Block
  t0 : Byte
  t1 : Byte
  cw : List Byte
  deriving DecidableEq, Repr

def genStep (alpha logn i : Nat) (g : GenState) : GenState :=
  let s0L := getL k g.s0
  let t0L := ofFlag (getT s0L)
  let s0L := clr s0L
  let s0R := getR k g.s0
  let t0R := ofFlag (getT s0R)
  let s0R := clr s0R
  let s1L := getL k g.s1
  let t1L := ofFlag (getT s1L)
  let s1L := clr s1L
  let s1R := getR k g.s1
  let t1R := ofFlag (getT s1R)
  let s1R := clr s1R
  if alpha &&& (1 <<< (logn-1-i)) ≠ 0 then
    -- KEEP = R, LOSE = L
    let scw := s0L ^^^ s1L
    let tLCW := t0L ^^^ t1L
    let tRCW := t0R ^^^ t1R ^^^ 1#8
    { cw := g.cw ++ toBytes 16 scw ++ [tLCW,tRCW]
      s0 := if g.t0 ≠ 0#8 then s0R ^^^ scw else s0R
      s1 := if g.t1 ≠ 0#8 then s1R ^^^ scw else s1R
      t0 := if g.t0 ≠ 0#8 then t0R ^^^ tRCW else t0R
      t1 := if g.t1 ≠ 0#8 then t1R ^^^ tRCW else t1R }
  else
    -- KEEP = L, LOSE = R
    let scw := s0R ^^^ s1R
    let tLCW := t0L ^^^ t1L ^^^ 1#8
    let tRCW := t0R ^^^ t1R
    { cw := g.cw ++ toBytes 16 scw ++ [tLCW,tRCW]
      s0 := if g.t0 ≠ 0#8 then s0L ^^^ scw else s0L
      s1 := if g.t1 ≠ 0#8 then s1L ^^^ scw else s1L
      t0 := if g.t0 ≠ 0#8 then t0L ^^^ tLCW else t0L
      t1 := if g.t1 ≠ 0#8 then t1L ^^^ tLCW else t1L }

def genLoop (alpha logn : Nat) (start : GenState) : Nat → GenState
  | 0 => start
  | i+1 => genStep k alpha logn i (genLoop alpha logn start i)

def genStart (draw0 draw1 : Block) : GenState :=
  let t0 := ofFlag (getT draw0)
  { s0 := clr draw0, s1 := clr draw1, t0 := t0, t1 := ofFlag (t0 == 0#8), cw := [] }

/- The number of levels with a correction word; 7 levels are packed in the leaf. -/
def stop (logn : Nat) : Nat := if 7 ≤ logn then logn-7 else 0

def finalBlock (alpha : Nat) (s0 s1 : Block) : Block :=
  let arr := (toBytes 16 ZeroBlock).set ((alpha &&& 127)/8) (1#8 <<< ((alpha &&& 127)%8))
  ofBytes 128 arr ^^^ convertBlock k s0 ^^^ convertBlock k s1

def genFrom (draw0 draw1 : Block) (alpha logn : Nat) : Option (List Byte × List Byte) :=
  if logn ≤ 63 ∧ alpha < 1 <<< logn then
    let start := genStart draw0 draw1
    let ka := toBytes 16 start.s0 ++ [start.t0]
    let kb := toBytes 16 start.s1 ++ [start.t1]
    let g := genLoop k alpha logn start (stop logn)
    let cw := g.cw ++ toBytes 16 (finalBlock k alpha g.s0 g.s1)
    some (ka ++ cw,kb ++ cw)
  else none

structure Node where
  s : Block
  t : Byte
  deriving DecidableEq, Repr

/- The expansion written out in `Eval`, `EvalFullRecursive` and, seven times, in
`EvalFull8`: both children of a node, corrected when its control byte is set. -/
def children (key : List Byte) (lvl : Nat) (n : Node) : Option (Node × Node) := do
  let sL := getL k n.s
  let tL := ofFlag (getT sL)
  let sL := clr sL
  let sR := getR k n.s
  let tR := ofFlag (getT sR)
  let sR := clr sR
  if n.t ≠ 0#8 then
    let sCW ← readWord 16 key (17 + lvl*18)
    let tLCW ← readByte key (17 + lvl*18 + 16)
    let tRCW ← readByte key (17 + lvl*18 + 17)
    some (⟨sL ^^^ sCW,tL ^^^ tLCW⟩,⟨sR ^^^ sCW,tR ^^^ tRCW⟩)
  else some (⟨sL,tL⟩,⟨sR,tR⟩)

def rootNode (key : List Byte) : Option Node := do
  let s ← readWord 16 key 0
  let t ← readByte key 16
  some ⟨s,t⟩

def leafBlock (key : List Byte) (n : Node) : Option Block := do
  if n.t ≠ 0#8 then
    let cw ← readWord 16 key (key.length - 16)
    some (cw ^^^ convertBlock k n.s)
  else some (convertBlock k n.s)

def evalLoop (key : List Byte) (x logn : Nat) : Nat → Option Node
  | 0 => rootNode key
  | i+1 => do
    let n ← evalLoop key x logn i
    let (l,r) ← children k key i n
    some (if x &&& (1 <<< (logn-1-i)) ≠ 0 then r else l)

def eval (key : List Byte) (x logn : Nat) : Option Bool := do
  if logn ≤ 63 ∧ x < 1 <<< logn then
    let n ← evalLoop k key x logn (stop logn)
    let reg ← leafBlock k key n
    let b ← (toBytes 16 reg)[(x &&& 127)/8]?
    some (decide (b &&& (1#8 <<< ((x &&& 127)%8)) ≠ 0#8))
  else none

/- `left` is `stop - lvl`; the recursion of the source ends at `lvl == stop`. -/
def evalFullRecursive (key : List Byte) : (left lvl : Nat) → Node → List Byte → Option (List Byte)
  | 0, _, n, res => do
    let reg ← leafBlock k key n
    some (res ++ toBytes 16 reg)
  | left+1, lvl, n, res => do
    let (l,r) ← children k key lvl n
    let res ← evalFullRecursive key left (lvl+1) l res
    evalFullRecursive key left (lvl+1) r res

def evalFull (key : List Byte) (logn : Nat) : Option (List Byte) := do
  if logn ≤ 63 then
    let n ← rootNode key
    evalFullRecursive k key (stop logn) 0 n []
  else none

/- The output pointers of `EvalFull8`, as offsets into `data`, and the writes made
through them, oldest first. Nothing reads `data` before `EvalFull8` returns it. -/
structure Cursors where
  res : Fin 8 → Nat
  writes : List (Write (Fin 8) Byte)

def Cursors.memcpy (c : Cursors) (i : Fin 8) (reg : Block) : Cursors where
  res := Function.update c.res i (c.res i + 16)
  writes := c.writes ++ [⟨i,c.res i,toBytes 16 reg⟩]

structure Lanes where
  s : Fin 8 → Block
  t : Fin 8 → Byte

/- The branch-free expansion of `EvalFullRecursive8`: it reads the correction word
whatever the control bytes are and applies it through byte masks. -/
def children8 (key : List Byte) (lvl : Nat) (n : Lanes) : Option (Lanes × Lanes) := do
  let sL := getL8 k n.s
  let tL := getT8 sL
  let sL := clr8 sL
  let sR := getR8 k n.s
  let tR := getT8 sR
  let sR := clr8 sR
  let sCW ← readWord 16 key (17 + lvl*18)
  let tLCW ← readByte key (17 + lvl*18 + 16)
  let tRCW ← readByte key (17 + lvl*18 + 17)
  some (⟨fun i => sL i ^^^ (sCW &&& maskOf (n.t i)),fun i => tL i ^^^ (tLCW &&& n.t i)⟩,
    ⟨fun i => sR i ^^^ (sCW &&& maskOf (n.t i)),fun i => tR i ^^^ (tRCW &&& n.t i)⟩)

def leafBlocks8 (key : List Byte) (n : Lanes) : Option (Fin 8 → Block) := do
  let cw ← readWord 16 key (key.length - 16)
  let conv := convertBlock8 k n.s
  some (fun i => conv i ^^^ (cw &&& maskOf (n.t i)))

def evalFullRecursive8 (key : List Byte) : (left lvl : Nat) → Lanes → Cursors → Option Cursors
  | 0, _, n, c => do
    let tmp ← leafBlocks8 k key n
    some ((List.finRange 8).foldl (fun c i => c.memcpy i (tmp i)) c)
  | left+1, lvl, n, c => do
    let (l,r) ← children8 k key lvl n
    let c ← evalFullRecursive8 key left (lvl+1) l c
    evalFullRecursive8 key left (lvl+1) r c

def lanesOf (nodes : Fin 8 → Node) : Lanes := ⟨fun i => (nodes i).s,fun i => (nodes i).t⟩

def firstThreeLevels (key : List Byte) (n : Node) : Option (Fin 8 → Node) := do
  let (nL,nR) ← children k key 0 n
  let (nLL,nRL) ← children k key 1 nL
  let (nLR,nRR) ← children k key 1 nR
  let (nLLL,nRLL) ← children k key 2 nLL
  let (nLRL,nRRL) ← children k key 2 nRL
  let (nLLR,nRLR) ← children k key 2 nLR
  let (nLRR,nRRR) ← children k key 2 nRR
  some ![nLLL,nRLL,nLRL,nRRL,nLLR,nRLR,nLRR,nRRR]

def startCursors (logn : Nat) : Cursors := ⟨fun i => i.val * (1 <<< (logn-3-3)),[]⟩

def evalFull8Cursors (key : List Byte) (logn : Nat) : Option Cursors := do
  if logn ≤ 63 ∧ 3 ≤ stop logn then
    let n ← rootNode key
    let nodes ← firstThreeLevels k key n
    evalFullRecursive8 k key (stop logn - 3) 3 (lanesOf nodes) (startCursors logn)
  else none

def evalFull8 (key : List Byte) (logn : Nat) : Option (List Byte) := do
  let c ← evalFull8Cursors k key logn
  replay (List.replicate (1 <<< (logn-3)) 0) c.writes

end
end ImPir.Dpf
