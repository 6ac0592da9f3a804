import Mathlib.Algebra.Group.Action.Defs
import ImPir.Aes128
import ImPir.AesContext
import ImPir.CorrectionTree
import ImPir.DpfKey

/-! `Gen` and `Eval` as a two-party correction tree over 128-bit seeds. The bytes
`Gen` writes are the corrections of that tree, both parties' walks in `Eval` are its
walks, and the two evaluations differ at `alpha` alone. -/
namespace ImPir.DpfPoint
open LittleEndian Blocks Dpf DpfKey PerfectTree
open CorrectionTree (Correction onPath correctionAt step)
open AesContext (fixedKeys)

theorem xorCancelLeft (a b : Block) : a ^^^ (a ^^^ b) = b := by
  rw [← BitVec.xor_assoc,BitVec.xor_self,BitVec.zero_xor]

theorem xorCancelRight (a b : Block) : b ^^^ (a ^^^ b) = a := by
  rw [BitVec.xor_comm a b,xorCancelLeft]

theorem xorMaskFirst (p a b : Block) : p ^^^ a ^^^ b ^^^ a ^^^ b = p := by
  rw [BitVec.xor_assoc (p ^^^ a ^^^ b) a b,BitVec.xor_assoc p a b,BitVec.xor_assoc p,BitVec.xor_self,
    BitVec.xor_zero]

theorem xorMaskSecond (p a b : Block) : a ^^^ (p ^^^ a ^^^ b ^^^ b) = p := by
  rw [BitVec.xor_assoc (p ^^^ a) b b,BitVec.xor_self,BitVec.xor_zero,BitVec.xor_comm p a,xorCancelLeft]

theorem flagCases {t : Byte} (h : IsFlag t) : ∃ b, t = ofFlag b := by
  rcases h with rfl | rfl
  · exact ⟨false,rfl⟩
  · exact ⟨true,rfl⟩

def seedXor (a b : Block) : Block := a ^^^ b

def view (n : Node) : CorrectionTree.Node Block := ⟨n.s,decide (n.t ≠ 0#8)⟩

theorem viewFlag (s : Block) (b : Bool) : view ⟨s,ofFlag b⟩ = ⟨s,b⟩ := by cases b <;> rfl

theorem viewInjective {a b : Node} (ha : IsFlag a.t) (hb : IsFlag b.t) (same : view a = view b) : a = b := by
  obtain ⟨sa,ta⟩ := a
  obtain ⟨sb,tb⟩ := b
  obtain ⟨fa,rfl⟩ := flagCases ha
  obtain ⟨fb,rfl⟩ := flagCases hb
  simp only [viewFlag,CorrectionTree.Node.mk.injEq] at same
  rw [same.1,same.2]

def corrections (c : Correction Block) : List Byte :=
  toBytes 16 c.seed ++ [ofFlag c.left,ofFlag c.right]

section
variable (k : FixedKeys)

def treeExpand (d : Bool) (seed : Block) : CorrectionTree.Node Block :=
  ⟨clr (expand k d seed),getT (expand k d seed)⟩

theorem genStepTree (alpha logn i : Nat) (s0 s1 : Block) (b0 b1 : Bool) (cw : List Byte)
    (c : Correction Block)
    (hc : c = CorrectionTree.correction seedXor (treeExpand k) (turn logn alpha i) ⟨s0,b0⟩ ⟨s1,b1⟩) :
    genStep k alpha logn i ⟨s0,s1,ofFlag b0,ofFlag b1,cw⟩ =
      let n0 := CorrectionTree.child seedXor (treeExpand k) c (turn logn alpha i) ⟨s0,b0⟩
      let n1 := CorrectionTree.child seedXor (treeExpand k) c (turn logn alpha i) ⟨s1,b1⟩
      ⟨n0.seed,n1.seed,ofFlag n0.bit,ofFlag n1.bit,cw ++ corrections c⟩ := by
  have one : ofFlag true = 1#8 := rfl
  have flag (b : Bool) : (ofFlag b = 0#8) = (b = false) := by cases b <;> simp [ofFlag]
  subst hc
  cases kept : turn logn alpha i with
  | true =>
    have bit : alpha &&& (1 <<< (logn-1-i)) ≠ 0 := (bitTest alpha (logn-1-i)).mpr kept
    unfold genStep
    rw [if_pos bit]
    cases b0 <;> cases b1 <;>
      simp [CorrectionTree.child,CorrectionTree.correction,CorrectionTree.Correction.turn,treeExpand,
        expand,seedXor,corrections,flag,← one,ofFlagXor]
  | false =>
    have bit : ¬ alpha &&& (1 <<< (logn-1-i)) ≠ 0 := by
      rw [bitTest]; exact Bool.eq_false_iff.mp kept
    unfold genStep
    rw [if_neg bit]
    cases b0 <;> cases b1 <;>
      simp [CorrectionTree.child,CorrectionTree.correction,CorrectionTree.Correction.turn,treeExpand,
        expand,seedXor,corrections,flag,← one,ofFlagXor]

section
variable (alpha logn : Nat) (start : GenState)

def path (i : Nat) : CorrectionTree.Node Block × CorrectionTree.Node Block :=
  onPath seedXor (treeExpand k) (turn logn alpha) (view ⟨start.s0,start.t0⟩) (view ⟨start.s1,start.t1⟩) i

def cwAt (i : Nat) : Correction Block :=
  correctionAt seedXor (treeExpand k) (turn logn alpha) (view ⟨start.s0,start.t0⟩) (view ⟨start.s1,start.t1⟩) i

structure GenInvariant (i : Nat) (g : GenState) : Prop where
  flag0 : IsFlag g.t0
  flag1 : IsFlag g.t1
  node0 : view ⟨g.s0,g.t0⟩ = (path k alpha logn start i).1
  node1 : view ⟨g.s1,g.t1⟩ = (path k alpha logn start i).2
  bytes : g.cw = (List.range i).flatMap (fun j => corrections (cwAt k alpha logn start j))

theorem genStepKeeps {i g} (h : GenInvariant k alpha logn start i g) :
    GenInvariant k alpha logn start (i+1) (genStep k alpha logn i g) := by
  obtain ⟨s0,s1,t0,t1,cw⟩ := g
  obtain ⟨flag0,flag1,node0,node1,bytes⟩ := h
  obtain ⟨b0,rfl⟩ := flagCases flag0
  obtain ⟨b1,rfl⟩ := flagCases flag1
  simp only [viewFlag] at node0 node1
  have correction : cwAt k alpha logn start i =
      CorrectionTree.correction seedXor (treeExpand k) (turn logn alpha i) ⟨s0,b0⟩ ⟨s1,b1⟩ := by
    rw [node0,node1]; rfl
  rw [genStepTree k alpha logn i s0 s1 b0 b1 cw _ correction]
  refine ⟨ofFlagIsFlag _,ofFlagIsFlag _,?_,?_,?_⟩
  · rw [viewFlag,node0]; rfl
  · rw [viewFlag,node1]; rfl
  · rw [List.range_succ,List.flatMap_append,← bytes]; simp

theorem genLoopKeeps (flag0 : IsFlag start.t0) (flag1 : IsFlag start.t1)
    (empty : start.cw = []) (i : Nat) :
    GenInvariant k alpha logn start i (genLoop k alpha logn start i) := by
  induction i with
  | zero => exact ⟨flag0,flag1,rfl,rfl,empty⟩
  | succ i ih => exact genStepKeeps k alpha logn start ih

end

/- A key as `Gen` lays it out: root seed and control byte, the shared correction
words level by level, the shared final block. -/
def keyBytes (s : Block) (t : Byte) (cw : Nat → Correction Block) (levels : Nat) (last : Block) : List Byte :=
  toBytes 16 s ++ [t] ++ ((List.range levels).flatMap (fun j => corrections (cw j)) ++ toBytes 16 last)

@[simp] theorem correctionsLength (c : Correction Block) : (corrections c).length = 18 := by
  simp [corrections]

section
variable (s : Block) (t : Byte) (cw : Nat → Correction Block) (levels : Nat) (last : Block)

theorem keyBytesLength : (keyBytes s t cw levels last).length = 17 + 18*levels + 16 := by
  simp only [keyBytes,List.length_append,toBytesLength,List.length_singleton,List.length_flatMap,
    correctionsLength,List.map_const',List.sum_replicate,List.length_range,smul_eq_mul]
  omega

theorem keyBytesRoot : root (keyBytes s t cw levels last) = ⟨s,t⟩ := by
  have length := keyBytesLength s t cw levels last
  have word := readWordStored (n := 16) [] ([t] ++ ((List.range levels).flatMap (fun j => corrections (cw j)) ++
    toBytes 16 last)) s
  have byte := readByteStored (toBytes 16 s) ((List.range levels).flatMap (fun j => corrections (cw j)) ++
    toBytes 16 last) t
  have split : [] ++ toBytes 16 s ++ ([t] ++ ((List.range levels).flatMap (fun j => corrections (cw j)) ++
      toBytes 16 last)) = keyBytes s t cw levels last := by simp [keyBytes]
  have split' : toBytes 16 s ++ t :: ((List.range levels).flatMap (fun j => corrections (cw j)) ++
      toBytes 16 last) = keyBytes s t cw levels last := by simp [keyBytes]
  rw [split,List.length_nil,wordRead _ _ (by omega)] at word
  rw [split',toBytesLength,byteRead _ _ (by omega)] at byte
  rw [root,Option.some.inj word,Option.some.inj byte]

theorem keyBytesLast :
    wordAt (keyBytes s t cw levels last) ((keyBytes s t cw levels last).length - 16) = last := by
  have length := keyBytesLength s t cw levels last
  have word := readWordStored (n := 16) (toBytes 16 s ++ [t] ++ (List.range levels).flatMap (fun j => corrections (cw j)))
    [] last
  have split : toBytes 16 s ++ [t] ++ (List.range levels).flatMap (fun j => corrections (cw j)) ++
      toBytes 16 last ++ [] = keyBytes s t cw levels last := by simp [keyBytes]
  have place : (toBytes 16 s ++ [t] ++ (List.range levels).flatMap (fun j => corrections (cw j))).length =
      (keyBytes s t cw levels last).length - 16 := by
    rw [← split]; simp; omega
  rw [split,place,wordRead _ _ (by omega)] at word
  exact Option.some.inj word

theorem keyBytesCorrection {lvl : Nat} (h : lvl < levels) :
    wordAt (keyBytes s t cw levels last) (17 + lvl*18) = (cw lvl).seed ∧
    byteAt (keyBytes s t cw levels last) (17 + lvl*18 + 16) = ofFlag (cw lvl).left ∧
    byteAt (keyBytes s t cw levels last) (17 + lvl*18 + 17) = ofFlag (cw lvl).right := by
  have length := keyBytesLength s t cw levels last
  obtain ⟨before,after,split,place⟩ := flatMapRecordAt (fun j => corrections (cw j)) 18
    (fun j _ => correctionsLength (cw j)) (show (List.range levels)[lvl]? = some lvl by simp [h])
  have start : (toBytes 16 s ++ [t] ++ before).length = 17 + lvl*18 := by simp [place]; omega
  have whole : keyBytes s t cw levels last = (toBytes 16 s ++ [t] ++ before) ++ toBytes 16 (cw lvl).seed ++
      (ofFlag (cw lvl).left :: ofFlag (cw lvl).right :: (after ++ toBytes 16 last)) := by
    rw [keyBytes,split,corrections]; simp
  have word := readWordStored (n := 16) (toBytes 16 s ++ [t] ++ before)
    (ofFlag (cw lvl).left :: ofFlag (cw lvl).right :: (after ++ toBytes 16 last)) (cw lvl).seed
  have left := readByteStored ((toBytes 16 s ++ [t] ++ before) ++ toBytes 16 (cw lvl).seed)
    (ofFlag (cw lvl).right :: (after ++ toBytes 16 last)) (ofFlag (cw lvl).left)
  have right := readByteStored ((toBytes 16 s ++ [t] ++ before) ++ toBytes 16 (cw lvl).seed ++
    [ofFlag (cw lvl).left]) (after ++ toBytes 16 last) (ofFlag (cw lvl).right)
  rw [List.append_assoc _ [ofFlag (cw lvl).left],List.singleton_append] at right
  rw [← whole] at word left right
  rw [start,wordRead _ _ (by omega)] at word
  rw [List.length_append,start,toBytesLength,byteRead _ _ (by omega)] at left
  rw [List.length_append,List.length_append,start,toBytesLength,List.length_singleton,
    byteRead _ _ (by omega)] at right
  exact ⟨Option.some.inj word,Option.some.inj left,Option.some.inj right⟩

/- On such a key one step of the evaluators is one step of the tree, and it leaves a
control byte of 0 or 1 whatever the node had. -/
theorem childSimulates {lvl : Nat} (h : lvl < levels) (d : Bool) (n : Node) :
    view (child k (keyBytes s t cw levels last) lvl d n) =
      CorrectionTree.child seedXor (treeExpand k) (cw lvl) d (view n) ∧
    IsFlag (child k (keyBytes s t cw levels last) lvl d n).t := by
  obtain ⟨seed,left,right⟩ := keyBytesCorrection s t cw levels last h
  obtain ⟨sn,tn⟩ := n
  rcases eq_or_ne tn 0#8 with rfl | set
  · have same : child k (keyBytes s t cw levels last) lvl d ⟨sn,0#8⟩ =
        ⟨clr (expand k d sn),ofFlag (getT (expand k d sn))⟩ := rfl
    rw [same,viewFlag]
    exact ⟨rfl,ofFlagIsFlag _⟩
  · have same : child k (keyBytes s t cw levels last) lvl d ⟨sn,tn⟩ =
        ⟨clr (expand k d sn) ^^^ (cw lvl).seed,
          ofFlag (getT (expand k d sn) ^^ (cw lvl).turn d)⟩ := by
      cases d <;> simp [child,set,seed,left,right,CorrectionTree.Correction.turn,ofFlagXor]
    have bit : view ⟨sn,tn⟩ = ⟨sn,true⟩ := by simp [view,set]
    rw [same,viewFlag,bit]
    exact ⟨rfl,ofFlagIsFlag _⟩

theorem walkView {dirs : List Bool} (short : dirs.length ≤ levels) (n : Node) :
    view (walk (child k (keyBytes s t cw levels last)) 0 dirs n) =
      walk (fun lvl d m => CorrectionTree.child seedXor (treeExpand k) (cw lvl) d m) 0 dirs (view n) := by
  refine (walkSimulates (child k (keyBytes s t cw levels last)) view (fun _ => True) levels ?_ 0 dirs n trivial
    (by omega)).1
  intro lvl d m below _
  exact ⟨(childSimulates k s t cw levels last below d m).1,trivial⟩

theorem walkSimulatesTree {dirs : List Bool} (short : dirs.length ≤ levels) {n : Node} (flag : IsFlag n.t) :
    view (walk (child k (keyBytes s t cw levels last)) 0 dirs n) =
      walk (fun lvl d m => CorrectionTree.child seedXor (treeExpand k) (cw lvl) d m) 0 dirs (view n) ∧
    IsFlag (walk (child k (keyBytes s t cw levels last)) 0 dirs n).t := by
  apply walkSimulates (child k (keyBytes s t cw levels last)) view (fun m => IsFlag m.t) levels
  · intro lvl d m below good
    exact childSimulates k s t cw levels last below d m
  · exact flag
  · omega

end

section
variable (draw0 draw1 : Block) (alpha logn : Nat)

def finalState : GenState := genLoop k alpha logn (genStart draw0 draw1) (stop logn)

def lastBlock : Block :=
  finalBlock k alpha (finalState k draw0 draw1 alpha logn).s0 (finalState k draw0 draw1 alpha logn).s1

def keyA : List Byte :=
  keyBytes (genStart draw0 draw1).s0 (genStart draw0 draw1).t0 (cwAt k alpha logn (genStart draw0 draw1))
    (stop logn) (lastBlock k draw0 draw1 alpha logn)

def keyB : List Byte :=
  keyBytes (genStart draw0 draw1).s1 (genStart draw0 draw1).t1 (cwAt k alpha logn (genStart draw0 draw1))
    (stop logn) (lastBlock k draw0 draw1 alpha logn)

theorem startFlags : IsFlag (genStart draw0 draw1).t0 ∧ IsFlag (genStart draw0 draw1).t1 :=
  ⟨ofFlagIsFlag _,ofFlagIsFlag _⟩

theorem firstFlag : (genStart draw0 draw1).t0 = 0#8 ↔ getT draw0 = false := by
  unfold genStart
  cases getT draw0 <;> simp [ofFlag]

theorem secondFlag : (genStart draw0 draw1).t1 ≠ 0#8 ↔ getT draw0 = false := by
  unfold genStart
  cases getT draw0 <;> simp [ofFlag]

theorem startDiffer : ((view ⟨(genStart draw0 draw1).s0,(genStart draw0 draw1).t0⟩).bit ^^
    (view ⟨(genStart draw0 draw1).s1,(genStart draw0 draw1).t1⟩).bit) = true := by
  unfold genStart
  cases getT draw0 <;> rfl

theorem loopInvariant (i : Nat) :
    GenInvariant k alpha logn (genStart draw0 draw1) i (genLoop k alpha logn (genStart draw0 draw1) i) :=
  genLoopKeeps k alpha logn _ (startFlags draw0 draw1).1 (startFlags draw0 draw1).2 rfl i

theorem genFromKeys {alpha logn} (small : logn ≤ 63) (inside : alpha < 2^logn) :
    genFrom k draw0 draw1 alpha logn =
      some (keyA k draw0 draw1 alpha logn,keyB k draw0 draw1 alpha logn) := by
  have asserted : logn ≤ 63 ∧ alpha < 1 <<< logn := ⟨small,by rwa [Nat.one_shiftLeft]⟩
  have bytes := (loopInvariant k draw0 draw1 alpha logn (stop logn)).bytes
  rw [genFrom,if_pos asserted]
  simp only [bytes,keyA,keyB,keyBytes,lastBlock,finalState]

abbrev treeStep : Nat → Bool → CorrectionTree.Node Block → CorrectionTree.Node Block :=
  step seedXor (treeExpand k) (turn logn alpha)
    (view ⟨(genStart draw0 draw1).s0,(genStart draw0 draw1).t0⟩)
    (view ⟨(genStart draw0 draw1).s1,(genStart draw0 draw1).t1⟩)

theorem walkA {dirs : List Bool} (short : dirs.length ≤ stop logn) :
    let n := walk (child k (keyA k draw0 draw1 alpha logn)) 0 dirs (root (keyA k draw0 draw1 alpha logn))
    view n = walk (treeStep k draw0 draw1 alpha logn) 0 dirs
      (view ⟨(genStart draw0 draw1).s0,(genStart draw0 draw1).t0⟩) ∧ IsFlag n.t := by
  rw [keyA,keyBytesRoot]
  exact walkSimulatesTree k _ _ _ _ _ short (startFlags draw0 draw1).1

theorem walkB {dirs : List Bool} (short : dirs.length ≤ stop logn) :
    let n := walk (child k (keyB k draw0 draw1 alpha logn)) 0 dirs (root (keyB k draw0 draw1 alpha logn))
    view n = walk (treeStep k draw0 draw1 alpha logn) 0 dirs
      (view ⟨(genStart draw0 draw1).s1,(genStart draw0 draw1).t1⟩) ∧ IsFlag n.t := by
  rw [keyB,keyBytesRoot]
  exact walkSimulatesTree k _ _ _ _ _ short (startFlags draw0 draw1).2

theorem walksOnPath {i : Nat} (h : i ≤ stop logn) :
    let g := genLoop k alpha logn (genStart draw0 draw1) i
    walk (child k (keyA k draw0 draw1 alpha logn)) 0 ((List.range i).map (turn logn alpha))
      (root (keyA k draw0 draw1 alpha logn)) = ⟨g.s0,g.t0⟩ ∧
    walk (child k (keyB k draw0 draw1 alpha logn)) 0 ((List.range i).map (turn logn alpha))
      (root (keyB k draw0 draw1 alpha logn)) = ⟨g.s1,g.t1⟩ := by
  have inv := loopInvariant k draw0 draw1 alpha logn i
  have short : ((List.range i).map (turn logn alpha)).length ≤ stop logn := by simpa using h
  have onPath := CorrectionTree.walkOnPath seedXor (treeExpand k) (turn logn alpha)
    (view ⟨(genStart draw0 draw1).s0,(genStart draw0 draw1).t0⟩)
    (view ⟨(genStart draw0 draw1).s1,(genStart draw0 draw1).t1⟩) i
  have first := walkA k draw0 draw1 alpha logn short
  have second := walkB k draw0 draw1 alpha logn short
  exact ⟨viewInjective first.2 inv.flag0 (first.1.trans (onPath.1.trans inv.node0.symm)),
    viewInjective second.2 inv.flag1 (second.1.trans (onPath.2.trans inv.node1.symm))⟩

theorem walksOffPath {dirs : List Bool} (short : dirs.length ≤ stop logn)
    (off : dirs ≠ (List.range dirs.length).map (turn logn alpha)) :
    walk (child k (keyA k draw0 draw1 alpha logn)) 0 dirs (root (keyA k draw0 draw1 alpha logn)) =
      walk (child k (keyB k draw0 draw1 alpha logn)) 0 dirs (root (keyB k draw0 draw1 alpha logn)) := by
  have meet := CorrectionTree.walkOffPath seedXor (treeExpand k) (turn logn alpha)
    (view ⟨(genStart draw0 draw1).s0,(genStart draw0 draw1).t0⟩)
    (view ⟨(genStart draw0 draw1).s1,(genStart draw0 draw1).t1⟩) xorCancelLeft xorCancelRight
    (startDiffer draw0 draw1) dirs off
  have first := walkA k draw0 draw1 alpha logn short
  have second := walkB k draw0 draw1 alpha logn short
  exact viewInjective first.2 second.2 (first.1.trans (meet.trans second.1.symm))

theorem pointBlockBit {a j : Nat} (ha : a < 128) (hj : j < 128) :
    (ofBytes 128 ((toBytes 16 ZeroBlock).set (a/8) (1#8 <<< (a%8)))).getLsbD j = decide (j = a) := by
  have byte : j/8 < 16 := by omega
  have zero : ((toBytes 16 ZeroBlock).getD (j/8) 0) = 0 := by
    rw [List.getD_eq_getElem?_getD,toBytesAt _ byte]
    simp [ZeroBlock]
  rw [ofBytesBit,List.getD_eq_getElem?_getD,List.getElem?_set]
  by_cases same : a/8 = j/8
  · have inside : j/8 < (toBytes 16 ZeroBlock).length := by simpa using byte
    have low : j%8 < 8 := by omega
    have bit : (1#8 <<< (a%8)).getLsbD (j%8) = decide (a%8 = j%8) := by
      rw [← BitVec.twoPow_eq,BitVec.getLsbD_twoPow]
      simp
      omega
    rw [if_pos same,same,if_pos inside,Option.getD_some,bit]
    simp only [hj,decide_true,Bool.true_and]
    exact decide_eq_decide.mpr (by omega)
  · have other : j ≠ a := by rintro rfl; exact same rfl
    rw [if_neg same,← List.getD_eq_getElem?_getD,zero]
    simp [other]

theorem leafA (n : Node) : leaf k (keyA k draw0 draw1 alpha logn) n =
    if n.t ≠ 0#8 then lastBlock k draw0 draw1 alpha logn ^^^ convertBlock k n.s else convertBlock k n.s := by
  rw [leaf,keyA,keyBytesLast]

theorem leafB (n : Node) : leaf k (keyB k draw0 draw1 alpha logn) n =
    if n.t ≠ 0#8 then lastBlock k draw0 draw1 alpha logn ^^^ convertBlock k n.s else convertBlock k n.s := by
  rw [leaf,keyB,keyBytesLast]

theorem leavesOnPath :
    let g := finalState k draw0 draw1 alpha logn
    leaf k (keyA k draw0 draw1 alpha logn) ⟨g.s0,g.t0⟩ ^^^
      leaf k (keyB k draw0 draw1 alpha logn) ⟨g.s1,g.t1⟩ =
      ofBytes 128 ((toBytes 16 ZeroBlock).set ((alpha &&& 127)/8) (1#8 <<< ((alpha &&& 127)%8))) := by
  have inv := loopInvariant k draw0 draw1 alpha logn (stop logn)
  have differ := CorrectionTree.onPathDiffer seedXor (treeExpand k) (turn logn alpha)
    (view ⟨(genStart draw0 draw1).s0,(genStart draw0 draw1).t0⟩)
    (view ⟨(genStart draw0 draw1).s1,(genStart draw0 draw1).t1⟩) (startDiffer draw0 draw1) (stop logn)
  have node0 := inv.node0
  have node1 := inv.node1
  unfold path at node0 node1
  rw [← node0,← node1] at differ
  change ((view ⟨(finalState k draw0 draw1 alpha logn).s0,(finalState k draw0 draw1 alpha logn).t0⟩).bit ^^
    (view ⟨(finalState k draw0 draw1 alpha logn).s1,(finalState k draw0 draw1 alpha logn).t1⟩).bit) = true at differ
  dsimp only
  rw [leafA,leafB,lastBlock,finalBlock]
  generalize ofBytes 128 _ = point
  generalize finalState k draw0 draw1 alpha logn = g at differ ⊢
  simp only [view] at differ
  by_cases set0 : g.t0 = 0#8 <;> by_cases set1 : g.t1 = 0#8 <;> simp [set0,set1] at differ
  · simp only [set0,set1,ne_eq,not_true_eq_false,not_false_eq_true,if_true,if_false]
    exact xorMaskSecond point _ _
  · simp only [set0,set1,ne_eq,not_true_eq_false,not_false_eq_true,if_true,if_false]
    exact xorMaskFirst point _ _

theorem leafBitsPoint {x} (ha : alpha < 2^logn) (hx : x < 2^logn) :
    ((leafOf k (keyA k draw0 draw1 alpha logn) logn x).getLsbD (x % 128) ^^
      (leafOf k (keyB k draw0 draw1 alpha logn) logn x).getLsbD (x % 128)) = decide (x = alpha) := by
  have low : alpha &&& 127 = alpha % 128 := Nat.and_two_pow_sub_one_eq_mod alpha 7
  unfold leafOf
  by_cases on : turns (stop logn) (x/128) = turns (stop logn) (alpha/128)
  · have samePlace : x/128 = alpha/128 :=
      turnsInjective (leafNumber hx) (leafNumber ha) on
    have walks := walksOnPath k draw0 draw1 alpha logn (Nat.le_refl (stop logn))
    rw [stopBits] at walks
    rw [on,walks.1,walks.2,← BitVec.getLsbD_xor]
    have pair := leavesOnPath k draw0 draw1 alpha logn
    simp only [finalState] at pair
    rw [pair,low,pointBlockBit (by omega) (by omega)]
    exact decide_eq_decide.mpr (by omega)
  · have off : turns (stop logn) (x/128) ≠
        (List.range (turns (stop logn) (x/128)).length).map (turn logn alpha) := by
      rw [turnsLength,stopBits]; exact on
    have meet := walksOffPath k draw0 draw1 alpha logn (by simp) off
    have other : x ≠ alpha := by rintro rfl; exact on rfl
    rw [meet,leafA,leafB]
    simp [other]

theorem keyALength : KeyLength (keyA k draw0 draw1 alpha logn) logn := by
  rw [keyA]; exact keyBytesLength _ _ _ _ _

theorem keyBLength : KeyLength (keyB k draw0 draw1 alpha logn) logn := by
  rw [keyB]; exact keyBytesLength _ _ _ _ _

end

theorem evalPairIsPoint (draw0 draw1 : Block) {alpha x logn : Nat} (small : logn ≤ 63)
    (ha : alpha < 2^logn) (hx : x < 2^logn) :
    ∃ ka kb a b, genFrom k draw0 draw1 alpha logn = some (ka,kb) ∧
      eval k ka x logn = some a ∧ eval k kb x logn = some b ∧ ((a ^^ b) = true ↔ x = alpha) := by
  refine ⟨_,_,_,_,genFromKeys k draw0 draw1 small ha,
    evalBit k (keyALength k draw0 draw1 alpha logn) small hx,
    evalBit k (keyBLength k draw0 draw1 alpha logn) small hx,?_⟩
  rw [leafBitsPoint k draw0 draw1 alpha logn ha hx,decide_eq_true_eq]

end

theorem evalPairIsPointAes : ∃ ka kb a b,
    genFrom (fixedKeys Aes128.encrypt) (Aes128.encrypt TestBlock 0) (Aes128.encrypt TestBlock 1) 123456 20 =
      some (ka,kb) ∧
    eval (fixedKeys Aes128.encrypt) ka 5 20 = some a ∧ eval (fixedKeys Aes128.encrypt) kb 5 20 = some b ∧
    ((a ^^ b) = true ↔ 5 = 123456) :=
  evalPairIsPoint (fixedKeys Aes128.encrypt) _ _ (by decide) (by decide) (by decide)

end ImPir.DpfPoint
