import Mathlib.Data.Fintype.Basic
import Mathlib.Data.List.FinRange
import Mathlib.Tactic.FinCases
import ImPir.DpfPoint
import ImPir.DpfFull

/-! The eight-lane evaluator. On control bytes 0 and 1 the byte masks are branches,
each lane walks its own subtree of level 3, and the eight pointers fill the eight
parts of the buffer in order. -/
namespace ImPir.DpfLanes
open LittleEndian Blocks Dpf DpfKey PerfectTree
open BufferWrites (Write replay)
open AesContext (fixedKeys)

structure FlaggedKey (key : List Byte) (logn : Nat) : Prop where
  length : key.length = 17 + 18*(logn-7) + 16
  root : IsFlag (byteAt key 16)
  levels : ∀ lvl < logn-7, IsFlag (byteAt key (17 + lvl*18 + 16)) ∧ IsFlag (byteAt key (17 + lvl*18 + 17))

section
variable (k : FixedKeys)

theorem flaggedLength {key logn} (h : FlaggedKey key logn) : KeyLength key logn := by
  rw [KeyLength,stopLevels]; exact h.length

theorem childFlag {key logn lvl} (h : FlaggedKey key logn) (below : lvl < logn-7) (d : Bool) {n : Node} :
    IsFlag (child k key lvl d n).t := by
  have flags := h.levels lvl below
  unfold child
  split
  · cases d
    · exact flagXor (ofFlagIsFlag _) flags.1
    · exact flagXor (ofFlagIsFlag _) flags.2
  · exact ofFlagIsFlag _

def child8 (key : List Byte) (lvl : Nat) (d : Bool) (nodes : Fin 8 → Node) : Fin 8 → Node :=
  fun i => child k key lvl d (nodes i)

theorem children8Read {key logn lvl} (h : FlaggedKey key logn) (below : lvl < logn-7)
    {nodes : Fin 8 → Node} (flags : ∀ i, IsFlag (nodes i).t) :
    children8 k key lvl (lanesOf nodes) =
      some (lanesOf (child8 k key lvl false nodes),lanesOf (child8 k key lvl true nodes)) := by
  have length := h.length
  have levels := h.levels lvl below
  rw [children8,wordRead key (17 + lvl*18) (by omega),byteRead key (17 + lvl*18 + 16) (by omega),
    byteRead key (17 + lvl*18 + 17) (by omega)]
  simp only [Option.bind_eq_bind,Option.bind_some,Option.some.injEq,Prod.mk.injEq]
  constructor
  · simp only [lanesOf,child8,child,Lanes.mk.injEq]
    constructor
    · funext i
      rw [maskIsBranch (flags i)]
      split <;> rfl
    · funext i
      rw [byteMaskIsBranch (flags i) _ _ levels.1]
      split <;> rfl
  · simp only [lanesOf,child8,child,Lanes.mk.injEq]
    constructor
    · funext i
      rw [maskIsBranch (flags i)]
      split <;> rfl
    · funext i
      rw [byteMaskIsBranch (flags i) _ _ levels.2]
      split <;> rfl

theorem leafBlocks8Read {key logn} (h : FlaggedKey key logn) {nodes : Fin 8 → Node}
    (flags : ∀ i, IsFlag (nodes i).t) :
    leafBlocks8 k key (lanesOf nodes) = some (fun i => leaf k key (nodes i)) := by
  have length := h.length
  rw [leafBlocks8,wordRead key (key.length - 16) (by omega)]
  simp only [Option.bind_eq_bind,Option.bind_some,Option.some.injEq]
  funext i
  rw [lanesOf,maskIsBranch (flags i)]
  simp only [leaf,convertBlock8,encryptEcbBlocks,convertBlock]
  split
  · exact BitVec.xor_comm _ _
  · rfl

def laneWrites (res : Fin 8 → Nat) (row : Fin 8 → Block) : List (Write (Fin 8) Byte) :=
  (List.finRange 8).map (fun i => ⟨i,res i,toBytes 16 (row i)⟩)

/- The writes of a run of leaves: eight at a time, every pointer 16 bytes further on. -/
def rowsWrites (res : Fin 8 → Nat) : List (Fin 8 → Block) → List (Write (Fin 8) Byte)
  | [] => []
  | row :: rows => laneWrites res row ++ rowsWrites (fun i => res i + 16) rows

theorem rowsWritesAppend (res : Fin 8 → Nat) (front back : List (Fin 8 → Block)) :
    rowsWrites res (front ++ back) =
      rowsWrites res front ++ rowsWrites (fun i => res i + 16*front.length) back := by
  induction front generalizing res with
  | nil => rfl
  | cons row front ih =>
    simp only [List.cons_append,rowsWrites,ih,List.append_assoc,List.length_cons]
    congr 3
    funext i
    omega

theorem memcpyLanes (c : Cursors) (row : Fin 8 → Block) :
    (List.finRange 8).foldl (fun c i => c.memcpy i (row i)) c =
      ⟨fun i => c.res i + 16,c.writes ++ laneWrites c.res row⟩ := by
  have prefixes : ∀ (lanes : List (Fin 8)), lanes.Nodup → ∀ c : Cursors,
      lanes.foldl (fun c i => c.memcpy i (row i)) c =
        ⟨fun i => if i ∈ lanes then c.res i + 16 else c.res i,
          c.writes ++ lanes.map (fun i => ⟨i,c.res i,toBytes 16 (row i)⟩)⟩ := by
    intro lanes distinct
    induction lanes with
    | nil => intro c; simp
    | cons j lanes ih =>
      intro c
      obtain ⟨fresh,distinct⟩ := List.nodup_cons.mp distinct
      rw [List.foldl_cons,ih distinct]
      simp only [Cursors.memcpy,Cursors.mk.injEq]
      constructor
      · funext i
        by_cases same : i = j
        · subst same; simp [fresh]
        · simp [same]
      · have kept : lanes.map (fun i => (⟨i,Function.update c.res j (c.res j + 16) i,toBytes 16 (row i)⟩ :
            Write (Fin 8) Byte)) = lanes.map (fun i => ⟨i,c.res i,toBytes 16 (row i)⟩) := by
          apply List.map_congr_left
          intro i member
          have other : i ≠ j := by rintro rfl; exact fresh member
          simp [other]
        rw [kept]
        simp
  rw [prefixes _ (List.nodup_finRange 8)]
  simp [laneWrites]

theorem evalFullRecursive8Writes {key logn} (h : FlaggedKey key logn) {left lvl : Nat}
    (inside : lvl + left ≤ logn-7) {nodes : Fin 8 → Node} (flags : ∀ i, IsFlag (nodes i).t) (c : Cursors) :
    evalFullRecursive8 k key left lvl (lanesOf nodes) c =
      some ⟨fun i => c.res i + 16*2^left,
        c.writes ++ rowsWrites c.res ((leaves (child8 k key) left lvl nodes).map
          (fun row i => leaf k key (row i)))⟩ := by
  induction left generalizing lvl nodes c with
  | zero =>
    simp only [evalFullRecursive8,leafBlocks8Read k h flags,Option.bind_eq_bind,Option.bind_some,
      memcpyLanes,leaves,List.map_cons,List.map_nil,rowsWrites,List.append_nil]
    rfl
  | succ left ih =>
    have below : lvl < logn-7 := by omega
    have next : lvl+1 + left ≤ logn-7 := by omega
    have leftFlags : ∀ i, IsFlag (child8 k key lvl false nodes i).t := fun i => childFlag k h below false
    have rightFlags : ∀ i, IsFlag (child8 k key lvl true nodes i).t := fun i => childFlag k h below true
    simp only [evalFullRecursive8,children8Read k h below flags,Option.bind_eq_bind,Option.bind_some,
      ih next leftFlags,ih next rightFlags,leaves,List.map_append,rowsWritesAppend,List.length_map,
      leavesLength,List.append_assoc]
    congr 2
    funext i
    ring

theorem rowsWritesMember {res : Fin 8 → Nat} {rows : List (Fin 8 → Block)} {w}
    (member : w ∈ rowsWrites res rows) :
    ∃ j row, rows[j]? = some row ∧ w = ⟨w.lane,res w.lane + 16*j,toBytes 16 (row w.lane)⟩ := by
  induction rows generalizing res with
  | nil => cases member
  | cons row rows ih =>
    rcases List.mem_append.mp member with first | later
    · obtain ⟨i,_,rfl⟩ := List.mem_map.mp first
      exact ⟨0,row,rfl,rfl⟩
    · obtain ⟨j,row',found,same⟩ := ih later
      refine ⟨j+1,row',found,?_⟩
      have shift : res w.lane + 16*(j+1) = res w.lane + 16 + 16*j := by omega
      rw [shift]
      exact same

theorem laneRow (res : Fin 8 → Nat) (row : Fin 8 → Block) (i : Fin 8) :
    (laneWrites res row).filter (fun w => w.lane = i) = [⟨i,res i,toBytes 16 (row i)⟩] := by
  have one : (List.finRange 8).filter (fun j => j = i) = [i] := by revert i; decide
  rw [laneWrites,List.filter_map]
  simp only [Function.comp_def,one,List.map_cons,List.map_nil]

theorem laneAddresses (res : Fin 8 → Nat) (rows : List (Fin 8 → Block)) (i : Fin 8) :
    ((rowsWrites res rows).filter (fun w => w.lane = i)).map (fun w => (w.address,w.bytes.length)) =
      (List.range rows.length).map (fun j => (res i + 16*j,16)) := by
  induction rows generalizing res with
  | nil => rfl
  | cons row rows ih =>
    rw [rowsWrites,List.filter_append,laneRow,List.map_append,ih,List.length_cons,List.range_succ_eq_map]
    simp only [List.map_cons,List.map_nil,List.singleton_append,List.map_map,toBytesLength,Nat.mul_zero,
      Nat.add_zero]
    congr 1
    apply List.map_congr_left
    intro j _
    simp only [Function.comp_apply,Nat.succ_eq_add_one,Prod.mk.injEq,and_true]
    omega

theorem countSplit {α : Type} (l : List α) (p q r : α → Bool) (split : ∀ a, r a = (p a || q a))
    (apart : ∀ a, ¬ (p a = true ∧ q a = true)) : l.countP p + l.countP q = l.countP r := by
  induction l with
  | nil => rfl
  | cons a l ih =>
    have here := apart a
    simp only [List.countP_cons,split a]
    cases hp : p a <;> cases hq : q a <;> simp [hp,hq] at here ⊢ <;> omega

theorem coverCount (res : Fin 8 → Nat) (rows : List (Fin 8 → Block)) (p : Nat) :
    (rowsWrites res rows).countP (fun w => w.Covers p) =
      (List.finRange 8).countP (fun i => decide (res i ≤ p ∧ p < res i + 16*rows.length)) := by
  induction rows generalizing res with
  | nil =>
    have empty : ∀ i : Fin 8, decide (res i ≤ p ∧ p < res i + 16*([] : List (Fin 8 → Block)).length) = false :=
      fun i => decide_eq_false (by simp only [List.length_nil]; omega)
    simp only [rowsWrites,empty,List.countP_nil,List.countP_false]
    rfl
  | cons row rows ih =>
    rw [rowsWrites,List.countP_append,ih,laneWrites,List.countP_map]
    apply countSplit
    · intro i
      simp only [Function.comp_apply,Write.Covers,toBytesLength,List.length_cons]
      rw [← Bool.decide_or]
      exact decide_eq_decide.mpr (by omega)
    · intro i
      simp only [Function.comp_apply,Write.Covers,toBytesLength,decide_eq_true_eq]
      omega

theorem oneLane {part p : Nat} (inside : p < 8*part) :
    (List.finRange 8).countP (fun i => decide (i.val*part ≤ p ∧ p < i.val*part + part)) = 1 := by
  have positive : 0 < part := by omega
  have small : p/part < 8 := Nat.div_lt_of_lt_mul (by omega)
  have same : ∀ i : Fin 8, decide (i.val*part ≤ p ∧ p < i.val*part + part) = (i == ⟨p/part,small⟩) := by
    intro i
    have quotient : p/part = i.val ↔ _ := Nat.div_eq_iff positive
    have lane : (i.val*part ≤ p ∧ p < i.val*part + part) ↔ i = ⟨p/part,small⟩ := by
      rw [Fin.ext_iff,@eq_comm Nat i.val,quotient]
      omega
    rw [beq_eq_decide]
    exact decide_eq_decide.mpr lane
  simp only [same]
  exact List.count_eq_one_of_mem (List.nodup_finRange 8) (List.mem_finRange _)

theorem firstThreeLevelsRead {key logn} (h : FlaggedKey key logn) (deep : 10 ≤ logn) (n : Node) :
    ∃ nodes, firstThreeLevels k key n = some nodes ∧
      List.ofFn nodes = leaves (child k key) 3 0 n ∧ ∀ i, IsFlag (nodes i).t := by
  have length := h.length
  have flag (d : Bool) (m : Node) : IsFlag (child k key 2 d m).t := childFlag k h (by omega) d
  have read (lvl : Nat) (low : lvl < 3) (m : Node) :
      children k key lvl m = some (child k key lvl false m,child k key lvl true m) :=
    childrenRead k m (by omega)
  simp only [firstThreeLevels,read 0 (by omega),read 1 (by omega),read 2 (by omega),
    Option.bind_eq_bind,Option.bind_some]
  refine ⟨_,rfl,rfl,?_⟩
  intro i
  fin_cases i <;> exact flag _ _

/- The leaves of the whole tree are, lane after lane, the leaves of the eight subtrees. -/
theorem leavesByLane {key logn} (deep : 10 ≤ logn) {n : Node} {nodes : Fin 8 → Node}
    (cut : List.ofFn nodes = leaves (child k key) 3 0 n) (i : Fin 8) {j : Nat} {leafNode : Node}
    (found : (leaves (child k key) (logn-10) 3 (nodes i))[j]? = some leafNode) :
    (leaves (child k key) (stop logn) 0 n)[i.val*2^(logn-10) + j]? = some leafNode := by
  have depth : stop logn = 3 + (logn-10) := by rw [stopLevels]; omega
  have short : j < 2^(logn-10) := by
    rw [← leavesLength (child k key) (logn-10) 3 (nodes i)]
    exact (List.getElem?_eq_some_iff.mp found).1
  have node : (leaves (child k key) 3 0 n)[i.val]? = some (nodes i) := by
    rw [← cut,List.getElem?_ofFn,dif_pos i.isLt]
  rw [depth,leavesCut,flatMapItemAt _ (2^(logn-10)) (fun m _ => leavesLength _ _ _ m) node short]
  exact found

theorem rowAt {key logn} (nodes : Fin 8 → Node) (i : Fin 8) (j : Nat) {row : Fin 8 → Block}
    (found : ((leaves (child8 k key) (logn-10) 3 nodes).map (fun r i => leaf k key (r i)))[j]? = some row) :
    ∃ n, (leaves (child k key) (logn-10) 3 (nodes i))[j]? = some n ∧ row i = leaf k key n := by
  rw [List.getElem?_map,Option.map_eq_some_iff] at found
  obtain ⟨r,hr,rfl⟩ := found
  have lane := leavesMap (child8 k key) (fun r => r i) (fun level d s => rfl) (logn-10) 3 nodes
  refine ⟨r i,?_,rfl⟩
  rw [← lane,List.getElem?_map,hr]
  rfl

section
variable {key : List Byte} {logn : Nat} (deep : 10 ≤ logn)
include deep

theorem partSize : 1 <<< (logn-3-3) = 16 * 2^(logn-10) := by
  rw [Nat.one_shiftLeft,show 16 = 2^4 from rfl,← pow_add]
  congr 1
  omega

theorem bufferSize : 1 <<< (logn-3) = 8 * (16 * 2^(logn-10)) := by
  rw [Nat.one_shiftLeft,show 8 = 2^3 from rfl,show 16 = 2^4 from rfl,← pow_add,← pow_add]
  congr 1
  omega

theorem cursorsRead (small : logn ≤ 63) (h : FlaggedKey key logn) :
    ∃ nodes, List.ofFn nodes = leaves (child k key) 3 0 (root key) ∧
      evalFull8Cursors k key logn = some ⟨fun i => (startCursors logn).res i + 16*2^(logn-10),
        rowsWrites (startCursors logn).res
          ((leaves (child8 k key) (logn-10) 3 nodes).map (fun row i => leaf k key (row i)))⟩ := by
  have length := h.length
  have depth : stop logn = logn-7 := stopLevels logn
  have rest : stop logn - 3 = logn-10 := by omega
  have asserted : logn ≤ 63 ∧ 3 ≤ stop logn := ⟨small,by omega⟩
  obtain ⟨nodes,three,cut,flags⟩ := firstThreeLevelsRead k h deep (root key)
  refine ⟨nodes,cut,?_⟩
  rw [evalFull8Cursors,if_pos asserted,rootRead (by omega)]
  simp only [Option.bind_eq_bind,Option.bind_some,three,rest]
  rw [evalFullRecursive8Writes k h (by omega) flags]
  rfl

theorem writeMatches {nodes : Fin 8 → Node} (cut : List.ofFn nodes = leaves (child k key) 3 0 (root key))
    {w} (member : w ∈ rowsWrites (startCursors logn).res
      ((leaves (child8 k key) (logn-10) 3 nodes).map (fun row i => leaf k key (row i)))) :
    w.address + w.bytes.length ≤ 1 <<< (logn-3) ∧
    ∀ p, w.Covers p → w.bytes[p - w.address]? = (leafBytes k key logn)[p]? := by
  obtain ⟨j,row,found,same⟩ := rowsWritesMember member
  obtain ⟨n,place,value⟩ := rowAt k nodes w.lane j found
  have whole := leavesByLane k deep cut w.lane place
  have short : j < 2^(logn-10) := by
    rw [← leavesLength (child k key) (logn-10) 3 (nodes w.lane)]
    exact (List.getElem?_eq_some_iff.mp place).1
  have address : w.address = (w.lane.val*2^(logn-10) + j)*16 := by
    have res : (startCursors logn).res w.lane = w.lane.val*(1 <<< (logn-3-3)) := rfl
    have field := congrArg Write.address same
    simp only [res,partSize deep] at field
    rw [field]
    ring
  have bytes : w.bytes = toBytes 16 (leaf k key n) := (congrArg Write.bytes same).trans (by rw [value])
  constructor
  · have lane : w.lane.val + 1 ≤ 8 := w.lane.isLt
    have bound : (w.lane.val + 1)*2^(logn-10) ≤ 8*2^(logn-10) := Nat.mul_le_mul_right _ lane
    rw [bytes,toBytesLength,address,bufferSize deep]
    rw [Nat.add_mul] at bound
    omega
  · intro p hit
    obtain ⟨low,high⟩ := hit
    rw [bytes,toBytesLength] at high
    obtain ⟨r,rfl⟩ : ∃ r, p = w.address + r := ⟨p - w.address,by omega⟩
    have inside : r < 16 := by omega
    rw [Nat.add_sub_cancel_left,bytes,address,leafBytes,
      flatMapItemAt _ 16 (fun m _ => toBytesLength _) whole inside]

end

theorem keyBytesFlagged {logn : Nat} (s : Block) {t : Byte} (flag : IsFlag t)
    (cw : Nat → CorrectionTree.Correction Block) (last : Block) :
    FlaggedKey (DpfPoint.keyBytes s t cw (stop logn) last) logn := by
  constructor
  · rw [DpfPoint.keyBytesLength,stopLevels]
  · have byte : byteAt (DpfPoint.keyBytes s t cw (stop logn) last) 16 = t :=
      congrArg Node.t (DpfPoint.keyBytesRoot s t cw (stop logn) last)
    rw [byte]
    exact flag
  · intro lvl below
    rw [← stopLevels] at below
    have read := DpfPoint.keyBytesCorrection s t cw (stop logn) last below
    exact ⟨read.2.1 ▸ ofFlagIsFlag _,read.2.2 ▸ ofFlagIsFlag _⟩

theorem genKeysFlagged {draw0 draw1 alpha logn ka kb} (ok : genFrom k draw0 draw1 alpha logn = some (ka,kb)) :
    FlaggedKey ka logn ∧ FlaggedKey kb logn := by
  have asserted : logn ≤ 63 ∧ alpha < 1 <<< logn := by
    by_contra fails
    rw [genFrom,if_neg fails] at ok
    cases ok
  rw [Nat.one_shiftLeft] at asserted
  rw [DpfPoint.genFromKeys k draw0 draw1 asserted.1 asserted.2] at ok
  cases Option.some.inj ok
  have flags := DpfPoint.startFlags draw0 draw1
  exact ⟨keyBytesFlagged _ flags.1 _ _,keyBytesFlagged _ flags.2 _ _⟩

theorem coveredOnce (key : List Byte) {logn} (deep : 10 ≤ logn) (nodes : Fin 8 → Node) {p : Nat}
    (inside : p < 1 <<< (logn-3)) :
    (rowsWrites (startCursors logn).res ((leaves (child8 k key) (logn-10) 3 nodes).map
      (fun row i => leaf k key (row i)))).countP (fun w => w.Covers p) = 1 := by
  rw [bufferSize deep] at inside
  rw [coverCount]
  simp only [List.length_map,leavesLength,startCursors,partSize deep]
  exact oneLane inside

theorem evalFull8Output {key logn} (deep : 10 ≤ logn) (small : logn ≤ 63) (h : FlaggedKey key logn) :
    evalFull8 k key logn = some (leafBytes k key logn) := by
  obtain ⟨nodes,cut,cursors⟩ := cursorsRead k deep small h
  have size : (List.replicate (1 <<< (logn-3)) (0 : Byte)).length = 1 <<< (logn-3) := List.length_replicate
  have total : (leafBytes k key logn).length = 1 <<< (logn-3) := by
    rw [leafBytesLength,stopLevels,bufferSize deep,← Nat.mul_assoc,Nat.mul_comm 8 16,Nat.mul_assoc]
    congr 1
    rw [show 8 = 2^3 from rfl,← pow_add]
    congr 1
    omega
  rw [evalFull8,cursors]
  simp only [Option.bind_eq_bind,Option.bind_some]
  obtain ⟨out,replayed,length⟩ := BufferWrites.replayFits (fun w member => by
    rw [size]; exact (writeMatches k deep cut member).1)
  rw [replayed]
  congr 1
  apply List.ext_getElem?
  intro p
  by_cases inside : p < 1 <<< (logn-3)
  · have once := coveredOnce k key deep nodes inside
    obtain ⟨w,member,hit⟩ := List.countP_pos_iff.mp (once ▸ Nat.one_pos)
    exact BufferWrites.replayCovered replayed ⟨w,member,by simpa using hit⟩
      (fun v member hit => (writeMatches k deep cut member).2 p hit)
  · rw [List.getElem?_eq_none (by omega),List.getElem?_eq_none (by omega)]

theorem evalFull8MatchesEvalFull {logn : Nat} (deep : 10 ≤ logn) (small : logn ≤ 63) :
    (∀ key, FlaggedKey key logn → ∃ c out, evalFull8Cursors k key logn = some c ∧
      evalFull8 k key logn = some out ∧ evalFull k key logn = some out ∧
      (∀ i : Fin 8, c.res i = (i.val+1)*2^(logn-6) ∧
        (c.writes.filter (fun w => w.lane = i)).map (fun w => (w.address,w.bytes.length)) =
          (List.range (2^(logn-10))).map (fun j => (i.val*2^(logn-6) + 16*j,16))) ∧
      ∀ p < 2^(logn-3), c.writes.countP (fun w => w.Covers p) = 1) ∧
    ∀ draw0 draw1 alpha ka kb, genFrom k draw0 draw1 alpha logn = some (ka,kb) →
      FlaggedKey ka logn ∧ FlaggedKey kb logn := by
  refine ⟨?_,fun _ _ _ _ _ ok => genKeysFlagged k ok⟩
  intro key h
  obtain ⟨nodes,cut,cursors⟩ := cursorsRead k deep small h
  have part : 2^(logn-6) = 16*2^(logn-10) := by
    rw [← partSize deep,Nat.one_shiftLeft]
    congr 1
  refine ⟨_,_,cursors,evalFull8Output k deep small h,evalFullLeaves k (flaggedLength h) small,?_,?_⟩
  · intro i
    constructor
    · simp only [startCursors,partSize deep,part]
      ring
    · rw [laneAddresses,List.length_map,leavesLength]
      simp only [startCursors,partSize deep,part]
  · intro p inside
    exact coveredOnce k key deep nodes (by rwa [Nat.one_shiftLeft])

end

theorem evalFull8MatchesEvalFullAes : ∃ ka kb c out,
    genFrom (fixedKeys Aes128.encrypt) (Aes128.encrypt TestBlock 0) (Aes128.encrypt TestBlock 1) 4321 13 =
      some (ka,kb) ∧ FlaggedKey kb 13 ∧
    evalFull8Cursors (fixedKeys Aes128.encrypt) ka 13 = some c ∧
    evalFull8 (fixedKeys Aes128.encrypt) ka 13 = some out ∧
    evalFull (fixedKeys Aes128.encrypt) ka 13 = some out := by
  have inside : 4321 < 2^13 := by decide
  have keys := DpfPoint.genFromKeys (fixedKeys Aes128.encrypt) (Aes128.encrypt TestBlock 0)
    (Aes128.encrypt TestBlock 1) (by decide) inside
  have whole := evalFull8MatchesEvalFull (fixedKeys Aes128.encrypt) (by decide : 10 ≤ 13) (by decide)
  have flagged := whole.2 _ _ _ _ _ keys
  obtain ⟨c,out,cursors,fast,slow,_⟩ := whole.1 _ flagged.1
  exact ⟨_,_,c,out,keys,flagged.2,cursors,fast,slow⟩

end ImPir.DpfLanes
