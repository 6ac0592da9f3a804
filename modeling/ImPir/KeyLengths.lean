import ImPir.KeyFormat

/-! Keys of any length. The offsets at which an evaluator reads, the last 16 bytes apart, depend
on `logn` alone: a key that covers them is used as a key of the exact length, and on a shorter
one `EvalFull8` always gets to a read outside the key. -/
namespace ImPir.KeyLengths
open LittleEndian Blocks Dpf DpfKey KeyFormat
open DpfLanes (rowsWrites rowsWritesAppend rowsWritesMember memcpyLanes laneWrites partSize bufferSize)
open AesContext (fixedKeys)

structure SameReads (levels : Nat) (key other : List Byte) : Prop where
  root : rootNode key = rootNode other
  word : ∀ lvl < levels, readWord 16 key (17 + lvl*18) = readWord 16 other (17 + lvl*18)
  left : ∀ lvl < levels, readByte key (17 + lvl*18 + 16) = readByte other (17 + lvl*18 + 16)
  right : ∀ lvl < levels, readByte key (17 + lvl*18 + 17) = readByte other (17 + lvl*18 + 17)
  last : readWord 16 key (key.length - 16) = readWord 16 other (other.length - 16)

section
variable (k : FixedKeys) {key other : List Byte} {logn levels : Nat}

theorem childrenSame (same : SameReads levels key other) {lvl : Nat} (below : lvl < levels) (n : Node) :
    children k key lvl n = children k other lvl n := by
  simp only [children,same.word lvl below,same.left lvl below,same.right lvl below]

theorem leafBlockSame (same : SameReads levels key other) (n : Node) :
    leafBlock k key n = leafBlock k other n := by
  simp only [leafBlock,same.last]

theorem evalLoopSame (same : SameReads levels key other) (x : Nat) {i : Nat} (inside : i ≤ levels) :
    evalLoop k key x logn i = evalLoop k other x logn i := by
  induction i with
  | zero => exact same.root
  | succ i ih =>
    have step (n : Node) := childrenSame k same (by omega : i < levels) n
    simp only [evalLoop,ih (by omega),step]

theorem evalSame (same : SameReads (stop logn) key other) (x : Nat) :
    eval k key x logn = eval k other x logn := by
  simp only [eval,evalLoopSame k same x (Nat.le_refl _),leafBlockSame k same]

theorem evalFullRecursiveSame (same : SameReads levels key other) {left lvl : Nat} (inside : lvl + left ≤ levels)
    (n : Node) (res : List Byte) :
    evalFullRecursive k key left lvl n res = evalFullRecursive k other left lvl n res := by
  induction left generalizing lvl n res with
  | zero => simp only [evalFullRecursive,leafBlockSame k same]
  | succ left ih =>
    simp only [evalFullRecursive,childrenSame k same (by omega : lvl < levels),
      ih (by omega : lvl+1 + left ≤ levels)]

theorem evalFullSame (same : SameReads (stop logn) key other) : evalFull k key logn = evalFull k other logn := by
  have below (n : Node) := evalFullRecursiveSame k same (by omega : 0 + stop logn ≤ stop logn) n []
  simp only [evalFull,same.root,below]

theorem evalFullRecursive8Same (same : SameReads levels key other) {left lvl : Nat} (inside : lvl + left ≤ levels)
    (n : Lanes) (c : Cursors) :
    evalFullRecursive8 k key left lvl n c = evalFullRecursive8 k other left lvl n c := by
  induction left generalizing lvl n c with
  | zero => simp only [evalFullRecursive8,leafBlocks8,same.last]
  | succ left ih =>
    have below : lvl < levels := by omega
    simp only [evalFullRecursive8,children8,same.word lvl below,same.left lvl below,same.right lvl below,
      ih (by omega : lvl+1 + left ≤ levels)]

theorem evalFull8Same (same : SameReads (stop logn) key other) : evalFull8 k key logn = evalFull8 k other logn := by
  by_cases asserted : logn ≤ 63 ∧ 3 ≤ stop logn
  · have top (lvl : Nat) (low : lvl < 3) (n : Node) := childrenSame k same (by omega : lvl < stop logn) n
    have three (n : Node) : firstThreeLevels k key n = firstThreeLevels k other n := by
      simp only [firstThreeLevels,top 0 (by omega),top 1 (by omega),top 2 (by omega)]
    have below (n : Lanes) := evalFullRecursive8Same k same (by omega : 3 + (stop logn - 3) ≤ stop logn) n
      (startCursors logn)
    simp only [evalFull8,evalFull8Cursors,same.root,three,below]
  · simp only [evalFull8,evalFull8Cursors,if_neg asserted]

def exactKey (key : List Byte) (logn : Nat) : List Byte :=
  key.take (17 + 18*stop logn) ++ key.drop (key.length - 16)

theorem exactKeyLength (long : 17 + 18*stop logn ≤ key.length) :
    (exactKey key logn).length = 17 + 18*stop logn + 16 := by
  rw [exactKey,List.length_append,List.length_take,List.length_drop]
  omega

theorem wordBefore {front back : List Byte} {offset : Nat} (inside : offset + 16 ≤ front.length) :
    readWord 16 (front ++ back) offset = readWord 16 front offset := by
  have whole : offset + 16 ≤ (front ++ back).length := by rw [List.length_append]; omega
  rw [readWordInside whole,readWordInside inside,List.drop_append_of_le_length (by omega),
    List.take_append_of_le_length (by rw [List.length_drop]; omega)]

theorem byteBefore {front back : List Byte} {offset : Nat} (inside : offset < front.length) :
    readByte (front ++ back) offset = readByte front offset := List.getElem?_append_left inside

theorem wordAfter (front : List Byte) {back : List Byte} (last : back.length = 16) :
    readWord 16 (front ++ back) ((front ++ back).length - 16) = some (ofBytes 128 back) := by
  have start : (front ++ back).length - 16 = front.length := by rw [List.length_append]; omega
  rw [start,readWordInside (by rw [List.length_append]; omega),List.drop_left' rfl,
    List.take_of_length_le (by omega)]

theorem exactKeyReads (long : 17 + 18*stop logn ≤ key.length) : SameReads (stop logn) key (exactKey key logn) := by
  have front : (key.take (17 + 18*stop logn)).length = 17 + 18*stop logn := by rw [List.length_take]; omega
  have back : (key.drop (key.length - 16)).length = 16 := by rw [List.length_drop]; omega
  have word (offset : Nat) (inside : offset + 16 ≤ 17 + 18*stop logn) :
      readWord 16 key offset = readWord 16 (exactKey key logn) offset := by
    rw [exactKey,wordBefore (by omega)]
    conv_lhs => rw [← List.take_append_drop (17 + 18*stop logn) key]
    exact wordBefore (by omega)
  have byte (offset : Nat) (inside : offset < 17 + 18*stop logn) :
      readByte key offset = readByte (exactKey key logn) offset := by
    rw [exactKey,byteBefore (by omega)]
    conv_lhs => rw [← List.take_append_drop (17 + 18*stop logn) key]
    exact byteBefore (by omega)
  constructor
  · simp only [rootNode,word 0 (by omega),byte 16 (by omega)]
  · intro lvl below
    exact word _ (by omega)
  · intro lvl below
    exact byte _ (by omega)
  · intro lvl below
    exact byte _ (by omega)
  · conv_lhs => rw [← List.take_append_drop (key.length - 16) key]
    rw [wordAfter _ back,exactKey,wordAfter _ back]

theorem evalFullRecursive8Rows (length : KeyLength key logn) {left lvl : Nat} (inside : lvl + left ≤ stop logn)
    (n : Lanes) (c : Cursors) :
    ∃ rows, rows.length = 2^left ∧ evalFullRecursive8 k key left lvl n c =
      some ⟨fun i => c.res i + 16*2^left,c.writes ++ rowsWrites c.res rows⟩ := by
  unfold KeyLength at length
  induction left generalizing lvl n c with
  | zero =>
    simp only [evalFullRecursive8,leafBlocks8,wordRead key (key.length - 16) (by omega),
      Option.bind_eq_bind,Option.bind_some,memcpyLanes]
    exact ⟨[_],rfl,by simp only [rowsWrites,List.append_nil]; rfl⟩
  | succ left ih =>
    simp only [evalFullRecursive8,children8,wordRead key (17 + lvl*18) (by omega),
      byteRead key (17 + lvl*18 + 16) (by omega),byteRead key (17 + lvl*18 + 17) (by omega),
      Option.bind_eq_bind,Option.bind_some]
    obtain ⟨front,size,first⟩ := ih (by omega : lvl+1 + left ≤ stop logn) _ c
    rw [first,Option.bind_some]
    obtain ⟨back,size',second⟩ := ih (by omega : lvl+1 + left ≤ stop logn) _ _
    rw [second]
    refine ⟨front ++ back,by rw [List.length_append,size,size']; ring,?_⟩
    simp only [rowsWritesAppend,size,List.append_assoc]
    congr 2
    funext i
    ring

theorem evalFull8Fits (deep : 10 ≤ logn) (small : logn ≤ 63) (length : KeyLength key logn) :
    ∃ out, evalFull8 k key logn = some out ∧ out.length = 2^(logn-3) := by
  have depth : stop logn = logn-7 := stopLevels logn
  have asserted : logn ≤ 63 ∧ 3 ≤ stop logn := ⟨small,by omega⟩
  have enough : 17 + 18*stop logn + 16 ≤ key.length := Nat.le_of_eq length.symm
  have read (lvl : Nat) (low : lvl < 3) (m : Node) :
      children k key lvl m = some (child k key lvl false m,child k key lvl true m) :=
    childrenRead k m (by omega)
  obtain ⟨nodes,three⟩ : ∃ nodes, firstThreeLevels k key (root key) = some nodes := by
    simp only [firstThreeLevels,read 0 (by omega),read 1 (by omega),read 2 (by omega),
      Option.bind_eq_bind,Option.bind_some]
    exact ⟨_,rfl⟩
  obtain ⟨rows,size,writes⟩ := evalFullRecursive8Rows k length
    (by omega : 3 + (stop logn - 3) ≤ stop logn) (lanesOf nodes) (startCursors logn)
  have rest : stop logn - 3 = logn-10 := by omega
  have cells : (List.replicate (1 <<< (logn-3)) (0 : Byte)).length = 8*(16*2^(logn-10)) := by
    rw [List.length_replicate,bufferSize deep]
  have inside : ∀ w ∈ rowsWrites (startCursors logn).res rows,
      w.address + w.bytes.length ≤ (List.replicate (1 <<< (logn-3)) (0 : Byte)).length := by
    intro w member
    obtain ⟨j,row,found,same⟩ := rowsWritesMember member
    have short : j < 2^(logn-10) := by
      rw [← rest,← size]
      exact (List.getElem?_eq_some_iff.mp found).1
    have address : w.address = w.lane.val*(16*2^(logn-10)) + 16*j := by
      have field := congrArg BufferWrites.Write.address same
      simpa only [startCursors,partSize deep] using field
    have bytes : w.bytes.length = 16 :=
      (congrArg (fun w => w.bytes.length) same).trans (toBytesLength _)
    have lane : (w.lane.val + 1)*(16*2^(logn-10)) ≤ 8*(16*2^(logn-10)) :=
      Nat.mul_le_mul_right _ w.lane.isLt
    rw [cells,address,bytes]
    rw [Nat.add_mul] at lane
    omega
  obtain ⟨out,replayed,total⟩ := BufferWrites.replayFits inside
  refine ⟨out,?_,?_⟩
  · simp only [evalFull8,evalFull8Cursors,if_pos asserted,rootRead (by omega : 17 ≤ key.length),
      Option.bind_eq_bind,Option.bind_some,three,writes]
    exact replayed
  · rw [total,List.length_replicate,Nat.one_shiftLeft]

theorem evalFullRecursive8Needs {left lvl : Nat} (more : 0 < left) {n : Lanes} {c done : Cursors}
    (ended : evalFullRecursive8 k key left lvl n c = some done) : 17 + 18*(lvl + left) ≤ key.length := by
  induction left generalizing lvl n c done with
  | zero => exact absurd more (Nat.lt_irrefl 0)
  | succ left ih =>
    simp only [evalFullRecursive8,bind,Option.bind_eq_some_iff] at ended
    obtain ⟨pair,expanded,half,first,_⟩ := ended
    cases left with
    | zero =>
      simp only [children8,bind,Option.bind_eq_some_iff] at expanded
      obtain ⟨_,_,_,_,right,read,_⟩ := expanded
      have inside := (List.getElem?_eq_some_iff.mp read).1
      omega
    | succ left =>
      have below := ih (Nat.succ_pos left) first
      omega

theorem evalFull8Needs (deep : 11 ≤ logn) {out} (ended : evalFull8 k key logn = some out) :
    17 + 18*stop logn ≤ key.length := by
  have depth : stop logn = logn-7 := stopLevels logn
  simp only [evalFull8,bind,Option.bind_eq_some_iff] at ended
  obtain ⟨c,cursors,_⟩ := ended
  unfold evalFull8Cursors at cursors
  split at cursors
  · simp only [bind,Option.bind_eq_some_iff] at cursors
    obtain ⟨n,_,nodes,_,recursion⟩ := cursors
    have needs := evalFullRecursive8Needs k (by omega : 0 < stop logn - 3) recursion
    omega
  · cases cursors

theorem rootNeeds {n : Node} (read : rootNode key = some n) : 17 ≤ key.length := by
  simp only [rootNode,bind,Option.bind_eq_some_iff] at read
  obtain ⟨_,_,_,byte,_⟩ := read
  exact (List.getElem?_eq_some_iff.mp byte).1

theorem evalLoopNeeds {x i : Nat} {n : Node} (read : evalLoop k key x logn i = some n) : 17 ≤ key.length := by
  induction i generalizing n with
  | zero => exact rootNeeds read
  | succ i ih =>
    simp only [evalLoop,bind,Option.bind_eq_some_iff] at read
    obtain ⟨m,before,_⟩ := read
    exact ih before

theorem shortKeyRefused (short : key.length < 17) :
    (∀ x, eval k key x logn = none) ∧ evalFull k key logn = none ∧ evalFull8 k key logn = none := by
  have rootless : rootNode key = none := by
    apply Option.eq_none_iff_forall_ne_some.mpr
    intro n read
    exact absurd (rootNeeds read) (by omega)
  refine ⟨fun x => ?_,?_,?_⟩
  · have stuck : evalLoop k key x logn (stop logn) = none := by
      apply Option.eq_none_iff_forall_ne_some.mpr
      intro n read
      exact absurd (evalLoopNeeds k read) (by omega)
    simp only [eval,stuck,Option.bind_eq_bind,Option.bind_none,ite_self]
  · simp only [evalFull,rootless,Option.bind_eq_bind,Option.bind_none,ite_self]
  · simp only [evalFull8,evalFull8Cursors,rootless,Option.bind_eq_bind,Option.bind_none,ite_self]

theorem longKeyParts (small : logn ≤ 63) (long : 17 + 18*stop logn ≤ key.length) :
    ∃ parts : Key (stop logn), parts.bytes = exactKey key logn ∧
      (∀ x < 2^logn, eval k key x logn = some (parts.bit k x)) ∧ evalFull k key logn = some (parts.full k) ∧
      (10 ≤ logn → ∃ out, evalFull8 k key logn = some out ∧ out.length = 2^(logn-3) ∧
        (parts.Flagged → out = parts.full k)) := by
  have length : KeyLength (exactKey key logn) logn := exactKeyLength long
  have same : SameReads (stop logn) key (exactKey key logn) := exactKeyReads long
  obtain ⟨parts,parsed⟩ : ∃ parts, parse (stop logn) (exactKey key logn) = some parts := ⟨_,if_pos length⟩
  have bytes : parts.bytes = exactKey key logn := bytesParse parsed
  refine ⟨parts,bytes,fun x inside => ?_,?_,fun deep => ?_⟩
  · rw [evalSame k same,← bytes,evalParsed k small parts inside]
  · rw [evalFullSame k same,evalFullLeaves k length small,← bytes,leafBytesParsed]
  · obtain ⟨out,evaluated,total⟩ := evalFull8Fits k deep small length
    refine ⟨out,by rw [evalFull8Same k same,evaluated],total,fun flags => ?_⟩
    have full := DpfLanes.evalFull8Output k deep small (flaggedParsed flags)
    rw [bytes,evaluated,← bytes,leafBytesParsed] at full
    exact Option.some.inj full

/- A key too short for the levels is refused by `EvalFull8` whatever it holds; any other key is
worth its parts, at their offsets, to each evaluator; and none can start without a root. -/
theorem keysOfAnyLength (small : logn ≤ 63) (key : List Byte) :
    (key.length < 17 → (∀ x, eval k key x logn = none) ∧ evalFull k key logn = none ∧ evalFull8 k key logn = none) ∧
    (17 + 18*stop logn ≤ key.length → ∃ parts : Key (stop logn), parts.bytes = exactKey key logn ∧
      (∀ x < 2^logn, eval k key x logn = some (parts.bit k x)) ∧ evalFull k key logn = some (parts.full k) ∧
      (10 ≤ logn → ∃ out, evalFull8 k key logn = some out ∧ out.length = 2^(logn-3) ∧
        (parts.Flagged → out = parts.full k))) ∧
    (11 ≤ logn → ((evalFull8 k key logn).isSome = true ↔ 17 + 18*stop logn ≤ key.length)) := by
  refine ⟨shortKeyRefused k,longKeyParts k small,fun deep => ⟨fun ends => ?_,fun long => ?_⟩⟩
  · obtain ⟨out,ended⟩ := Option.isSome_iff_exists.mp ends
    exact evalFull8Needs k deep ended
  · obtain ⟨_,_,_,_,eight⟩ := longKeyParts k small long
    obtain ⟨out,ended,_⟩ := eight (by omega)
    rw [ended]
    rfl

end

/- For `logn = 11` 89 bytes are enough: the final block is read out of the last correction word. -/
theorem keysOfAnyLengthEleven :
    (evalFull8 (fixedKeys Aes128.encrypt) (List.replicate 89 0) 11).isSome = true ∧
    ¬ (evalFull8 (fixedKeys Aes128.encrypt) (List.replicate 88 0) 11).isSome = true := by
  have any := keysOfAnyLength (fixedKeys Aes128.encrypt) (by decide : 11 ≤ 63)
  refine ⟨((any (List.replicate 89 0)).2.2 (Nat.le_refl 11)).mpr (by decide),fun ends => ?_⟩
  have long := ((any (List.replicate 88 0)).2.2 (Nat.le_refl 11)).mp ends
  exact absurd long (by decide)

end ImPir.KeyLengths
