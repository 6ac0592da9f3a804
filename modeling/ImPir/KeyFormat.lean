import ImPir.DpfLanes

/-! The byte format of a DPF key: root seed and control byte, one correction word a level
and the final block. `Gen` writes it, the evaluators read it by offsets and depend on a
key only through its parts. -/
namespace ImPir.KeyFormat
open LittleEndian Blocks Dpf DpfKey PerfectTree

structure CorrectionWord where
  sCW : Block
  tLCW : Byte
  tRCW : Byte
  deriving DecidableEq, Repr

structure Key (levels : Nat) where
  s : Block
  t : Byte
  words : List CorrectionWord
  CW : Block
  depth : words.length = levels
  deriving DecidableEq, Repr

def CorrectionWord.bytes (c : CorrectionWord) : List Byte := toBytes 16 c.sCW ++ [c.tLCW,c.tRCW]

section
variable {levels : Nat}

def Key.bytes (key : Key levels) : List Byte :=
  toBytes 16 key.s ++ [key.t] ++ (key.words.flatMap CorrectionWord.bytes ++ toBytes 16 key.CW)

def wordsAt (levels : Nat) (key : List Byte) : List CorrectionWord :=
  (List.range levels).map (fun i =>
    ⟨wordAt key (17 + i*18),byteAt key (17 + i*18 + 16),byteAt key (17 + i*18 + 17)⟩)

theorem wordsDepth (levels : Nat) (key : List Byte) : (wordsAt levels key).length = levels := by simp [wordsAt]

def parse (levels : Nat) (key : List Byte) : Option (Key levels) :=
  if key.length = 17 + 18*levels + 16 then
    some ⟨wordAt key 0,byteAt key 16,wordsAt levels key,wordAt key (key.length - 16),wordsDepth levels key⟩
  else none

@[simp] theorem wordLength (c : CorrectionWord) : c.bytes.length = 18 := by simp [CorrectionWord.bytes]

theorem wordsLength (words : List CorrectionWord) : (words.flatMap CorrectionWord.bytes).length = 18*words.length := by
  rw [flatMapLength CorrectionWord.bytes 18 (fun c _ => wordLength c),Nat.mul_comm]

theorem bytesLength (key : Key levels) : key.bytes.length = 17 + 18*levels + 16 := by
  simp only [Key.bytes,List.length_append,toBytesLength,List.length_singleton,wordsLength,key.depth]
  omega

theorem wordStored {key : List Byte} {v : Block} {offset : Nat} (before after : List Byte)
    (parts : key = before ++ toBytes 16 v ++ after) (place : offset = before.length) : wordAt key offset = v := by
  subst parts place
  have read := readWordStored (n := 16) before after v
  rw [wordRead _ _ (by simp)] at read
  exact Option.some.inj read

theorem byteStored {key : List Byte} {b : Byte} {offset : Nat} (before after : List Byte)
    (parts : key = before ++ b :: after) (place : offset = before.length) : byteAt key offset = b := by
  subst parts place
  have read := readByteStored before after b
  rw [byteRead _ _ (by simp)] at read
  exact Option.some.inj read

theorem wordsStored (key : Key levels) : wordsAt levels key.bytes = key.words := by
  apply List.ext_getElem?
  intro i
  by_cases below : i < levels
  · have inside : i < key.words.length := by rw [key.depth]; exact below
    obtain ⟨c,found⟩ : ∃ c, key.words[i]? = some c := ⟨_,List.getElem?_eq_getElem inside⟩
    obtain ⟨before,after,split,place⟩ := flatMapRecordAt CorrectionWord.bytes 18 (fun c _ => wordLength c) found
    have start : (toBytes 16 key.s ++ [key.t] ++ before).length = 17 + i*18 := by simp [place]; omega
    have whole : key.bytes = (toBytes 16 key.s ++ [key.t] ++ before) ++ toBytes 16 c.sCW ++
        ([c.tLCW,c.tRCW] ++ (after ++ toBytes 16 key.CW)) := by
      rw [Key.bytes,split,CorrectionWord.bytes]
      simp
    have seed : wordAt key.bytes (17 + i*18) = c.sCW := wordStored _ _ whole start.symm
    have left : byteAt key.bytes (17 + i*18 + 16) = c.tLCW :=
      byteStored _ _ whole (by rw [List.length_append,start,toBytesLength])
    have right : byteAt key.bytes (17 + i*18 + 17) = c.tRCW := by
      refine byteStored ((toBytes 16 key.s ++ [key.t] ++ before) ++ toBytes 16 c.sCW ++ [c.tLCW])
        (after ++ toBytes 16 key.CW) ?_ ?_
      · rw [whole]
        simp
      · rw [List.length_append,List.length_append,start,toBytesLength,List.length_singleton]
    rw [found,wordsAt,List.getElem?_map,List.getElem?_range below,Option.map_some,seed,left,right]
  · rw [List.getElem?_eq_none (by rw [wordsDepth]; omega),List.getElem?_eq_none (by rw [key.depth]; omega)]

theorem parseBytes (key : Key levels) : parse levels key.bytes = some key := by
  have length := bytesLength key
  have root : wordAt key.bytes 0 = key.s :=
    wordStored [] _ (by rw [Key.bytes,List.append_assoc]; rfl) rfl
  have bit : byteAt key.bytes 16 = key.t :=
    byteStored (toBytes 16 key.s) _ (by rw [Key.bytes,List.append_assoc]; rfl) (by rw [toBytesLength])
  have last : wordAt key.bytes (key.bytes.length - 16) = key.CW := by
    refine wordStored (toBytes 16 key.s ++ [key.t] ++ key.words.flatMap CorrectionWord.bytes) [] ?_ ?_
    · simp [Key.bytes]
    · rw [length,List.length_append,List.length_append,wordsLength,key.depth,toBytesLength,List.length_singleton]
      omega
  rw [parse,if_pos length]
  simp only [root,bit,wordsStored key,last]

theorem wordTaken {key : List Byte} {offset : Nat} (inside : offset + 16 ≤ key.length) :
    toBytes 16 (wordAt key offset) = (key.drop offset).take 16 :=
  toBytesOfBytes (by rw [List.length_take,List.length_drop]; omega)

theorem byteTaken {key : List Byte} {offset : Nat} (inside : offset < key.length) :
    (key.drop offset).take 1 = [byteAt key offset] := by
  have item : byteAt key offset = key[offset] := by simp [byteAt,inside]
  rw [item,List.drop_eq_getElem_cons inside]
  rfl

theorem levelTaken {key : List Byte} {offset : Nat} (inside : offset + 18 ≤ key.length) :
    CorrectionWord.bytes ⟨wordAt key offset,byteAt key (offset + 16),byteAt key (offset + 17)⟩ =
      (key.drop offset).take 18 := by
  have first : (key.drop (offset + 16)).take 1 = [byteAt key (offset + 16)] := byteTaken (by omega)
  have second : (key.drop (offset + 17)).take 1 = [byteAt key (offset + 17)] := byteTaken (by omega)
  have split : (key.drop offset).take 18 =
      (key.drop offset).take 16 ++ ((key.drop (offset + 16)).take 1 ++ (key.drop (offset + 17)).take 1) := by
    rw [show 18 = 16 + (1 + 1) from rfl,List.take_add,List.take_add,List.drop_drop,List.drop_drop]
  rw [split,first,second,CorrectionWord.bytes,wordTaken (by omega)]
  rfl

theorem levelsTaken {key : List Byte} {n : Nat} (inside : 17 + 18*n ≤ key.length) :
    (wordsAt n key).flatMap CorrectionWord.bytes = (key.drop 17).take (18*n) := by
  induction n with
  | zero => simp [wordsAt]
  | succ n ih =>
    have more : wordsAt (n+1) key = wordsAt n key ++
        [⟨wordAt key (17 + n*18),byteAt key (17 + n*18 + 16),byteAt key (17 + n*18 + 17)⟩] := by
      rw [wordsAt,List.range_succ,List.map_append]
      rfl
    rw [more,List.flatMap_append,ih (by omega),List.flatMap_singleton,levelTaken (by omega),Nat.mul_add 18 n 1,
      List.take_add,List.drop_drop,Nat.mul_comm n 18]

theorem bytesParse {bytes : List Byte} {key : Key levels} (parsed : parse levels bytes = some key) :
    key.bytes = bytes := by
  unfold parse at parsed
  split at parsed
  case isFalse => cases parsed
  case isTrue length =>
    cases parsed
    have last : (bytes.drop (bytes.length - 16)).take 16 = bytes.drop (17 + 18*levels) := by
      rw [List.take_of_length_le (by rw [List.length_drop]; omega)]
      congr 1
      omega
    have middle : bytes.drop 17 = (bytes.drop 17).take (18*levels) ++ bytes.drop (17 + 18*levels) := by
      rw [← List.drop_drop]
      exact (List.take_append_drop (18*levels) (bytes.drop 17)).symm
    have whole : bytes = bytes.take 16 ++ ((bytes.drop 16).take 1 ++ bytes.drop 17) := by
      have front : (bytes.drop 16).take 1 ++ bytes.drop 17 = bytes.drop 16 := by
        rw [show bytes.drop 17 = (bytes.drop 16).drop 1 by rw [List.drop_drop]]
        exact List.take_append_drop 1 _
      rw [front]
      exact (List.take_append_drop 16 bytes).symm
    have root : toBytes 16 (wordAt bytes 0) = (bytes.drop 0).take 16 := wordTaken (by omega)
    rw [List.drop_zero] at root
    simp only [Key.bytes]
    rw [levelsTaken (by omega),root,wordTaken (by omega),last,← middle,← byteTaken (by omega),List.append_assoc]
    exact whole.symm

/- Every byte string of the right length is the bytes of a key. -/
theorem bytesOfKey {bytes : List Byte} (length : bytes.length = 17 + 18*levels + 16) :
    ∃ key : Key levels, key.bytes = bytes :=
  ⟨_,bytesParse (if_pos length)⟩

end

section
variable (k : FixedKeys)

/- Evaluation on the parts of a key, with no offsets. -/
def CorrectionWord.child (c : CorrectionWord) (d : Bool) (n : Node) : Node :=
  let raw := expand k d n.s
  if n.t ≠ 0#8 then ⟨clr raw ^^^ c.sCW,ofFlag (getT raw) ^^^ (if d then c.tRCW else c.tLCW)⟩
  else ⟨clr raw,ofFlag (getT raw)⟩

def descend : List CorrectionWord → List Bool → Node → Node
  | c :: words, d :: turns, n => descend words turns (c.child k d n)
  | _, _, n => n

def frontier : List CorrectionWord → Node → List Node
  | [], n => [n]
  | c :: words, n => frontier words (c.child k false n) ++ frontier words (c.child k true n)

variable {levels : Nat}

def Key.leaf (key : Key levels) (n : Node) : Block :=
  if n.t ≠ 0#8 then key.CW ^^^ convertBlock k n.s else convertBlock k n.s

def Key.bit (key : Key levels) (x : Nat) : Bool :=
  (key.leaf k (descend k key.words (turns levels (x/128)) ⟨key.s,key.t⟩)).getLsbD (x % 128)

def Key.full (key : Key levels) : List Byte :=
  (frontier k key.words ⟨key.s,key.t⟩).flatMap (fun n => toBytes 16 (key.leaf k n))

theorem wordsDrop (bytes : List Byte) {lvl : Nat} (below : lvl < levels) :
    (wordsAt levels bytes).drop lvl =
      ⟨wordAt bytes (17 + lvl*18),byteAt bytes (17 + lvl*18 + 16),byteAt bytes (17 + lvl*18 + 17)⟩ ::
        (wordsAt levels bytes).drop (lvl+1) := by
  rw [List.drop_eq_getElem_cons (by rw [wordsDepth]; exact below)]
  simp [wordsAt]

theorem childWord (bytes : List Byte) (lvl : Nat) (d : Bool) (n : Node) :
    DpfKey.child k bytes lvl d n = CorrectionWord.child k
      ⟨wordAt bytes (17 + lvl*18),byteAt bytes (17 + lvl*18 + 16),byteAt bytes (17 + lvl*18 + 17)⟩ d n := by
  cases d <;> rfl

theorem walkDescends (bytes : List Byte) {dirs : List Bool} {lvl : Nat} (inside : lvl + dirs.length ≤ levels) (n : Node) :
    walk (DpfKey.child k bytes) lvl dirs n = descend k ((wordsAt levels bytes).drop lvl) dirs n := by
  induction dirs generalizing lvl n with
  | nil => cases (wordsAt levels bytes).drop lvl <;> rfl
  | cons d dirs ih =>
    rw [List.length_cons] at inside
    rw [walk,wordsDrop bytes (by omega : lvl < levels),descend,← childWord]
    exact ih (by omega) _

theorem leavesFrontier (bytes : List Byte) {left lvl : Nat} (inside : lvl + left = levels) (n : Node) :
    leaves (DpfKey.child k bytes) left lvl n = frontier k ((wordsAt levels bytes).drop lvl) n := by
  induction left generalizing lvl n with
  | zero =>
    rw [List.drop_eq_nil_of_le (by rw [wordsDepth]; omega)]
    rfl
  | succ left ih =>
    rw [leaves,wordsDrop bytes (by omega : lvl < levels),frontier,← childWord,← childWord,ih (by omega),ih (by omega)]

theorem keyRoot (key : Key levels) : root key.bytes = ⟨key.s,key.t⟩ ∧
    wordAt key.bytes (key.bytes.length - 16) = key.CW := by
  have parsed := parseBytes key
  rw [parse,if_pos (bytesLength key),Option.some.injEq] at parsed
  constructor
  · rw [root,← congrArg Key.s parsed,← congrArg Key.t parsed]
  · exact congrArg Key.CW parsed

theorem leafParsed (key : Key levels) (n : Node) : DpfKey.leaf k key.bytes n = key.leaf k n := by
  rw [DpfKey.leaf,(keyRoot key).2]
  rfl

variable {logn : Nat}

theorem keyLength (key : Key (stop logn)) : KeyLength key.bytes logn := bytesLength key

theorem evalParsed (small : logn ≤ 63) (key : Key (stop logn)) {x : Nat} (inside : x < 2^logn) :
    eval k key.bytes x logn = some (key.bit k x) := by
  rw [evalBit k (keyLength key) small inside,leafOf,walkDescends k key.bytes (by rw [turnsLength,Nat.zero_add]),
    List.drop_zero,wordsStored,(keyRoot key).1,leafParsed]
  rfl

theorem leafBytesParsed (key : Key (stop logn)) : leafBytes k key.bytes logn = key.full k := by
  rw [leafBytes,leavesFrontier k key.bytes (Nat.zero_add _),List.drop_zero,wordsStored,(keyRoot key).1,Key.full]
  simp only [leafParsed]

def Key.Flagged (key : Key levels) : Prop := IsFlag key.t ∧ ∀ c ∈ key.words, IsFlag c.tLCW ∧ IsFlag c.tRCW

theorem flaggedParsed {key : Key (stop logn)} (flags : key.Flagged) : DpfLanes.FlaggedKey key.bytes logn where
  length := by rw [← stopLevels]; exact bytesLength key
  root := by
    have bit : byteAt key.bytes 16 = key.t := congrArg Node.t (keyRoot key).1
    rw [bit]
    exact flags.1
  levels := by
    intro lvl below
    rw [← stopLevels] at below
    have first := wordsDrop key.bytes below
    rw [wordsStored] at first
    have member : (⟨wordAt key.bytes (17 + lvl*18),byteAt key.bytes (17 + lvl*18 + 16),
        byteAt key.bytes (17 + lvl*18 + 17)⟩ : CorrectionWord) ∈ key.words :=
      List.mem_of_mem_drop (first ▸ List.mem_cons_self)
    exact flags.2 _ member

def genKey (s : Block) (t : Byte) (cw : Nat → CorrectionTree.Correction Block) (levels : Nat) (last : Block) :
    Key levels where
  s := s
  t := t
  words := (List.range levels).map (fun j => ⟨(cw j).seed,ofFlag (cw j).left,ofFlag (cw j).right⟩)
  CW := last
  depth := (List.length_map _).trans List.length_range

theorem genKeyBytes (s : Block) (t : Byte) (cw : Nat → CorrectionTree.Correction Block) (levels : Nat) (last : Block) :
    DpfPoint.keyBytes s t cw levels last = (genKey s t cw levels last).bytes := by
  simp only [DpfPoint.keyBytes,Key.bytes,genKey,List.flatMap_map]
  rfl

theorem genKeyFlagged {s : Block} {t : Byte} (flag : IsFlag t) (cw : Nat → CorrectionTree.Correction Block)
    (levels : Nat) (last : Block) : (genKey s t cw levels last).Flagged := by
  refine ⟨flag,fun c member => ?_⟩
  obtain ⟨j,_,rfl⟩ := List.mem_map.mp member
  exact ⟨ofFlagIsFlag _,ofFlagIsFlag _⟩

/- What `Gen` writes are two keys with the same correction words and final block, whose
control bits differ; every byte string of a key's length is a key, and on every key the
evaluators compute from its parts alone. -/
theorem keysThroughParts (small : logn ≤ 63) :
    (∀ draw0 draw1 alpha, alpha < 2^logn → ∃ a b : Key (stop logn),
      genFrom k draw0 draw1 alpha logn = some (a.bytes,b.bytes) ∧ a.Flagged ∧ b.Flagged ∧
      a.words = b.words ∧ a.CW = b.CW ∧ a.t ≠ b.t) ∧
    (∀ bytes, KeyLength bytes logn → ∃ key : Key (stop logn), key.bytes = bytes) ∧
    ∀ key : Key (stop logn), (∀ x < 2^logn, eval k key.bytes x logn = some (key.bit k x)) ∧
      evalFull k key.bytes logn = some (key.full k) ∧
      (10 ≤ logn → key.Flagged → evalFull8 k key.bytes logn = some (key.full k)) := by
  refine ⟨?_,fun _ length => bytesOfKey length,?_⟩
  · intro draw0 draw1 alpha inside
    have flags := DpfPoint.startFlags draw0 draw1
    refine ⟨genKey (genStart draw0 draw1).s0 (genStart draw0 draw1).t0 _ _ _,
      genKey (genStart draw0 draw1).s1 (genStart draw0 draw1).t1 _ _ _,?_,
      genKeyFlagged flags.1 (DpfPoint.cwAt k alpha logn (genStart draw0 draw1)) (stop logn)
        (DpfPoint.lastBlock k draw0 draw1 alpha logn),
      genKeyFlagged flags.2 _ _ _,rfl,rfl,?_⟩
    · rw [DpfPoint.genFromKeys k draw0 draw1 small inside,DpfPoint.keyA,DpfPoint.keyB,genKeyBytes,genKeyBytes]
    · have differ (b : Bool) : ofFlag b ≠ ofFlag (ofFlag b == 0#8) := by cases b <;> decide
      exact differ (getT draw0)
  · intro key
    refine ⟨fun x inside => evalParsed k small key inside,?_,fun deep flags => ?_⟩
    · rw [evalFullLeaves k (keyLength key) small,leafBytesParsed]
    · rw [DpfLanes.evalFull8Output k deep small (flaggedParsed flags),leafBytesParsed]

theorem keysThroughPartsThirteen : ∃ a b : Key (stop 13),
    genFrom (AesContext.fixedKeys Aes128.encrypt) (Aes128.encrypt TestBlock 0) (Aes128.encrypt TestBlock 1) 4321 13 =
      some (a.bytes,b.bytes) ∧ a.words = b.words ∧ a.t ≠ b.t ∧
    evalFull8 (AesContext.fixedKeys Aes128.encrypt) a.bytes 13 = some (a.full (AesContext.fixedKeys Aes128.encrypt)) ∧
    evalFull (AesContext.fixedKeys Aes128.encrypt) b.bytes 13 = some (b.full (AesContext.fixedKeys Aes128.encrypt)) := by
  have ⟨generated,_,evaluated⟩ := keysThroughParts (AesContext.fixedKeys Aes128.encrypt) (by decide : 13 ≤ 63)
  obtain ⟨a,b,keys,flags,_,words,_,differ⟩ :=
    generated (Aes128.encrypt TestBlock 0) (Aes128.encrypt TestBlock 1) 4321 (by decide)
  exact ⟨a,b,keys,words,differ,(evaluated a).2.2 (by decide) flags,(evaluated b).2.1⟩

end
end ImPir.KeyFormat
