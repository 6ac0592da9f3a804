import ImPir.Aes128
import ImPir.DpfPoint
import ImPir.Prng

/-! What one key gives away. The root seeds of `Gen` come from `getTestPRNG`, whose seed
is a constant, and the keys agree after their first 17 bytes: whoever holds the first
key can complete it with the constant root of the second and evaluate both. -/
namespace ImPir.KeyCompletion
open LittleEndian Blocks Dpf DpfKey DpfPoint PerfectTree Prng
open AesContext (Cipher OpenSsl ecb fixedKey fixedKeys)

def completeKey (P ka : List Byte) : List Byte := P ++ ka.drop 17

def attack (k : FixedKeys) (P ka : List Byte) (logn : Nat) : Option Nat :=
  (List.range (2^logn)).find? (fun x => decide (eval k ka x logn ≠ eval k (completeKey P ka) x logn))

/- `P` has the root seed of every second key, and a control byte that is set like its. -/
def SecondRoot (aes : Cipher) (P : List Byte) : Prop :=
  wordAt P 0 = clr (aes TestBlock 1) ∧ (byteAt P 16 ≠ 0#8 ↔ getT (aes TestBlock 0) = false)

instance (aes : Cipher) (P : List Byte) : Decidable (SecondRoot aes P) := by unfold SecondRoot; infer_instance

theorem rootBytes {P : List Byte} (length : P.length = 17) : P = toBytes 16 (wordAt P 0) ++ [byteAt P 16] := by
  have seed : toBytes 16 (wordAt P 0) = P.take 16 := by
    rw [wordAt,List.drop_zero]
    exact toBytesOfBytes (n := 16) (by rw [List.length_take]; omega)
  have flag : P.drop 16 = [byteAt P 16] := by
    rw [List.drop_eq_getElem_cons (by omega),List.drop_eq_nil_of_le (by omega),byteAt,List.getD_eq_getElem?_getD,
      List.getElem?_eq_getElem (by omega),Option.getD_some]
  rw [seed,← flag,List.take_append_drop]

theorem completeKeyBytes {P : List Byte} (length : P.length = 17) (s : Block) (t : Byte)
    (cw : Nat → CorrectionTree.Correction Block) (levels : Nat) (last : Block) :
    completeKey P (keyBytes s t cw levels last) = keyBytes (wordAt P 0) (byteAt P 16) cw levels last := by
  have front : (toBytes 16 s ++ [t]).length = 17 := by simp
  rw [completeKey,keyBytes,List.drop_left' front]
  conv => lhs; rw [rootBytes length]
  rfl

section
variable (k : FixedKeys)

theorem leafOfView {s s' : Block} {t t' : Byte} (same : view ⟨s,t⟩ = view ⟨s',t'⟩)
    (cw : Nat → CorrectionTree.Correction Block) (last : Block) (logn x : Nat) :
    leafOf k (keyBytes s t cw (stop logn) last) logn x = leafOf k (keyBytes s' t' cw (stop logn) last) logn x := by
  have short : (turns (stop logn) (x/128)).length ≤ stop logn := by rw [turnsLength]
  have walks := (walkView k s t cw (stop logn) last short ⟨s,t⟩).trans
    ((congrArg _ same).trans (walkView k s' t' cw (stop logn) last short ⟨s',t'⟩).symm)
  rw [leafOf,leafOf,keyBytesRoot,keyBytesRoot,leaf,leaf,keyBytesLast,keyBytesLast]
  generalize walk _ 0 _ (⟨s,t⟩ : Node) = n at walks ⊢
  generalize walk _ 0 _ (⟨s',t'⟩ : Node) = n' at walks ⊢
  simp only [view,CorrectionTree.Node.mk.injEq,decide_eq_decide] at walks
  simp only [walks.1,walks.2]

variable (draw0 draw1 : Block)

theorem completedLength {P : List Byte} (length : P.length = 17) (alpha logn : Nat) :
    KeyLength (completeKey P (keyA k draw0 draw1 alpha logn)) logn := by
  rw [keyA,completeKeyBytes length]
  exact keyBytesLength _ _ _ _ _

theorem attackTest {P : List Byte} (length : P.length = 17) {alpha logn x : Nat} (small : logn ≤ 63)
    (hx : x < 2^logn) :
    decide (eval k (keyA k draw0 draw1 alpha logn) x logn ≠
      eval k (completeKey P (keyA k draw0 draw1 alpha logn)) x logn) =
    (leafOf k (keyA k draw0 draw1 alpha logn) logn x ^^^
      leafOf k (completeKey P (keyA k draw0 draw1 alpha logn)) logn x).getLsbD (x % 128) := by
  rw [evalBit k (keyALength k draw0 draw1 alpha logn) small hx,
    evalBit k (completedLength k draw0 draw1 length alpha logn) small hx,BitVec.getLsbD_xor]
  cases (leafOf k (keyA k draw0 draw1 alpha logn) logn x).getLsbD (x % 128) <;>
    cases (leafOf k (completeKey P (keyA k draw0 draw1 alpha logn)) logn x).getLsbD (x % 128) <;> rfl

theorem attackFinds {P : List Byte} (length : P.length = 17)
    (same : view ⟨wordAt P 0,byteAt P 16⟩ = view ⟨(genStart draw0 draw1).s1,(genStart draw0 draw1).t1⟩)
    {alpha logn : Nat} (small : logn ≤ 63) (ha : alpha < 2^logn) :
    attack k P (keyA k draw0 draw1 alpha logn) logn = some alpha := by
  have stops : ∀ x < 2^logn, decide (eval k (keyA k draw0 draw1 alpha logn) x logn ≠
      eval k (completeKey P (keyA k draw0 draw1 alpha logn)) x logn) = decide (x = alpha) := by
    intro x hx
    have completed : leafOf k (completeKey P (keyA k draw0 draw1 alpha logn)) logn x =
        leafOf k (keyB k draw0 draw1 alpha logn) logn x := by
      rw [keyA,completeKeyBytes length,keyB]
      exact leafOfView k same _ _ logn x
    rw [attackTest k draw0 draw1 length small hx,completed,BitVec.getLsbD_xor,
      leafBitsPoint k draw0 draw1 alpha logn ha hx]
  rw [attack,List.find?_range_eq_some]
  refine ⟨?_,List.mem_range.mpr ha,?_⟩
  · rw [stops alpha ha]
    exact decide_eq_true rfl
  · intro x before
    rw [stops x (by omega),decide_eq_false (by omega)]
    rfl

theorem shallowLeaf (s : Block) (t : Byte) (cw : Nat → CorrectionTree.Correction Block) (last : Block) (x : Nat) :
    leafOf k (keyBytes s t cw (stop 7) last) 7 x =
      if t ≠ 0#8 then last ^^^ convertBlock k s else convertBlock k s := by
  rw [leafOf,keyBytesRoot,leaf,keyBytesLast]
  rfl

theorem xorShared (c a b : Block) : c ^^^ a ^^^ (c ^^^ b) = a ^^^ b := by
  rw [BitVec.xor_comm c a,BitVec.xor_assoc,xorCancelLeft]

theorem differenceBlind {P : List Byte} (length : P.length = 17)
    (same : byteAt P 16 ≠ 0#8 ↔ (genStart draw0 draw1).t0 ≠ 0#8) (alpha x : Nat) :
    leafOf k (keyA k draw0 draw1 alpha 7) 7 x ^^^
      leafOf k (completeKey P (keyA k draw0 draw1 alpha 7)) 7 x =
    convertBlock k (genStart draw0 draw1).s0 ^^^ convertBlock k (wordAt P 0) := by
  rw [keyA,completeKeyBytes length,shallowLeaf,shallowLeaf]
  rcases eq_or_ne (genStart draw0 draw1).t0 0#8 with clear | set
  · have clear' : byteAt P 16 = 0#8 := by
      by_contra set
      exact same.mp set clear
    rw [if_neg (not_not.mpr clear),if_neg (not_not.mpr clear')]
  · rw [if_pos set,if_pos (same.mpr set),xorShared]

theorem differenceMasked {P : List Byte} (length : P.length = 17)
    (other : byteAt P 16 ≠ 0#8 ↔ (genStart draw0 draw1).t0 = 0#8) (alpha x : Nat) :
    leafOf k (keyA k draw0 draw1 alpha 7) 7 x ^^^
      leafOf k (completeKey P (keyA k draw0 draw1 alpha 7)) 7 x =
    ofBytes 128 ((toBytes 16 ZeroBlock).set ((alpha &&& 127)/8) (1#8 <<< ((alpha &&& 127)%8))) ^^^
      (convertBlock k (genStart draw0 draw1).s1 ^^^ convertBlock k (wordAt P 0)) := by
  have last : lastBlock k draw0 draw1 alpha 7 =
    finalBlock k alpha (genStart draw0 draw1).s0 (genStart draw0 draw1).s1 := rfl
  rw [keyA,completeKeyBytes length,shallowLeaf,shallowLeaf,last,finalBlock]
  generalize ofBytes 128 _ = point
  rcases eq_or_ne (genStart draw0 draw1).t0 0#8 with clear | set
  · rw [if_neg (not_not.mpr clear),if_pos (other.mpr clear)]
    rw [BitVec.xor_assoc (point ^^^ _),BitVec.xor_comm point (convertBlock k _),BitVec.xor_assoc (convertBlock k _),
      xorCancelLeft]
  · have clear' : byteAt P 16 = 0#8 := by
      by_contra set'
      exact set (other.mp set')
    rw [if_pos set,if_neg (not_not.mpr clear'),BitVec.xor_assoc (point ^^^ _),BitVec.xor_assoc point,xorCancelRight,
      BitVec.xor_assoc]

theorem attackStop {P ka : List Byte} {logn x : Nat} (found : attack k P ka logn = some x) :
    decide (eval k ka x logn ≠ eval k (completeKey P ka) x logn) = true ∧
      ∀ y < x, decide (eval k ka y logn ≠ eval k (completeKey P ka) y logn) = false := by
  rw [attack,List.find?_range_eq_some] at found
  exact ⟨found.1,fun y before => by simpa using found.2.2 y before⟩

theorem someBit {a b : Block} (different : a ≠ b) : ∃ j < 128, (a ^^^ b).getLsbD j = true := by
  by_contra none
  apply different
  apply BitVec.eq_of_getLsbD_eq
  intro j inside
  by_contra bits
  apply none
  refine ⟨j,inside,?_⟩
  rw [BitVec.getLsbD_xor]
  revert bits
  cases a.getLsbD j <;> cases b.getLsbD j <;> simp

theorem attackMisses (injective : Function.Injective (convertBlock k)) {P : List Byte} (length : P.length = 17)
    (other : view ⟨wordAt P 0,byteAt P 16⟩ ≠ view ⟨(genStart draw0 draw1).s1,(genStart draw0 draw1).t1⟩) :
    ∃ alpha < 128, attack k P (keyA k draw0 draw1 alpha 7) 7 ≠ some alpha := by
  by_contra hits
  have finds : ∀ alpha < 128, attack k P (keyA k draw0 draw1 alpha 7) 7 = some alpha := by
    intro alpha inside
    by_contra miss
    exact hits ⟨alpha,inside,miss⟩
  have flip := (secondFlag draw0 draw1).trans (firstFlag draw0 draw1).symm
  rcases Classical.em (byteAt P 16 ≠ 0#8 ↔ (genStart draw0 draw1).t0 ≠ 0#8) with same | masked
  · -- the place found does not depend on the query, so it is not both 0 and 1
    have first := (attackStop k (finds 0 (by omega))).1
    have second := (attackStop k (finds 1 (by omega))).2 0 (by omega)
    rw [attackTest k draw0 draw1 length (by omega) (by omega),differenceBlind k draw0 draw1 length same] at first second
    rw [first] at second
    contradiction
  · have masked' : byteAt P 16 ≠ 0#8 ↔ (genStart draw0 draw1).t0 = 0#8 := by tauto
    have seeds : (genStart draw0 draw1).s1 ≠ wordAt P 0 := by
      intro equal
      apply other
      rw [view,view,equal]
      congr 1
      exact decide_eq_decide.mpr (masked'.trans flip.symm)
    obtain ⟨j,inside,bit⟩ := someBit (fun same => seeds (injective same))
    have hit := (attackStop k (finds j inside)).1
    have low : j &&& 127 = j := by
      rw [Nat.and_two_pow_sub_one_eq_mod j 7]
      exact Nat.mod_eq_of_lt inside
    rw [attackTest k draw0 draw1 length (by omega) (by omega),differenceMasked k draw0 draw1 length masked',
      BitVec.getLsbD_xor,Nat.mod_eq_of_lt inside,low,pointBlockBit inside inside,bit] at hit
    simp at hit

end

/- Some run of `Gen` on which the completion with `P` does not lead to the query. -/
def AttackFails (aes : OpenSsl) (P : List Byte) : Prop :=
  ∃ logn ≤ 63, ∃ alpha < 2^logn, ∃ ka kb, gen aes alpha logn = some (ka,kb) ∧
    attack (fixedKeys aes.cipher) P ka logn ≠ some alpha

theorem secondRootView (aes : Cipher) (P : List Byte) :
    SecondRoot aes P ↔ view ⟨wordAt P 0,byteAt P 16⟩ =
      view ⟨(genStart (aes TestBlock 0) (aes TestBlock 1)).s1,(genStart (aes TestBlock 0) (aes TestBlock 1)).t1⟩ := by
  rw [SecondRoot,view,view,CorrectionTree.Node.mk.injEq,decide_eq_decide,secondFlag]
  rfl

theorem secondRootFinds {aes : OpenSsl} {P : List Byte} (length : P.length = 17) (known : SecondRoot aes.cipher P) :
    ¬ AttackFails aes P := by
  rintro ⟨logn,small,alpha,inside,ka,kb,keys,miss⟩
  rw [genDraws,genFromKeys _ _ _ small inside,Option.some.injEq,Prod.mk.injEq] at keys
  rw [← keys.1] at miss
  exact miss (attackFinds _ _ _ length ((secondRootView aes.cipher P).mp known) small inside)

theorem attackFailsWhen {aes : OpenSsl} (injective : Function.Injective (aes fixedKey)) {P : List Byte}
    (length : P.length = 17) : AttackFails aes P ↔ ¬ SecondRoot aes.cipher P := by
  constructor
  · intro fails known
    exact secondRootFinds length known fails
  · intro other
    rw [secondRootView] at other
    obtain ⟨alpha,inside,miss⟩ :=
      attackMisses (fixedKeys aes.cipher) (aes TestBlock 0) (aes TestBlock 1) injective length other
    have keys := genFromKeys (fixedKeys aes.cipher) (aes TestBlock 0) (aes TestBlock 1) (by omega : 7 ≤ 63) inside
    exact ⟨7,by omega,alpha,inside,_,_,(genDraws aes alpha 7).trans keys,miss⟩

theorem attackFailsZeros : AttackFails (ecb Aes128.encrypt) (List.replicate 17 0) :=
  (attackFailsWhen (Aes128.encryptInjective fixedKey) (by decide)).mpr (by decide +kernel)

/- The root of every second key, computed from the constant seed. -/
def publicRoot : List Byte := [212,223,116,183,1,10,16,32,214,237,77,159,65,240,11,127,0]

theorem publicRootFinds : publicRoot.length = 17 ∧ ¬ AttackFails (ecb Aes128.encrypt) publicRoot :=
  ⟨rfl,secondRootFinds rfl (by decide +kernel)⟩

end ImPir.KeyCompletion
