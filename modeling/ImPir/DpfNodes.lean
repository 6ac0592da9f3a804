import ImPir.DpfPoint

/-! The nodes that `Eval` passes. Under a prefix of `alpha` the two parties hold the loop
variables of `Gen`, whose control bytes differ; under any other prefix they hold one
and the same node. -/
namespace ImPir.DpfNodes
open Blocks Dpf DpfKey DpfPoint PerfectTree
open AesContext (fixedKeys)

/- The first `i` turns for `x` are those of the `i`-bit prefix of `x`. -/
theorem prefixTurns {logn i x p : Nat} (short : i ≤ logn) (starts : x / 2^(logn-i) = p) :
    (List.range i).map (turn logn x) = turns i p := by
  rw [turnsRange]
  apply List.map_congr_left
  intro j member
  have below : j < i := by simpa using member
  have place : logn-1-j = i-1-j + (logn-i) := by omega
  rw [turn,place,← starts]
  exact (Nat.testBit_div_two_pow x (i-1-j)).symm

theorem prefixSmall {logn i x : Nat} (short : i ≤ logn) (inside : x < 2^logn) : x / 2^(logn-i) < 2^i := by
  have split : 2^logn = 2^(logn-i) * 2^i := by
    rw [← pow_add]
    congr 1
    omega
  exact Nat.div_lt_of_lt_mul (by omega)

section
variable (k : FixedKeys) (draw0 draw1 : Block) (alpha logn : Nat)

theorem loopFlagsDiffer (i : Nat) :
    (genLoop k alpha logn (genStart draw0 draw1) i).t0 ^^^
      (genLoop k alpha logn (genStart draw0 draw1) i).t1 = 1#8 := by
  have inv := loopInvariant k draw0 draw1 alpha logn i
  have differ := CorrectionTree.onPathDiffer seedXor (treeExpand k) (turn logn alpha)
    (view ⟨(genStart draw0 draw1).s0,(genStart draw0 draw1).t0⟩)
    (view ⟨(genStart draw0 draw1).s1,(genStart draw0 draw1).t1⟩) (startDiffer draw0 draw1) i
  have node0 := inv.node0
  have node1 := inv.node1
  unfold path at node0 node1
  rw [← node0,← node1] at differ
  rcases inv.flag0 with clear0 | set0 <;> rcases inv.flag1 with clear1 | set1
  · simp [view,clear0,clear1] at differ
  · rw [clear0,set1]
    rfl
  · rw [set0,clear1]
    rfl
  · simp [view,set0,set1] at differ

/- What both parties hold after the first `i` turns, and whose `Eval`s come there. -/
theorem nodesAtPrefix {i p : Nat} (deep : i ≤ stop logn) (short : i ≤ logn) (inside : p < 2^i)
    (ha : alpha < 2^logn) :
    let g := genLoop k alpha logn (genStart draw0 draw1) i
    ∃ na nb, (∀ x, x / 2^(logn-i) = p →
        evalLoop k (keyA k draw0 draw1 alpha logn) x logn i = some na ∧
        evalLoop k (keyB k draw0 draw1 alpha logn) x logn i = some nb) ∧
      IsFlag na.t ∧ IsFlag nb.t ∧
      (p ≠ alpha / 2^(logn-i) → na = nb) ∧
      (p = alpha / 2^(logn-i) → na = ⟨g.s0,g.t0⟩ ∧ nb = ⟨g.s1,g.t1⟩ ∧ g.t0 ^^^ g.t1 = 1#8) := by
  have levels : (turns i p).length ≤ stop logn := by rwa [turnsLength]
  have path : (List.range i).map (turn logn alpha) = turns i (alpha / 2^(logn-i)) := prefixTurns short rfl
  refine ⟨_,_,?_,(walkA k draw0 draw1 alpha logn levels).2,(walkB k draw0 draw1 alpha logn levels).2,?_,?_⟩
  · intro x starts
    rw [evalLoopWalk k x (keyALength k draw0 draw1 alpha logn) deep,
      evalLoopWalk k x (keyBLength k draw0 draw1 alpha logn) deep,prefixTurns short starts]
    exact ⟨rfl,rfl⟩
  · intro other
    apply walksOffPath k draw0 draw1 alpha logn levels
    rw [turnsLength,path]
    exact fun same => other (turnsInjective inside (prefixSmall short ha) same)
  · rintro rfl
    have walks := walksOnPath k draw0 draw1 alpha logn deep
    rw [path] at walks
    exact ⟨walks.1,walks.2,loopFlagsDiffer k draw0 draw1 alpha logn i⟩

variable {alpha logn}

theorem evalNodes (small : logn ≤ 63) (ha : alpha < 2^logn) :
    ∃ ka kb, genFrom k draw0 draw1 alpha logn = some (ka,kb) ∧ ∀ i ≤ logn-7, ∀ p < 2^i,
      let g := genLoop k alpha logn (genStart draw0 draw1) i
      ∃ na nb, (∀ x, x / 2^(logn-i) = p →
          evalLoop k ka x logn i = some na ∧ evalLoop k kb x logn i = some nb) ∧
        IsFlag na.t ∧ IsFlag nb.t ∧
        (p ≠ alpha / 2^(logn-i) → na = nb) ∧
        (p = alpha / 2^(logn-i) → na = ⟨g.s0,g.t0⟩ ∧ nb = ⟨g.s1,g.t1⟩ ∧ g.t0 ^^^ g.t1 = 1#8) := by
  refine ⟨_,_,genFromKeys k draw0 draw1 small ha,?_⟩
  intro i deep p inside
  exact nodesAtPrefix k draw0 draw1 alpha logn (by rwa [stopLevels]) (by omega) inside ha

end

theorem evalNodesAes : ∃ ka kb,
    genFrom (fixedKeys Aes128.encrypt) (Aes128.encrypt TestBlock 0) (Aes128.encrypt TestBlock 1) 123456 20 =
      some (ka,kb) ∧ ∀ i ≤ 20-7, ∀ p < 2^i,
      let g := genLoop (fixedKeys Aes128.encrypt) 123456 20
        (genStart (Aes128.encrypt TestBlock 0) (Aes128.encrypt TestBlock 1)) i
      ∃ na nb, (∀ x, x / 2^(20-i) = p →
          evalLoop (fixedKeys Aes128.encrypt) ka x 20 i = some na ∧
          evalLoop (fixedKeys Aes128.encrypt) kb x 20 i = some nb) ∧
        IsFlag na.t ∧ IsFlag nb.t ∧
        (p ≠ 123456 / 2^(20-i) → na = nb) ∧
        (p = 123456 / 2^(20-i) → na = ⟨g.s0,g.t0⟩ ∧ nb = ⟨g.s1,g.t1⟩ ∧ g.t0 ^^^ g.t1 = 1#8) :=
  evalNodes (fixedKeys Aes128.encrypt) _ _ (by decide) (by decide)

end ImPir.DpfNodes
