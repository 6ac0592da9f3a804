import ImPir.DpfLanes
import ImPir.Datastore

/-! Two-server retrieval on the CPU: the full evaluations of the two keys are shares
of the point function of `alpha`, and the scan is linear in its index bits. -/
namespace ImPir.CpuPir
open LittleEndian Blocks Dpf DpfKey Records Datastore XorSum
open AesContext (fixedKeys)
open DpfPoint (keyA keyB genFromKeys leafBitsPoint keyALength keyBLength)
open DpfFull (leafBytesBit)

section
variable (k : FixedKeys) (draw0 draw1 : Block)

theorem bytesArePoint {alpha x logn : Nat} (ha : alpha < 2^logn) (hx : x < 2^logn) :
    (bitAt (leafBytes k (keyA k draw0 draw1 alpha logn) logn) x ^^
      bitAt (leafBytes k (keyB k draw0 draw1 alpha logn) logn) x) = decide (x = alpha) := by
  rw [leafBytesBit k _ hx,leafBytesBit k _ hx,leafBitsPoint k draw0 draw1 alpha logn ha hx]

theorem groupsOfEight {logn : Nat} (h : 3 ≤ logn) : 2^logn = 8 * 2^(logn-3) := by
  rw [show 8 = 2^3 from rfl,← pow_add]
  congr 1
  omega

/- `EvalFull` gives at least one byte for each group of eight records, also where
`logn < 7` and its single leaf is longer than the store needs. -/
theorem enoughBytes (key : List Byte) {logn : Nat} (h : 3 ≤ logn) :
    2^logn/8 ≤ (leafBytes k key logn).length := by
  rw [leafBytesLength,stopLevels,groupsOfEight h,Nat.mul_div_cancel_left _ (by omega)]
  have wide : 2^(logn-3) ≤ 2^(4 + (logn-7)) := Nat.pow_le_pow_right (by omega) (by omega)
  rwa [pow_add] at wide

theorem answersRetrieve {alpha logn : Nat} (h : 3 ≤ logn) (ha : alpha < 2^logn)
    {data : List Record} (size : data.length = 2^logn) :
    ∃ ra rb, answerPir data (leafBytes k (keyA k draw0 draw1 alpha logn) logn) = some ra ∧
      answerPir data (leafBytes k (keyB k draw0 draw1 alpha logn) logn) = some rb ∧
      data[alpha]? = some (ra.xor rb) := by
  have groups : data.length % 8 = 0 := by rw [size,groupsOfEight h]; omega
  have bytes (key) : data.length/8 ≤ (leafBytes k key logn).length := by
    rw [size]; exact enoughBytes k key h
  refine ⟨_,_,answerPirSelect data _ groups (bytes _),answerPirSelect data _ groups (bytes _),?_⟩
  rw [← addIsXor,size,selectShares addSelf _ ha (fun i hi => bytesArePoint k draw0 draw1 ha hi)]
  have inside : alpha < data.length := by omega
  simp [inside]

theorem cpuRetrieval {alpha logn : Nat} (small : logn ≤ 63) (ha : alpha < 2^logn)
    {data : List Record} (size : data.length = 2^logn) :
    (10 ≤ logn → ∃ ka kb a b ra rb, genFrom k draw0 draw1 alpha logn = some (ka,kb) ∧
      evalFull8 k ka logn = some a ∧ evalFull8 k kb logn = some b ∧
      answerPir data a = some ra ∧ answerPir data b = some rb ∧ data[alpha]? = some (ra.xor rb)) ∧
    (3 ≤ logn → ∃ ka kb a b ra rb, genFrom k draw0 draw1 alpha logn = some (ka,kb) ∧
      evalFull k ka logn = some a ∧ evalFull k kb logn = some b ∧
      answerPir data a = some ra ∧ answerPir data b = some rb ∧ data[alpha]? = some (ra.xor rb)) := by
  have keys := genFromKeys k draw0 draw1 small ha
  constructor
  · intro deep
    obtain ⟨ra,rb,first,second,found⟩ := answersRetrieve k draw0 draw1 (by omega) ha size
    have flagged := DpfLanes.genKeysFlagged k keys
    exact ⟨_,_,_,_,ra,rb,keys,DpfLanes.evalFull8Output k deep small flagged.1,
      DpfLanes.evalFull8Output k deep small flagged.2,first,second,found⟩
  · intro deep
    obtain ⟨ra,rb,first,second,found⟩ := answersRetrieve k draw0 draw1 deep ha size
    exact ⟨_,_,_,_,ra,rb,keys,evalFullLeaves k (keyALength k draw0 draw1 alpha logn) small,
      evalFullLeaves k (keyBLength k draw0 draw1 alpha logn) small,first,second,found⟩

end

theorem cpuRetrievalAes : ∃ ka kb a b ra rb,
    genFrom (fixedKeys Aes128.encrypt) (Aes128.encrypt TestBlock 0) (Aes128.encrypt TestBlock 1) 5 10 =
      some (ka,kb) ∧
    evalFull8 (fixedKeys Aes128.encrypt) ka 10 = some a ∧ evalFull8 (fixedKeys Aes128.encrypt) kb 10 = some b ∧
    answerPir ((List.range 1024).map recordOf) a = some ra ∧
    answerPir ((List.range 1024).map recordOf) b = some rb ∧
    ((List.range 1024).map recordOf)[5]? = some (ra.xor rb) := by
  have size : ((List.range 1024).map recordOf).length = 2^10 := by simp
  exact (cpuRetrieval (fixedKeys Aes128.encrypt) _ _ (by decide) (by decide) size).1 (by decide)

end ImPir.CpuPir
