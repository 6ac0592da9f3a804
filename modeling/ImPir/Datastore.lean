import ImPir.LittleEndian
import ImPir.Loops
import ImPir.Records

/-! `datastore::answer_pir`: eight striped accumulators over the records, one index
byte for each group of eight. An index byte or a record that is not there, and the
failed assert on the size, have no result. -/
namespace ImPir.Datastore
open LittleEndian Loops Records XorSum

/- `-((tmp >> lane) & 1)`. -/
def laneMask (tmp : BitVec 64) (lane : Nat) : BitVec 64 := -((tmp >>> lane) &&& 1)

def answerStep (data : List Record) (indexing : List Byte) (results : Fin 8 → Record) (i : Nat) :
    Option (Fin 8 → Record) := do
  let tmp ← readByte indexing (i/8)
  if i + 7 < data.length then
    some (fun lane => (results lane).xor ((data.getD (i+lane.val) 0).masked (laneMask (tmp.setWidth 64) lane.val)))
  else none

def answerPir (data : List Record) (indexing : List Byte) : Option Record := do
  if data.length % 8 = 0 then
    let results ← (indices 0 data.length 8).foldlM (answerStep data indexing) (fun _ => 0)
    let result := (results 0).xor (results 1)
    let result := result.xor (results 2)
    let result := result.xor (results 3)
    let result := result.xor (results 4)
    let result := result.xor (results 5)
    let result := result.xor (results 6)
    some (result.xor (results 7))
  else none

theorem laneMaskBit (tmp : Byte) {lane : Nat} (h : lane < 8) :
    laneMask (tmp.setWidth 64) lane = if tmp.getLsbD lane then BitVec.allOnes 64 else 0 := by
  have wide : (tmp.setWidth 64).getLsbD lane = tmp.getLsbD lane := by
    rw [BitVec.getLsbD_setWidth,decide_eq_true (by omega),Bool.true_and]
  have low := shiftAndOne (tmp.setWidth 64) lane
  rw [wide] at low
  rw [laneMask,show (1 : BitVec 64) = 1#64 from rfl,low]
  cases tmp.getLsbD lane <;> decide

section
variable (data : List Record) (indexing : List Byte)

/- After `j` groups lane `k` holds the selected records of index `k` modulo 8. -/
theorem answerLanes {j : Nat} (records : 8*j ≤ data.length) (bytes : j ≤ indexing.length) :
    ((List.range j).map (fun t => 8*t)).foldlM (answerStep data indexing) (fun _ => 0) =
      some (fun lane => ∑ t ∈ Finset.range j,
        if bitAt indexing (t*8 + lane.val) then data.getD (t*8 + lane.val) 0 else 0) := by
  induction j with
  | zero => rfl
  | succ j ih =>
    have inside : 8*j + 7 < data.length := by omega
    have present : indexing[j]? = some (indexing.getD j 0) := by
      simp [List.getElem?_eq_getElem (by omega : j < indexing.length)]
    rw [List.range_succ,List.map_append,List.foldlM_append,ih (by omega) (by omega)]
    simp only [List.map_cons,List.map_nil,List.foldlM_cons,List.foldlM_nil,Option.bind_eq_bind,
      Option.bind_some,answerStep,readByte,Nat.mul_div_cancel_left j (by omega : 0 < 8),present,
      if_pos inside,Option.pure_def,Option.some.injEq]
    funext lane
    have byte : (j*8 + lane.val)/8 = j := by omega
    have low : (j*8 + lane.val) % 8 = lane.val := by omega
    rw [Finset.sum_range_succ,laneMaskBit _ lane.isLt,maskedBit,bitAt,byte,low,Nat.mul_comm 8 j]
    rfl

theorem answerPirSelect (groups : data.length % 8 = 0) (bytes : data.length/8 ≤ indexing.length) :
    answerPir data indexing = some (select data.length (bitAt indexing) (fun i => data.getD i 0)) := by
  have rows : data.length = 8*(data.length/8) := by omega
  have lanes := answerLanes data indexing (by omega : 8*(data.length/8) ≤ data.length) bytes
  have split := sumRows (data.length/8) 8 (fun i => if bitAt indexing i then data.getD i 0 else 0)
  rw [Finset.sum_comm] at split
  rw [answerPir,if_pos groups,show indices 0 data.length 8 = _ by rw [rows,indicesRows (by decide : 0 < 8)],lanes]
  simp only [Option.bind_eq_bind,Option.bind_some,← addIsXor,Option.some.injEq]
  rw [select,show Finset.range data.length = Finset.range (data.length/8*8) by rw [Nat.mul_comm,← rows],split]
  simp only [Finset.sum_range_succ,Finset.sum_range_zero,zero_add]
  rfl

/- The scan without lanes: one accumulator over all records. -/
def plainScan : Record :=
  (List.range data.length).foldl
    (fun result i => if bitAt indexing i then result.xor (data.getD i 0) else result) 0

theorem plainScanSelect : plainScan data indexing = select data.length (bitAt indexing) (fun i => data.getD i 0) := by
  rw [plainScan,select]
  generalize data.length = n
  induction n with
  | zero => rfl
  | succ n ih =>
    rw [List.range_succ,List.foldl_append,ih,Finset.sum_range_succ,List.foldl_cons,List.foldl_nil]
    cases bitAt indexing n with
    | true => rfl
    | false => exact (add_zero _).symm

end

section
variable {data : List Record}

theorem answerPirLinear (groups : data.length % 8 = 0) {a b : List Byte} (same : a.length = b.length)
    (bytes : data.length/8 ≤ a.length) :
    ∃ ra rb, answerPir data a = some ra ∧ answerPir data b = some rb ∧
      answerPir data (xorBytes a b) = some (ra.xor rb) := by
  have both : data.length/8 ≤ (xorBytes a b).length := by
    rw [xorBytes,List.length_zipWith]
    omega
  refine ⟨_,_,answerPirSelect data a groups bytes,answerPirSelect data b groups (by omega),?_⟩
  rw [answerPirSelect data _ groups both,← addIsXor,← selectXor addSelf]
  congr 1
  exact selectCongr (fun i _ => bitAtXor same i) (fun _ _ => rfl)

theorem answerPirScans (groups : data.length % 8 = 0) :
    (∀ indexing : List Byte, data.length/8 ≤ indexing.length →
      answerPir data indexing = some (plainScan data indexing) ∧
      ((∀ i < data.length, bitAt indexing i = false) → answerPir data indexing = some 0)) ∧
    (∀ a b : List Byte, data.length/8 ≤ a.length → data.length/8 ≤ b.length →
      a.take (data.length/8) = b.take (data.length/8) → answerPir data a = answerPir data b) ∧
    ∀ a b : List Byte, a.length = b.length → data.length/8 ≤ a.length →
      ∃ ra rb, answerPir data a = some ra ∧ answerPir data b = some rb ∧
        answerPir data (xorBytes a b) = some (ra.xor rb) := by
  refine ⟨?_,?_,fun a b same bytes => answerPirLinear groups same bytes⟩
  · intro indexing bytes
    have answer := answerPirSelect data indexing groups bytes
    refine ⟨by rw [answer,plainScanSelect],?_⟩
    intro unset
    rw [answer,selectNone _ unset]
  · intro a b enough enough' same
    rw [answerPirSelect data a groups enough,answerPirSelect data b groups enough']
    congr 1
    exact selectCongr (fun i inside => bitAtTake same (by omega)) (fun _ _ => rfl)

end

theorem answerPirScansEight :
    answerPir ((List.range 8).map recordOf) [0x28#8,0xff#8] =
      some (plainScan ((List.range 8).map recordOf) [0x28#8,0xff#8]) :=
  ((@answerPirScans ((List.range 8).map recordOf) rfl).1 [0x28#8,0xff#8] (by decide)).1

end ImPir.Datastore
