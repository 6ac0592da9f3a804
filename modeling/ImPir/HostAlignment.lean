import Mathlib.Tactic.Linarith
import ImPir.HostSharding

/-! When a query is sharded the way the records are. Two ceilings decide: records per
DPU and query bytes per part. The shards line up exactly where the first is eight
times the second, which is a condition on the number of DPUs. -/
namespace ImPir.HostAlignment
open LittleEndian HostSharding

/- Every record that `setup_database` stores on a DPU of a cluster finds its own bit of
the query in the vector sent to that DPU. -/
def Aligned (inputs : List Byte → List (List Byte)) (N NUM_DPUS cluster : Nat) : Prop :=
  ∀ db, setupDatabase NUM_DPUS cluster (2^N) = some db → ∀ query : List Byte, query.length = 2^(N-3) →
    ∀ i < NUM_DPUS/cluster, ∀ r g, (storedIndices (2^N) db.dataPerDpu i)[r]? = some g →
      ∃ vector byte, (inputs query)[i]? = some vector ∧ vector[r/8]? = some byte ∧
        byte.getLsbD (r % 8) = bitAt query g

theorem ceilBounds {a b : Nat} (positive : 0 < b) : a ≤ b*((a + b - 1)/b) ∧ b*((a + b - 1)/b) ≤ a + b - 1 := by
  have low := Nat.lt_mul_div_succ (a + b - 1) positive
  have high := Nat.mul_div_le (a + b - 1) b
  rw [Nat.mul_add_one] at low
  omega

theorem ceilUnique {a b q : Nat} (positive : 0 < b) (low : a ≤ b*q) (high : b*q < a + b) : (a + b - 1)/b = q := by
  obtain ⟨low',high'⟩ := ceilBounds (a := a) positive
  apply Nat.le_antisymm
  · by_contra above
    have next : b*(q+1) ≤ b*((a + b - 1)/b) := Nat.mul_le_mul_left b (by omega)
    rw [Nat.mul_add_one] at next
    omega
  · by_contra below
    have next : b*((a + b - 1)/b + 1) ≤ b*q := Nat.mul_le_mul_left b (by omega)
    rw [Nat.mul_add_one] at next
    omega

theorem sameSplit {B D : Nat} (positive : 0 < D) :
    (8*B + D - 1)/D = 8*((B + D - 1)/D) ↔ B % D = 0 ∨ 7*D < 8*(B % D) := by
  have parts := Nat.div_add_mod B D
  have small := Nat.mod_lt B positive
  obtain ⟨low,high⟩ := ceilBounds (a := 8*B) positive
  rcases Nat.eq_zero_or_pos (B % D) with whole | some
  · have bytes : (B + D - 1)/D = B/D := ceilUnique positive (by omega) (by omega)
    have records : (8*B + D - 1)/D = 8*(B/D) :=
      ceilUnique positive (by rw [Nat.mul_left_comm]; omega) (by rw [Nat.mul_left_comm]; omega)
    rw [bytes,records]
    exact ⟨fun _ => Or.inl whole,fun _ => rfl⟩
  · have bytes : (B + D - 1)/D = B/D + 1 :=
      ceilUnique positive (by rw [Nat.mul_add_one]; omega) (by rw [Nat.mul_add_one]; omega)
    have product : D*(8*(B/D + 1)) = 8*(D*(B/D)) + 8*D := by ring
    rw [bytes]
    constructor
    · intro same
      rw [same,product] at high
      omega
    · intro large
      exact ceilUnique positive (by omega) (by omega)

theorem finerSplit {B D c : Nat} (positive : 0 < D) (some : 0 < B) (finer : 2 ≤ c) :
    (8*B + D - 1)/D = 8*((B + c*D - 1)/(c*D)) ↔ B ≤ D ∧ 7*D < 8*B := by
  have parts : 0 < c*D := Nat.mul_pos (by omega) positive
  have wide : 2*D ≤ c*D := Nat.mul_le_mul_right D finer
  constructor
  · intro same
    obtain ⟨low,high⟩ := ceilBounds (a := 8*B) positive
    obtain ⟨low',high'⟩ := ceilBounds (a := B) parts
    generalize (B + c*D - 1)/(c*D) = y at same low' high'
    rw [same] at low high
    have one : y = 1 := by
      rcases Nat.lt_trichotomy y 1 with none | one | more
      · have zero : y = 0 := by omega
        subst zero
        omega
      · exact one
      · obtain ⟨z,rfl⟩ : ∃ z, y = z+2 := ⟨y-2,by omega⟩
        have twice := Nat.mul_le_mul_right (z+1) wide
        have under : c*D*(z+2) < B + c*D := by omega
        nlinarith
    subst one
    omega
  · rintro ⟨few,near⟩
    have bytes : (B + c*D - 1)/(c*D) = 1 := ceilUnique parts (by omega) (by omega)
    rw [bytes]
    exact ceilUnique positive (by omega) (by omega)

def pointQuery (bytes point : Nat) : List Byte :=
  (List.range bytes).map (fun k => if k = point/8 then 1#8 <<< (point % 8) else 0#8)

theorem pointQueryBit {bytes point x : Nat} (inside : x < 8*bytes) :
    bitAt (pointQuery bytes point) x = decide (x = point) := by
  have row : x/8 < bytes := by omega
  have item : (pointQuery bytes point).getD (x/8) 0 = if x/8 = point/8 then 1#8 <<< (point % 8) else 0#8 := by
    simp [pointQuery,List.getD_eq_getElem?_getD,row]
  rw [bitAt,item]
  split
  · rename_i same
    have one : (1#8 <<< (point % 8)).getLsbD (x % 8) = decide (x % 8 = point % 8) := by
      have low : point % 8 < 8 := Nat.mod_lt _ (by omega)
      rw [← BitVec.twoPow_eq,BitVec.getLsbD_twoPow,decide_eq_true low,Bool.true_and]
      exact decide_eq_decide.mpr eq_comm
    rw [one]
    exact decide_eq_decide.mpr (by omega)
  · rename_i other
    have apart : x ≠ point := fun same => other (by rw [same])
    simp [apart]

theorem storedIndexIs {n d i r g : Nat} (product : i*d + d < 2^64) :
    (storedIndices n d i)[r]? = some g ↔ r < d ∧ g = i*d + r ∧ g < n := by
  have start := SizeT.mulExact (by omega : i*d < 2^64)
  have stop := SizeT.addExact product
  rw [storedIndices,start,stop]
  rcases Nat.lt_or_ge r (min (i*d + d) n - i*d) with inside | outside
  · rw [List.getElem?_range' inside,Option.some.injEq]
    omega
  · rw [List.getElem?_eq_none (by rw [List.length_range']; omega)]
    simp only [reduceCtorEq,false_iff]
    omega

theorem queryPartAt {P i k e : Nat} {query : List Byte} (inside : i < P) (fits : query.length + P ≤ 2^64)
    (ceil : e = (query.length + P - 1)/P) :
    (queryPart P query i)[k]? = if k < e ∨ i + 1 = P then query[i*e + k]? else none := by
  have bounds := ceilBounds (a := query.length) (by omega : 0 < P)
  have before : i*e ≤ (i+1)*e := Nat.mul_le_mul_right e (by omega)
  have within : (i+1)*e ≤ P*e := Nat.mul_le_mul_right e inside
  rw [← ceil] at bounds
  have start := SizeT.mulExact (by omega : i*e < 2^64)
  have stop := SizeT.mulExact (by omega : (i+1)*e < 2^64)
  have elems : SizeT.ceilDiv query.length P = e := by rw [ceil,SizeT.ceilDivExact (by omega) fits]
  rw [Nat.succ_mul] at stop within
  simp only [queryPart,elems,start,stop,List.getElem?_take,List.getElem?_drop]
  rcases Nat.lt_or_ge (i*e + k) query.length with here | past
  · have first : min (i*e) query.length = i*e := by omega
    rw [first]
    refine if_congr ?_ rfl rfl
    split <;> omega
  · have short : ¬ k < (if i + 1 = P then query.length else min (i*e + e) query.length) - min (i*e) query.length := by
      split <;> omega
    rw [if_neg short,List.getElem?_eq_none past,ite_self]

theorem setupPerDpu {NUM_DPUS cluster n : Nat} {db : Database} (set : setupDatabase NUM_DPUS cluster n = some db) :
    db.dataPerDpu = SizeT.ceilDiv n (NUM_DPUS/cluster) := by
  unfold setupDatabase at set
  split at set
  · rw [← Option.some.inj set]
  · contradiction

theorem setupAccepts {NUM_DPUS cluster : Nat} (accepted : Accepted NUM_DPUS cluster) (n : Nat) :
    ∃ db, setupDatabase NUM_DPUS cluster n = some db :=
  ⟨_,if_pos accepted⟩

theorem bytesOf {N : Nat} (large : 3 ≤ N) : 2^N = 8*2^(N-3) := by
  rw [show 8 = 2^3 from rfl,← pow_add]
  congr 1
  omega

/- The arithmetic of one configuration: `B` query bytes, `D` DPUs that hold `d` records
each, and `P` query parts of `e` bytes. -/
structure Split (B D P d e : Nat) : Prop where
  bytes : 0 < B
  dpus : 0 < D
  parts : D ≤ P
  records : d = (8*B + D - 1)/D
  elems : e = (B + P - 1)/P
  recordsFit : 8*B + D ≤ 2^64
  partsFit : B + P ≤ 2^64

theorem splitProduct {B D P d e i : Nat} (h : Split B D P d e) (inside : i < D) : i*d + d < 2^64 := by
  have bounds := ceilBounds (a := 8*B) h.dpus
  have within : (i+1)*d ≤ D*d := Nat.mul_le_mul_right d inside
  have records := h.records
  have fits := h.recordsFit
  rw [← records] at bounds
  rw [Nat.succ_mul] at within
  omega

theorem splitPart {B D P d e i k : Nat} (h : Split B D P d e) {query : List Byte} (length : query.length = B)
    (inside : i < D) :
    (splitQuery P query)[i]? = some (queryPart P query i) ∧
      (queryPart P query i)[k]? = if k < e ∨ i + 1 = P then query[i*e + k]? else none := by
  have within : i < P := Nat.lt_of_lt_of_le inside h.parts
  have fits := h.partsFit
  have elems := h.elems
  subst length
  exact ⟨by simp [splitQuery,within],queryPartAt within fits elems⟩

theorem alignedByteAt {B e i r : Nat} {query : List Byte} (length : query.length = B)
    (inside : i*(8*e) + r < 8*B) :
    ∃ byte, query[i*e + r/8]? = some byte ∧ byte.getLsbD (r % 8) = bitAt query (i*(8*e) + r) := by
  have product : i*(8*e) = 8*(i*e) := by ring
  have row : (i*(8*e) + r)/8 = i*e + r/8 := by omega
  have low : (i*(8*e) + r) % 8 = r % 8 := by omega
  have here : i*e + r/8 < query.length := by omega
  refine ⟨query[i*e + r/8],List.getElem?_eq_getElem here,?_⟩
  rw [bitAt,row,low,List.getD_eq_getElem?_getD,List.getElem?_eq_getElem here,Option.getD_some]

theorem splitAligns {B D P d e : Nat} (h : Split B D P d e) (same : d = 8*e) {query : List Byte}
    (length : query.length = B) {i r g : Nat} (inside : i < D) (stored : (storedIndices (8*B) d i)[r]? = some g) :
    ∃ vector byte, (splitQuery P query)[i]? = some vector ∧ vector[r/8]? = some byte ∧
      byte.getLsbD (r % 8) = bitAt query g := by
  obtain ⟨short,place,below⟩ := (storedIndexIs (splitProduct h inside)).mp stored
  subst same place
  obtain ⟨byte,found,bit⟩ := alignedByteAt length below
  obtain ⟨vector,atByte⟩ := splitPart (k := r/8) h length inside
  refine ⟨_,byte,vector,?_,bit⟩
  rw [atByte,if_pos (Or.inl (by omega)),found]

section
variable {B D P d e : Nat} (h : Split B D P d e)
  (aligned : ∀ query : List Byte, query.length = B → ∀ i < D, ∀ r g, (storedIndices (8*B) d i)[r]? = some g →
    ∃ vector byte, (splitQuery P query)[i]? = some vector ∧ vector[r/8]? = some byte ∧
      byte.getLsbD (r % 8) = bitAt query g)
include h aligned

theorem severalAligned (several : 1 < D) : d = 8*e := by
  obtain ⟨low,high⟩ := ceilBounds (a := 8*B) h.dpus
  rw [← h.records] at low high
  have bytes := h.bytes
  have second : d < 8*B := by
    by_contra all
    obtain ⟨more,rfl⟩ : ∃ more, D = more+2 := ⟨D-2,by omega⟩
    have most : (more+2)*(8*B) ≤ (more+2)*d := Nat.mul_le_mul_left _ (by omega)
    have eight : (more+1)*8 ≤ (more+1)*(8*B) := Nat.mul_le_mul_left _ (by omega)
    have under : (more+2)*d < 8*B + (more+2) := by omega
    nlinarith
  have positive : 0 < d := by
    rcases Nat.eq_zero_or_pos d with none | positive
    · rw [none,Nat.mul_zero] at low
      omega
    · exact positive
  have length : (pointQuery B d).length = B := by simp [pointQuery]
  have stored : (storedIndices (8*B) d 1)[0]? = some d :=
    (storedIndexIs (splitProduct h several)).mpr ⟨positive,by omega,second⟩
  obtain ⟨vector,byte,part,found,bit⟩ := aligned _ length 1 several 0 d stored
  obtain ⟨part',read⟩ := splitPart (k := 0/8) h length several
  rw [part] at part'
  rw [Option.some.inj part',read] at found
  split at found
  · rw [pointQueryBit (by omega)] at bit
    rw [show 1*e + 0/8 = e by omega] at found
    have inside : e < B := by
      rw [← length]
      exact (List.getElem?_eq_some_iff.mp found).1
    have first : bitAt (pointQuery B d) (8*e) = byte.getLsbD 0 := by
      rw [bitAt,Nat.mul_div_cancel_left e (by omega),Nat.mul_mod_right,List.getD_eq_getElem?_getD,found]
      rfl
    rw [pointQueryBit (by omega),bit] at first
    exact (of_decide_eq_true (first.trans (decide_eq_true rfl))).symm
  · contradiction

theorem singleAligned (one : D = 1) : d = 8*e := by
  subst one
  obtain ⟨low,high⟩ := ceilBounds (a := B) (Nat.lt_of_lt_of_le h.dpus h.parts)
  rw [← h.elems] at low high
  have bytes := h.bytes
  have all : d = 8*B := by rw [h.records]; omega
  have length : (pointQuery B 0).length = B := by simp [pointQuery]
  have stored : (storedIndices (8*B) d 0)[8*B - 1]? = some (8*B - 1) :=
    (storedIndexIs (splitProduct h Nat.one_pos)).mpr ⟨by omega,by omega,by omega⟩
  obtain ⟨vector,byte,part,found,bit⟩ := aligned _ length 0 Nat.one_pos _ _ stored
  obtain ⟨part',read⟩ := splitPart (k := (8*B-1)/8) h length Nat.one_pos
  rw [part] at part'
  rw [Option.some.inj part',read] at found
  have most : e ≤ B := by
    by_contra above
    have next : P*(B+1) ≤ P*e := Nat.mul_le_mul_left P (by omega)
    have wide : 1*B ≤ P*B := Nat.mul_le_mul_right B h.parts
    rw [Nat.mul_add_one] at next
    omega
  split at found
  · rename_i reach
    rcases reach with near | last
    · omega
    · have parts : P = 1 := by omega
      rw [parts] at low
      omega
  · contradiction

theorem splitMisses : d = 8*e := by
  rcases Nat.lt_or_ge 1 D with several | single
  · exact severalAligned h aligned several
  · exact singleAligned h aligned (by have := h.dpus; omega)

end

section
variable {N NUM_DPUS cluster P : Nat}

theorem alignedUnder (accepted : Accepted NUM_DPUS cluster) (inputs : List Byte → List (List Byte)) :
    Aligned inputs N NUM_DPUS cluster ↔ ∀ query : List Byte, query.length = 2^(N-3) → ∀ i < NUM_DPUS/cluster,
      ∀ r g, (storedIndices (2^N) (SizeT.ceilDiv (2^N) (NUM_DPUS/cluster)) i)[r]? = some g →
      ∃ vector byte, (inputs query)[i]? = some vector ∧ vector[r/8]? = some byte ∧
        byte.getLsbD (r % 8) = bitAt query g := by
  obtain ⟨db,set⟩ := setupAccepts accepted (2^N)
  have d := setupPerDpu set
  constructor
  · intro aligned
    rw [← d]
    exact aligned db set
  · intro aligned db' set'
    rw [setupPerDpu set']
    exact aligned

theorem storedNone (n i : Nat) : storedIndices n 0 i = [] := by
  have start : SizeT.mul i 0 = 0 := SizeT.mulExact (by omega)
  have stop : SizeT.add 0 0 = 0 := SizeT.addExact (by omega)
  rw [storedIndices,start,stop,Nat.zero_min]
  rfl

theorem partNone {P : Nat} {query : List Byte} (several : 1 < P) (none : SizeT.ceilDiv query.length P = 0) :
    queryPart P query 0 = [] := by
  have start : SizeT.mul 0 0 = 0 := SizeT.mulExact (by omega)
  have stop : SizeT.mul (0+1) 0 = 0 := SizeT.mulExact (by omega)
  have inner : 0 + 1 ≠ P := by omega
  simp only [queryPart,none,start,stop,if_neg inner,Nat.zero_min,Nat.sub_self,List.take_zero]

/- `NUM_DPUS / cluster` DPUs hold the records and `P` parts carry the query. A ceiling
whose sum wraps is zero: no record is stored, or no byte is sent. -/
theorem alignedIff (large : 10 ≤ N) (small : N ≤ 63) (accepted : Accepted NUM_DPUS cluster)
    (parts : NUM_DPUS/cluster ≤ P) (word : P < 2^64) :
    Aligned (splitQuery P) N NUM_DPUS cluster ↔ 2^64 < 2^N + NUM_DPUS/cluster ∨
      (2^(N-3) + P ≤ 2^64 ∧ (2^N + NUM_DPUS/cluster - 1)/(NUM_DPUS/cluster) = 8*((2^(N-3) + P - 1)/P)) := by
  have records := bytesOf (by omega : 3 ≤ N)
  have bytes : 0 < 2^(N-3) := Nat.two_pow_pos _
  have fewer : 2^N ≤ 2^63 := Nat.pow_le_pow_right (by omega) small
  have dpus : 0 < NUM_DPUS/cluster := Nat.div_pos accepted.2.1 accepted.1
  rw [alignedUnder accepted]
  generalize NUM_DPUS/cluster = D at parts dpus ⊢
  rcases Nat.lt_or_ge (2^64) (2^N + D) with wraps | fits
  · refine ⟨fun _ => Or.inl wraps,?_⟩
    intro _ query _ i _ r g stored
    rw [SizeT.ceilDivWraps (by omega) (by omega) wraps,storedNone] at stored
    contradiction
  · rw [SizeT.ceilDivExact dpus fits,records]
    generalize 2^(N-3) = B at records bytes ⊢
    rw [records] at fits fewer
    have exact : ∀ {p q : Prop}, (p ↔ q) → (p ↔ 2^64 < 8*B + D ∨ q) := by
      intro p q same
      rw [same]
      exact ⟨Or.inr,fun h => h.resolve_left (by omega)⟩
    apply exact
    rcases Nat.lt_or_ge (2^64) (B + P) with wraps | sent
    · refine ⟨?_,fun h => absurd h.1 (by omega)⟩
      intro aligned
      have length : (pointQuery B 0).length = B := by simp [pointQuery]
      have several : 1 < P := by omega
      have none : SizeT.ceilDiv (pointQuery B 0).length P = 0 := by
        rw [length]
        exact SizeT.ceilDivWraps (by omega) word wraps
      have first : (splitQuery P (pointQuery B 0))[0]? = some [] := by
        simp [splitQuery,show 0 < P by omega,partNone several none]
      have filled : 0 < (8*B + D - 1)/D := Nat.div_pos (by omega) dpus
      have stored : (storedIndices (8*B) ((8*B + D - 1)/D) 0)[0]? = some 0 := by
        have most := Nat.div_le_self (8*B + D - 1) D
        exact (storedIndexIs (by omega)).mpr ⟨filled,by omega,by omega⟩
      obtain ⟨vector,byte,part,found,_⟩ := aligned _ length 0 dpus 0 0 stored
      rw [first] at part
      rw [← Option.some.inj part] at found
      contradiction
    · have split : Split B D P _ _ := ⟨bytes,dpus,parts,rfl,rfl,fits,sent⟩
      constructor
      · exact fun aligned => ⟨sent,splitMisses split aligned⟩
      · exact fun same query length i inside r g stored => splitAligns split same.2 length inside stored

theorem batchAlignedIff (large : 10 ≤ N) (small : N ≤ 63) (accepted : Accepted NUM_DPUS cluster)
    (word : NUM_DPUS < 2^64) :
    Aligned (workerInputs NUM_DPUS cluster) N NUM_DPUS cluster ↔
      2^64 < 2^N + NUM_DPUS/cluster ∨ 2^(N-3) % (NUM_DPUS/cluster) = 0 ∨
        7*(NUM_DPUS/cluster) < 8*(2^(N-3) % (NUM_DPUS/cluster)) := by
  have records := bytesOf (by omega : 3 ≤ N)
  have fewer := Nat.div_le_self NUM_DPUS cluster
  have dpus : 0 < NUM_DPUS/cluster := Nat.div_pos accepted.2.1 accepted.1
  rw [show workerInputs NUM_DPUS cluster = splitQuery (NUM_DPUS/cluster) from rfl,
    alignedIff large small accepted (le_refl _) (by omega),records,sameSplit dpus]
  omega

theorem singleAlignedIff (large : 10 ≤ N) (small : N ≤ 63) (accepted : Accepted NUM_DPUS cluster)
    (word : NUM_DPUS < 2^64) :
    Aligned (executionInputs NUM_DPUS) N NUM_DPUS cluster ↔
      2^64 < 2^N + NUM_DPUS/cluster ∨
      (cluster = 1 ∧ (2^(N-3) % NUM_DPUS = 0 ∨ 7*NUM_DPUS < 8*(2^(N-3) % NUM_DPUS))) ∨
      (2 ≤ cluster ∧ 2^(N-3) ≤ NUM_DPUS/cluster ∧ 7*(NUM_DPUS/cluster) < 8*2^(N-3) ∧
        2^(N-3) + NUM_DPUS ≤ 2^64) := by
  have records := bytesOf (by omega : 3 ≤ N)
  have bytes : 0 < 2^(N-3) := Nat.two_pow_pos _
  have dpus : 0 < NUM_DPUS/cluster := Nat.div_pos accepted.2.1 accepted.1
  have all : cluster*(NUM_DPUS/cluster) = NUM_DPUS := Nat.mul_div_cancel' (Nat.dvd_of_mod_eq_zero accepted.2.2)
  rw [show executionInputs NUM_DPUS = splitQuery NUM_DPUS from rfl,
    alignedIff large small accepted (Nat.div_le_self _ _) word,records]
  rcases Nat.lt_or_ge 1 cluster with several | one
  · have split := finerSplit dpus bytes several
    rw [all] at split
    rw [split]
    omega
  · have single : cluster = 1 := by have := accepted.1; omega
    subst single
    rw [Nat.div_one] at dpus ⊢
    rw [sameSplit dpus]
    omega

theorem shardsAlignedWhen (large : 10 ≤ N) (small : N ≤ 63) (accepted : Accepted NUM_DPUS cluster)
    (word : NUM_DPUS < 2^64) :
    (Aligned (workerInputs NUM_DPUS cluster) N NUM_DPUS cluster ↔
      2^64 < 2^N + NUM_DPUS/cluster ∨ 2^(N-3) % (NUM_DPUS/cluster) = 0 ∨
        7*(NUM_DPUS/cluster) < 8*(2^(N-3) % (NUM_DPUS/cluster))) ∧
    (Aligned (executionInputs NUM_DPUS) N NUM_DPUS cluster ↔
      2^64 < 2^N + NUM_DPUS/cluster ∨
      (cluster = 1 ∧ (2^(N-3) % NUM_DPUS = 0 ∨ 7*NUM_DPUS < 8*(2^(N-3) % NUM_DPUS))) ∨
      (2 ≤ cluster ∧ 2^(N-3) ≤ NUM_DPUS/cluster ∧ 7*(NUM_DPUS/cluster) < 8*2^(N-3) ∧
        2^(N-3) + NUM_DPUS ≤ 2^64)) :=
  ⟨batchAlignedIff large small accepted word,singleAlignedIff large small accepted word⟩

end

theorem shardsAlignedTestSetup : Aligned (executionInputs 256) 20 256 1 ∧ Aligned (workerInputs 256 1) 20 256 1 := by
  have both := shardsAlignedWhen (by decide : 10 ≤ 20) (by decide : 20 ≤ 63) (by decide : Accepted 256 1)
    (by decide : 256 < 2^64)
  exact ⟨both.2.mpr (by decide),both.1.mpr (by decide)⟩

/- One DPU holds all 1024 records and is sent the first half of the query. -/
theorem halfQueryMisses : Accepted 2 2 ∧ ¬ Aligned (executionInputs 2) 10 2 2 := by
  refine ⟨by decide,?_⟩
  rw [singleAlignedIff (by decide : 10 ≤ 10) (by decide : 10 ≤ 63) (by decide : Accepted 2 2)
    (by decide : 2 < 2^64)]
  decide

end ImPir.HostAlignment
