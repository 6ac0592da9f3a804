import ImPir.BarrierPhases
import ImPir.DpuScan
import ImPir.Halving

/-! `main` of `dpu_task.c` on all tasklets. Between two barriers the tasklets' reads
and writes of `shared` and `out` may take any order; the reduction halves the number
of tasklets, and what reaches `out` is the sum over the tasklets it keeps. -/
namespace ImPir.DpuReduce
open Finset Records DpuKernel DpuScan Striping BarrierPhases Halving

inductive Cell where
  | shared (b tid : Nat)
  | out (b : Nat)
  deriving DecidableEq, Repr

abbrev Wram := Cell → Record

inductive Op where
  | store (b tid : Nat) (acc : Record)
  | xor256 (b tid step : Nat)
  | emit (b : Nat)
  deriving DecidableEq, Repr

def Op.cell : Op → Cell
  | .store b tid _ => .shared b tid
  | .xor256 b tid _ => .shared b tid
  | .emit b => .out b

def Op.value : Op → Wram → Record
  | .store _ _ acc, _ => acc
  | .xor256 b tid step, s => (s (.shared b tid)).xor (s (.shared b (tid + step)))
  | .emit b, s => s (.shared b 0)

section
variable (c : Tasklets)

def storeOps (baseB tileCount : Nat) (acc : Nat → Nat → Record) (tid : Nat) : List Op :=
  (List.range tileCount).map (fun tb => .store (baseB + tb) tid (acc tid tb))

def xorOps (baseB tileCount step tid : Nat) : List Op :=
  if tid < step then (List.range' baseB tileCount).map (fun b => .xor256 b tid step) else []

def emitOps (baseB tileCount tid : Nat) : List Op :=
  if tid = 0 then (List.range' baseB tileCount).map (fun b => .emit b) else []

def together (code : Nat → List Op) : List Op := (List.range c.nrTasklets).flatMap code

def tilePhases (baseB tileCount : Nat) (acc : Nat → Nat → Record) : List (List Op) :=
  together c (storeOps baseB tileCount acc) ::
    (steps c.nrTasklets).map (fun step => together c (xorOps baseB tileCount step)) ++
    [together c (emitOps baseB tileCount)]

def reducePhases (baseB tileCount : Nat) : List (List Op) :=
  (steps c.nrTasklets).map (fun step => together c (xorOps baseB tileCount step)) ++
    [together c (emitOps baseB tileCount)]

/- The phases of the tiles in `bases`; the accumulators go from tile to tile. -/
def tilesPhases (m : Mram) (dataBase dbSize numBatches : Nat) :
    List Nat → (Nat → Nat → Record) → List (List Op)
  | [], _ => []
  | baseB :: bases, acc =>
      let acc := fun tid => tileScan c m dataBase dbSize numBatches tid baseB (acc tid)
      tilePhases c baseB (tileCnt numBatches baseB) acc ++
        tilesPhases m dataBase dbSize numBatches bases acc

/- `main` for the arguments in `args`; `stale` is what the accumulators start with. -/
def mainPhases (m : Mram) (heap : Nat) (args : DpuArgs) (stale : Nat → Nat → Record) : List (List Op) :=
  tilesPhases c m heap args.databaseSizeBytes (clampBatches args.numBatches)
    (tileBases (clampBatches args.numBatches)) stale

theorem togetherMember {code : Nat → List Op} {a : Op} :
    a ∈ together c code ↔ ∃ tid < c.nrTasklets, a ∈ code tid := by
  simp [together]

theorem togetherIndependent {code : Nat → List Op}
    (own : ∀ tid, (code tid).Pairwise (fun a b => a.cell ≠ b.cell))
    (apart : ∀ tid tid', tid ≠ tid' → ∀ a ∈ code tid, ∀ b ∈ code tid', a.cell ≠ b.cell)
    (reads : ∀ tid tid', ∀ a ∈ code tid, ∀ b ∈ code tid', a.cell ≠ b.cell → ∀ (s : Wram) v,
      a.value (Function.update s b.cell v) = a.value s) :
    Independent Op.cell Op.value (together c code) := by
  refine ⟨?_,?_⟩
  · rw [together,List.pairwise_flatMap]
    refine ⟨fun tid _ => own tid,?_⟩
    exact List.nodup_range.imp (fun different => apart _ _ different)
  · intro a ma b mb different
    obtain ⟨tid,_,ma⟩ := (togetherMember c).mp ma
    obtain ⟨tid',_,mb⟩ := (togetherMember c).mp mb
    exact reads tid tid' a ma b mb different

theorem storeMember {baseB tileCount tid : Nat} {acc : Nat → Nat → Record} {a : Op} :
    a ∈ storeOps baseB tileCount acc tid ↔ ∃ tb < tileCount, a = .store (baseB + tb) tid (acc tid tb) := by
  simp [storeOps,eq_comm]

section
variable {active : Prop} [Decidable active] {f : Nat → Op} {baseB tileCount : Nat}

theorem guardedMember {a : Op} : a ∈ (if active then (List.range' baseB tileCount).map f else []) ↔
    active ∧ ∃ tb < tileCount, a = f (baseB + tb) := by
  split
  · rename_i on
    simp only [List.mem_map,List.mem_range'_1,on,true_and]
    constructor
    · rintro ⟨b,inside,rfl⟩
      exact ⟨b - baseB,by omega,by congr 1; omega⟩
    · rintro ⟨tb,inside,rfl⟩
      exact ⟨baseB + tb,by omega,rfl⟩
  · rename_i off
    simp [off]

theorem guardedApart (apart : ∀ b b', b ≠ b' → (f b).cell ≠ (f b').cell) :
    (if active then (List.range' baseB tileCount).map f else []).Pairwise (fun a b => a.cell ≠ b.cell) := by
  split
  · rw [List.pairwise_map]
    exact (List.nodup_range' 1).imp (fun different => apart _ _ different)
  · exact List.Pairwise.nil

end

theorem xorMember {baseB tileCount step tid : Nat} {a : Op} :
    a ∈ xorOps baseB tileCount step tid ↔ tid < step ∧ ∃ tb < tileCount, a = .xor256 (baseB + tb) tid step :=
  guardedMember

theorem emitMember {baseB tileCount tid : Nat} {a : Op} :
    a ∈ emitOps baseB tileCount tid ↔ tid = 0 ∧ ∃ tb < tileCount, a = .emit (baseB + tb) := guardedMember

theorem storeIndependent (baseB tileCount : Nat) (acc : Nat → Nat → Record) :
    Independent Op.cell Op.value (together c (storeOps baseB tileCount acc)) := by
  apply togetherIndependent
  · intro tid
    rw [storeOps,List.pairwise_map]
    exact List.nodup_range.imp (fun different => by simp [Op.cell,different])
  · intro tid tid' different a ma b mb
    obtain ⟨_,_,rfl⟩ := storeMember.mp ma
    obtain ⟨_,_,rfl⟩ := storeMember.mp mb
    simp [Op.cell,different]
  · intro tid tid' a ma b mb _ s v
    obtain ⟨_,_,rfl⟩ := storeMember.mp ma
    rfl

theorem xorIndependent (baseB tileCount step : Nat) :
    Independent Op.cell Op.value (together c (xorOps baseB tileCount step)) := by
  apply togetherIndependent
  · exact fun tid => guardedApart (fun b b' different => by simp [Op.cell,different])
  · intro tid tid' different a ma b mb
    obtain ⟨_,_,_,rfl⟩ := xorMember.mp ma
    obtain ⟨_,_,_,rfl⟩ := xorMember.mp mb
    simp [Op.cell,different]
  · intro tid tid' a ma b mb different s v
    obtain ⟨_,tb,_,rfl⟩ := xorMember.mp ma
    obtain ⟨active,tb',_,rfl⟩ := xorMember.mp mb
    have upper : Cell.shared (baseB + tb) (tid + step) ≠ .shared (baseB + tb') tid' := by
      simp only [ne_eq,Cell.shared.injEq,not_and]
      omega
    simp only [Op.value,Op.cell] at different ⊢
    rw [Function.update_of_ne different,Function.update_of_ne upper]

theorem emitIndependent (baseB tileCount : Nat) :
    Independent Op.cell Op.value (together c (emitOps baseB tileCount)) := by
  apply togetherIndependent
  · exact fun tid => guardedApart (fun b b' different => by simp [Op.cell,different])
  · intro tid tid' different a ma b mb
    obtain ⟨first,_⟩ := emitMember.mp ma
    obtain ⟨first',_⟩ := emitMember.mp mb
    omega
  · intro tid tid' a ma b mb _ s v
    obtain ⟨_,tb,_,rfl⟩ := emitMember.mp ma
    obtain ⟨_,tb',_,rfl⟩ := emitMember.mp mb
    rfl

def row (s : Wram) (b : Nat) : Nat → Record := fun tid => s (.shared b tid)

theorem storeRow {baseB tileCount tb tid : Nat} {acc : Nat → Nat → Record} {order : List Op}
    (perm : order.Perm (together c (storeOps baseB tileCount acc))) (s : Wram) (inTile : tb < tileCount)
    (inside : tid < c.nrTasklets) :
    row (BarrierPhases.run Op.cell Op.value order s) (baseB + tb) tid = acc tid tb :=
  phaseWritten (storeIndependent c baseB tileCount acc) perm (a := .store (baseB + tb) tid (acc tid tb))
    ((togetherMember c).mpr ⟨tid,inside,storeMember.mpr ⟨tb,inTile,rfl⟩⟩) s

theorem xorRow {baseB tileCount tb step : Nat} {order : List Op}
    (perm : order.Perm (together c (xorOps baseB tileCount step))) (s : Wram) (inTile : tb < tileCount)
    (half : step ≤ c.nrTasklets) :
    row (BarrierPhases.run Op.cell Op.value order s) (baseB + tb) = foldHalf step (row s (baseB + tb)) := by
  funext tid
  rcases Nat.lt_or_ge tid step with active | idle
  · rw [foldHalf,if_pos active]
    exact phaseWritten (xorIndependent c baseB tileCount step) perm (a := .xor256 (baseB + tb) tid step)
      ((togetherMember c).mpr ⟨tid,by omega,xorMember.mpr ⟨active,tb,inTile,rfl⟩⟩) s
  · rw [foldHalf,if_neg (by omega)]
    apply phaseKept perm
    intro a member
    obtain ⟨tid',_,own⟩ := (togetherMember c).mp member
    obtain ⟨active,tb',_,rfl⟩ := xorMember.mp own
    simp only [Op.cell,ne_eq,Cell.shared.injEq,not_and]
    omega

theorem stepsBound (n : Nat) : ∀ step ∈ steps n, step ≤ n := by
  induction n using steps.induct with
  | case1 n last =>
    rw [steps,if_pos last]
    simp
  | case2 n more ih =>
    rw [steps,if_neg more]
    intro step member
    rcases List.mem_cons.mp member with rfl | later
    · omega
    · have := ih step later
      omega

theorem stepsRow {baseB tileCount tb : Nat} (inTile : tb < tileCount) {halves : List Nat}
    (bounds : ∀ step ∈ halves, step ≤ c.nrTasklets) {s s' : Wram}
    (ran : Runs Op.cell Op.value (halves.map (fun step => together c (xorOps baseB tileCount step))) s s') :
    row s' (baseB + tb) = halves.foldl (fun f step => foldHalf step f) (row s (baseB + tb)) := by
  induction halves generalizing s with
  | nil =>
    cases ran
    rfl
  | cons step halves ih =>
    cases ran with
    | phase perm rest =>
      rw [ih (fun step' member => bounds step' (List.mem_cons_of_mem _ member)) rest,
        xorRow c perm s inTile (bounds step List.mem_cons_self),List.foldl_cons]

/- The reduction, whatever `shared` and `out` hold: of the query's row the partials of
the tasklets that the halving keeps. -/
theorem reduceOut {baseB tileCount tb : Nat} (inTile : tb < tileCount) {s s' : Wram}
    (ran : Runs Op.cell Op.value (reducePhases c baseB tileCount) s s') :
    s' (.out (baseB + tb)) =
      ∑ tid ∈ range c.nrTasklets, if keeps c.nrTasklets tid then row s (baseB + tb) tid else 0 := by
  obtain ⟨summed,halved,emitted⟩ := runsAppend ran
  have sum := congrFun (stepsRow c inTile (stepsBound _) halved) 0
  rw [← reduce,reduceSum c.positive] at sum
  cases emitted with
  | phase perm last =>
    cases last
    rw [← sum]
    exact phaseWritten (emitIndependent c baseB tileCount) perm (a := .emit (baseB + tb))
      ((togetherMember c).mpr ⟨0,c.positive,emitMember.mpr ⟨rfl,tb,inTile,rfl⟩⟩) summed

theorem tileOut {baseB tileCount tb : Nat} (inTile : tb < tileCount) {acc : Nat → Nat → Record} {s s' : Wram}
    (ran : Runs Op.cell Op.value (tilePhases c baseB tileCount acc) s s') :
    s' (.out (baseB + tb)) =
      ∑ tid ∈ range c.nrTasklets, if keeps c.nrTasklets tid then acc tid tb else 0 := by
  rw [tilePhases,List.cons_append] at ran
  cases ran with
  | phase perm rest =>
    rw [reduceOut c inTile rest]
    apply sum_congr rfl
    intro tid member
    rw [storeRow c perm s inTile (mem_range.mp member)]

theorem tileTouches {baseB tileCount b : Nat} {acc : Nat → Nat → Record}
    (outside : b < baseB ∨ baseB + tileCount ≤ b) :
    ∀ ops ∈ tilePhases c baseB tileCount acc, ∀ a ∈ ops, a.cell ≠ .out b := by
  intro ops member a inPhase
  rw [tilePhases,List.cons_append,List.mem_cons,List.mem_append,List.mem_map,List.mem_singleton] at member
  rcases member with rfl | ⟨step,_,rfl⟩ | rfl
  · obtain ⟨tid,_,own⟩ := (togetherMember c).mp inPhase
    obtain ⟨tb,_,rfl⟩ := storeMember.mp own
    simp [Op.cell]
  · obtain ⟨tid,_,own⟩ := (togetherMember c).mp inPhase
    obtain ⟨_,tb,_,rfl⟩ := xorMember.mp own
    simp [Op.cell]
  · obtain ⟨tid,_,own⟩ := (togetherMember c).mp inPhase
    obtain ⟨_,tb,_,rfl⟩ := emitMember.mp own
    simp only [Op.cell,ne_eq,Cell.out.injEq]
    omega

theorem tilesTouch {m : Mram} {heap dbSize numBatches b : Nat} {bases : List Nat}
    (outside : ∀ baseB ∈ bases, b < baseB ∨ baseB + tileCnt numBatches baseB ≤ b) (acc : Nat → Nat → Record) :
    ∀ ops ∈ tilesPhases c m heap dbSize numBatches bases acc, ∀ a ∈ ops, a.cell ≠ .out b := by
  induction bases generalizing acc with
  | nil => simp [tilesPhases]
  | cons baseB bases ih =>
    intro ops member
    rw [tilesPhases,List.mem_append] at member
    rcases member with here | later
    · exact tileTouches c (outside baseB List.mem_cons_self) ops here
    · exact ih (fun b' mem => outside b' (List.mem_cons_of_mem _ mem)) _ ops later

theorem tileCntAtMost (numBatches baseB : Nat) : tileCnt numBatches baseB ≤ 4 := by
  unfold tileCnt bTile
  split <;> omega

theorem tilesOut {m : Mram} {heap dbSize numBatches : Nat} (whole : 32 ∣ dbSize) {bases : List Nat}
    (spaced : bases.Pairwise (fun x y => x + 4 ≤ y)) {acc : Nat → Nat → Record} {s s' : Wram}
    (ran : Runs Op.cell Op.value (tilesPhases c m heap dbSize numBatches bases acc) s s')
    {baseB tb : Nat} (member : baseB ∈ bases) (inTile : tb < tileCnt numBatches baseB) :
    s' (.out (baseB + tb)) = ∑ tid ∈ range c.nrTasklets, if keeps c.nrTasklets tid
      then stripeFrom (totalRecords dbSize) 128 c.nrTasklets
        (term m heap (bitmapAt heap dbSize (baseB + tb))) tid
      else 0 := by
  induction bases generalizing acc s with
  | nil => contradiction
  | cons first bases ih =>
    obtain ⟨apart,rest⟩ := List.pairwise_cons.mp spaced
    obtain ⟨middle,tile,later⟩ := runsAppend ran
    rcases List.mem_cons.mp member with rfl | behind
    · have most := tileCntAtMost numBatches baseB
      have outside : ∀ base' ∈ bases, baseB + tb < base' ∨ base' + tileCnt numBatches base' ≤ baseB + tb :=
        fun base' mem => Or.inl (by have := apart base' mem; omega)
      rw [runsKept (tilesTouch c outside _) later,tileOut c inTile tile]
      apply sum_congr rfl
      intro tid _
      rw [tileScanStripe c m heap dbSize whole inTile]
    · exact ih rest later behind

theorem tileBasesSpaced (numBatches : Nat) : (tileBases numBatches).Pairwise (fun x y => x + 4 ≤ y) := by
  rw [tileBases,Loops.indices,Loops.strideIndices,List.pairwise_map]
  apply List.pairwise_lt_range.imp
  intro x y less
  unfold bTile
  omega

/- Every run of `main`, on any memory contents: `out[b]` is the XOR of the selected
records in the blocks of the kept tasklets. -/
theorem mainOut {m : Mram} {heap : Nat} {args : DpuArgs} (whole : 32 ∣ args.databaseSizeBytes)
    {stale : Nat → Nat → Record} {s s' : Wram} (ran : Runs Op.cell Op.value (mainPhases c m heap args stale) s s')
    {b : Nat} (inside : b < clampBatches args.numBatches) :
    s' (.out b) = ∑ r ∈ range (totalRecords args.databaseSizeBytes),
      if keeps c.nrTasklets (r/128 % c.nrTasklets)
        then term m heap (bitmapAt heap args.databaseSizeBytes b) r else 0 := by
  obtain ⟨tile,⟨member,inTile,same⟩,_⟩ := tileOfBatch inside
  rw [same,tilesOut c whole (tileBasesSpaced _) ran member inTile,stripesKept _ _ _ _ c.positive]

theorem reductionExact {baseB tileCount tb : Nat} (inTile : tb < tileCount) :
    (∀ s t s' t' : Wram, (∀ tid < c.nrTasklets, s (.shared (baseB + tb) tid) = t (.shared (baseB + tb) tid)) →
      Runs Op.cell Op.value (reducePhases c baseB tileCount) s s' →
      Runs Op.cell Op.value (reducePhases c baseB tileCount) t t' →
      s' (.out (baseB + tb)) = t' (.out (baseB + tb))) ∧
    ((∀ s s' : Wram, Runs Op.cell Op.value (reducePhases c baseB tileCount) s s' →
      s' (.out (baseB + tb)) = ∑ tid ∈ range c.nrTasklets, s (.shared (baseB + tb) tid)) ↔
      ∃ e, c.nrTasklets = 2^e) := by
  constructor
  · intro s t s' t' same ran ran'
    rw [reduceOut c inTile ran,reduceOut c inTile ran']
    apply sum_congr rfl
    intro tid member
    rw [row,row,same tid (mem_range.mp member)]
  · rw [← reduceAll c.positive (by decide : recordOf 1 ≠ 0)]
    constructor
    · intro all f
      -- a memory whose rows all hold `f`
      have ran : Runs Op.cell Op.value (reducePhases c baseB tileCount)
          (fun cell => match cell with | .shared _ tid => f tid | .out _ => 0) _ := runsInOrder _ _
      exact (reduceOut c inTile ran).symm.trans (all _ _ ran)
    · intro all s s' ran
      rw [reduceOut c inTile ran]
      exact all (row s (baseB + tb))

end

theorem reductionExactEight : ∃ s' : Wram,
    Runs Op.cell Op.value (reducePhases ⟨8,by decide⟩ 4 2) (fun _ => recordOf 1) s' ∧
    s' (.out (4 + 1)) = ∑ _tid ∈ range 8, recordOf 1 :=
  ⟨_,runsInOrder _ _,(@reductionExact ⟨8,by decide⟩ 4 2 1 (by decide)).2.mpr ⟨3,rfl⟩ _ _ (runsInOrder _ _)⟩

end ImPir.DpuReduce
