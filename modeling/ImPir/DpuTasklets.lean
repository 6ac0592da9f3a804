import ImPir.BarrierMachine
import ImPir.PimRetrieval
import ImPir.WordPhases

/-! `main` of `dpu_task.c` as the code of each tasklet, cut at its `barrier_wait` calls. Each
load and each store of a 64-bit word of `shared` or `out` is a step; the scan of MRAM, which
no tasklet writes, is taken as computed. The tasklets meet at every barrier and all return,
however their accesses interleave, and `out` holds what the phases put there. -/
namespace ImPir.DpuTasklets
open Finset LittleEndian Records DpuKernel DpuScan DpuReduce Halving BarrierPhases WordPhases
open BarrierMachine (Program Uniform Machine)
open HostSharding (Exec)

inductive Place where
  | w0
  | w1
  | w2
  | w3
  deriving DecidableEq, Repr

def Place.of (r : Record) : Place → BitVec 64
  | .w0 => r.w0
  | .w1 => r.w1
  | .w2 => r.w2
  | .w3 => r.w3

def recordWords : Words Record Place (BitVec 64) where
  word := Place.of
  value f := ⟨f .w0,f .w1,f .w2,f .w3⟩
  all := [.w0,.w1,.w2,.w3]
  wordValue _ i := by cases i <;> rfl
  valueWord _ := rfl
  once := by decide
  every i := by cases i <;> decide

def Op.reads : Op → List Cell
  | .store _ _ _ => []
  | .xor256 b tid step => [.shared b tid,.shared b (tid + step)]
  | .emit b => [.shared b 0]

def Op.made : Op → List Record → Record
  | .store _ _ acc, _ => acc
  | .xor256 _ _ _, [d,s] => d.xor s
  | .emit _, [s] => s
  | _, _ => 0

/- One word of it: `d->w[i] ^= s->w[i]`, or a copy. -/
def wordMade : Op × Place → List (BitVec 64) → BitVec 64
  | (.store _ _ acc,i), _ => recordWords.word acc i
  | (.xor256 _ _ _,_), [d,s] => d ^^^ s
  | (.emit _,_), [s] => s
  | _, _ => 0

section
variable (c : Tasklets)

/- A tile of one tasklet, after its scan left `acc`. -/
def tileCode (baseB tileCount tid : Nat) (acc : Nat → Record) : List (List Op) :=
  storeOps baseB tileCount (fun _ => acc) tid ::
    (steps c.nrTasklets).map (fun step => xorOps baseB tileCount step tid) ++ [emitOps baseB tileCount tid]

def tilesCode (m : Mram) (dataBase dbSize numBatches tid : Nat) : List Nat → (Nat → Record) → List (List Op)
  | [], _ => []
  | baseB :: bases, acc =>
      let acc := tileScan c m dataBase dbSize numBatches tid baseB acc
      tileCode c baseB (tileCnt numBatches baseB) tid acc ++ tilesCode m dataBase dbSize numBatches tid bases acc

/- From the barrier after `mem_reset` to the one that ends the last tile. -/
def mainCode (m : Mram) (heap : Nat) (args : DpuArgs) (tid : Nat) (stale : Nat → Record) : List (List Op) :=
  [] :: tilesCode c m heap args.databaseSizeBytes (clampBatches args.numBatches) tid
    (tileBases (clampBatches args.numBatches)) stale ++ [[]]

def taskletProgram (m : Mram) (heap : Nat) (args : DpuArgs) (stale : Nat → Nat → Record) :
    Program (Op × Place) where
  threads := c.nrTasklets
  code tid := (mainCode c m heap args tid (stale tid)).map (wordOps recordWords)

abbrev WordMemory := Cell × Place → BitVec 64

def KernelReachable (m : Mram) (heap : Nat) (args : DpuArgs) (stale : Nat → Nat → Record)
    (first : WordMemory) (s : Machine (Cell × Place) (BitVec 64)) : Prop :=
  BarrierMachine.Reachable (wordCell Op.cell) (wordReads Op.reads) wordMade (taskletProgram c m heap args stale) first s

def outOf (s : Machine (Cell × Place) (BitVec 64)) (b : Nat) : Record := packed recordWords s.memory (.out b)

/- DPUs whose tasklets ran to their ends, access by access. -/
def WordExec (heap : Nat) (exec : Exec) : Prop := ∀ i m args, ∃ stale first s,
  KernelReachable c m heap args stale first s ∧ BarrierMachine.Ended (taskletProgram c m heap args stale) s ∧
    ∀ b, exec i m args b = outOf s b

def barrierCount (numBatches : Nat) : Nat := 1 + (tileBases numBatches).length*((steps c.nrTasklets).length + 2)

def gather (code : Nat → List (List Op)) (len : Nat) : List (List Op) :=
  (List.range len).map (fun p => together c (fun tid => (code tid).getD p []))

variable {c}

theorem gatherAppend {code code' : Nat → List (List Op)} {len : Nat} (length : ∀ tid, (code tid).length = len)
    (len' : Nat) : gather c (fun tid => code tid ++ code' tid) (len + len') = gather c code len ++ gather c code' len' := by
  rw [gather,gather,gather,List.range_add,List.map_append,List.map_map]
  congr 1
  · apply List.map_congr_left
    intro p member
    have inside := List.mem_range.mp member
    congr 1
    funext tid
    rw [List.getD_append _ _ _ _ (by rw [length]; exact inside)]
  · apply List.map_congr_left
    intro p _
    simp only [Function.comp_apply]
    congr 1
    funext tid
    rw [List.getD_append_right _ _ _ _ (by rw [length]; omega),length,Nat.add_sub_cancel_left]

theorem gatherOne (code : Nat → List Op) : gather c (fun tid => [code tid]) 1 = [together c code] := rfl

theorem gatherMap {β : Type} (halves : List β) (f : β → Nat → List Op) :
    gather c (fun tid => halves.map (fun step => f step tid)) halves.length =
      halves.map (fun step => together c (f step)) := by
  apply List.ext_getElem?
  intro p
  rcases Nat.lt_or_ge p halves.length with inside | outside
  · simp [gather,inside,List.getD_eq_getElem?_getD]
  · simp [gather,outside]

theorem gatherAround {front back : Nat → List Op} {middle : Nat → List (List Op)} {len : Nat}
    (length : ∀ tid, (middle tid).length = len) :
    gather c (fun tid => front tid :: middle tid ++ [back tid]) (len + 2) =
      together c front :: gather c middle len ++ [together c back] := by
  have last := @gatherAppend c (fun tid => front tid :: middle tid) (fun tid => [back tid]) (1 + len)
    (fun tid => by rw [List.length_cons,length,Nat.add_comm]) 1
  have first := @gatherAppend c (fun tid => [front tid]) middle 1 (fun _ => rfl) len
  rw [show len + 2 = 1 + len + 1 by omega]
  exact last.trans (congrArg (· ++ _) first)

theorem tileLength (baseB tileCount tid : Nat) (acc : Nat → Record) :
    (tileCode c baseB tileCount tid acc).length = (steps c.nrTasklets).length + 2 := by
  simp [tileCode]

theorem gatherTile (baseB tileCount : Nat) (acc : Nat → Nat → Record) :
    gather c (fun tid => tileCode c baseB tileCount tid (acc tid)) ((steps c.nrTasklets).length + 2) =
      tilePhases c baseB tileCount acc := by
  have halves := gatherMap (c := c) (steps c.nrTasklets) (fun step tid => xorOps baseB tileCount step tid)
  rw [tilePhases,← halves]
  exact gatherAround (fun tid => List.length_map _)

theorem tilesLength {m : Mram} {dataBase dbSize numBatches : Nat} (bases : List Nat) (tid : Nat)
    (acc : Nat → Record) : (tilesCode c m dataBase dbSize numBatches tid bases acc).length =
      bases.length*((steps c.nrTasklets).length + 2) := by
  induction bases generalizing acc with
  | nil => simp [tilesCode]
  | cons baseB bases ih =>
    rw [tilesCode,List.length_append,tileLength,ih,List.length_cons,Nat.succ_mul,Nat.add_comm]

theorem gatherTiles {m : Mram} {dataBase dbSize numBatches : Nat} (bases : List Nat) (acc : Nat → Nat → Record) :
    gather c (fun tid => tilesCode c m dataBase dbSize numBatches tid bases (acc tid))
      (bases.length*((steps c.nrTasklets).length + 2)) = tilesPhases c m dataBase dbSize numBatches bases acc := by
  induction bases generalizing acc with
  | nil => simp [gather,tilesPhases]
  | cons baseB bases ih =>
    rw [tilesPhases,← gatherTile,← ih,← gatherAppend (fun tid => tileLength _ _ tid _),List.length_cons,
      Nat.succ_mul,Nat.add_comm]
    rfl

theorem mainLength {m : Mram} {heap : Nat} {args : DpuArgs} (tid : Nat) (stale : Nat → Record) :
    (mainCode c m heap args tid stale).length = barrierCount c (clampBatches args.numBatches) + 1 := by
  rw [mainCode,List.cons_append,List.length_cons,List.length_append,tilesLength,barrierCount,List.length_singleton]
  omega

theorem gatherMain {m : Mram} {heap : Nat} {args : DpuArgs} (stale : Nat → Nat → Record) :
    gather c (fun tid => mainCode c m heap args tid (stale tid)) (barrierCount c (clampBatches args.numBatches) + 1) =
      [] :: mainPhases c m heap args stale ++ [[]] := by
  have none : together c (fun _ => []) = [] := by simp [together]
  have tiles := @gatherTiles c m heap args.databaseSizeBytes (clampBatches args.numBatches)
    (tileBases (clampBatches args.numBatches)) stale
  have around := @gatherAround c (fun _ => []) (fun _ => []) _ _ (fun tid =>
    @tilesLength c m heap args.databaseSizeBytes (clampBatches args.numBatches)
      (tileBases (clampBatches args.numBatches)) tid (stale tid))
  rw [tiles,none,← mainPhases] at around
  rw [← around,barrierCount,Nat.add_comm 1,Nat.add_assoc]
  rfl

theorem programUniform (m : Mram) (heap : Nat) (args : DpuArgs) (stale : Nat → Nat → Record) :
    Uniform (taskletProgram c m heap args stale) (barrierCount c (clampBatches args.numBatches)) :=
  ⟨c.positive,fun tid _ => by rw [taskletProgram,List.length_map,mainLength]⟩

theorem machinePhases (m : Mram) (heap : Nat) (args : DpuArgs) (stale : Nat → Nat → Record) :
    BarrierMachine.phases (taskletProgram c m heap args stale) (barrierCount c (clampBatches args.numBatches)) =
      ([] :: mainPhases c m heap args stale ++ [[]]).map (wordOps recordWords) := by
  rw [← gatherMain,BarrierMachine.phases,gather,List.map_map]
  apply List.map_congr_left
  intro p _
  rw [Function.comp_apply,BarrierMachine.phase,together,wordOps,List.flatMap_assoc]
  apply List.flatMap_congr
  intro tid _
  rw [Program.ops,taskletProgram,List.getD_eq_getElem?_getD,List.getElem?_map,List.getD_eq_getElem?_getD]
  cases (mainCode c m heap args tid (stale tid))[p]? <;> rfl

theorem xorWord (x y : Record) (i : Place) :
    recordWords.word (x.xor y) i = recordWords.word x i ^^^ recordWords.word y i := by
  cases i <;> rfl

theorem opPerWord (a : Op) : PerWord recordWords Op.value a := by
  intro s s' i same
  cases a with
  | store b tid acc => rfl
  | xor256 b tid step => rw [Op.value,Op.value,xorWord,xorWord,same,same]
  | emit b => exact same (.shared b 0)

theorem opLoads : loadedValue Op.reads Op.made = Op.value := by
  funext a s
  cases a <;> rfl

theorem wordLoads : loadedValue (wordReads Op.reads) wordMade = wordValue recordWords Op.value := by
  funext a m
  obtain ⟨a,i⟩ := a
  cases a with
  | store b tid acc => rfl
  | xor256 b tid step => cases i <;> rfl
  | emit b => cases i <;> rfl

theorem storeApart (baseB tileCount : Nat) (acc : Nat → Nat → Record) :
    Apart Op.cell Op.reads (together c (storeOps baseB tileCount acc)) := by
  refine ⟨(storeIndependent c baseB tileCount acc).distinct,?_⟩
  intro a ma b _ _
  obtain ⟨tid,_,code⟩ := (togetherMember c).mp ma
  obtain ⟨tb,_,rfl⟩ := storeMember.mp code
  exact List.not_mem_nil

theorem xorApart (baseB tileCount step : Nat) : Apart Op.cell Op.reads (together c (xorOps baseB tileCount step)) := by
  refine ⟨(xorIndependent c baseB tileCount step).distinct,?_⟩
  intro a ma b mb different source
  obtain ⟨tid,_,code⟩ := (togetherMember c).mp ma
  obtain ⟨tid',_,code'⟩ := (togetherMember c).mp mb
  obtain ⟨_,tb,_,rfl⟩ := xorMember.mp code
  obtain ⟨lower,tb',_,rfl⟩ := xorMember.mp code'
  rcases List.mem_pair.mp source with own | upper
  · exact different own.symm
  · -- the upper half is read, and only the lower one written
    have same := (Cell.shared.inj upper).2
    omega

theorem emitApart (baseB tileCount : Nat) : Apart Op.cell Op.reads (together c (emitOps baseB tileCount)) := by
  refine ⟨(emitIndependent c baseB tileCount).distinct,?_⟩
  intro a ma b mb _
  obtain ⟨tid,_,code⟩ := (togetherMember c).mp ma
  obtain ⟨tid',_,code'⟩ := (togetherMember c).mp mb
  obtain ⟨_,tb,_,rfl⟩ := emitMember.mp code
  obtain ⟨_,tb',_,rfl⟩ := emitMember.mp code'
  simp [Op.cell,Op.reads]

theorem tileApart (baseB tileCount : Nat) (acc : Nat → Nat → Record) :
    ∀ ops ∈ tilePhases c baseB tileCount acc, Apart Op.cell Op.reads ops := by
  intro ops member
  rw [tilePhases,List.cons_append,List.mem_cons,List.mem_append,List.mem_map,List.mem_singleton] at member
  rcases member with rfl | ⟨step,_,rfl⟩ | rfl
  · exact storeApart baseB tileCount acc
  · exact xorApart baseB tileCount step
  · exact emitApart baseB tileCount

theorem tilesApart {m : Mram} {heap dbSize numBatches : Nat} (bases : List Nat) (acc : Nat → Nat → Record) :
    ∀ ops ∈ tilesPhases c m heap dbSize numBatches bases acc, Apart Op.cell Op.reads ops := by
  induction bases generalizing acc with
  | nil => simp [tilesPhases]
  | cons baseB bases ih =>
    intro ops member
    rw [tilesPhases,List.mem_append] at member
    rcases member with here | later
    · exact tileApart baseB _ _ ops here
    · exact ih _ ops later

theorem emptyApart : Apart Op.cell Op.reads [] := ⟨.nil,by simp⟩

theorem mainApart (m : Mram) (heap : Nat) (args : DpuArgs) (stale : Nat → Nat → Record) :
    ∀ ops ∈ [] :: mainPhases c m heap args stale ++ [[]], Apart Op.cell Op.reads ops := by
  intro ops member
  rw [List.cons_append,List.mem_cons,List.mem_append,List.mem_singleton] at member
  rcases member with rfl | inside | rfl
  · exact emptyApart
  · exact tilesApart _ _ ops inside
  · exact emptyApart

theorem mainIndependent (m : Mram) (heap : Nat) (args : DpuArgs) (stale : Nat → Nat → Record) :
    ∀ ops ∈ [] :: mainPhases c m heap args stale ++ [[]], Independent Op.cell Op.value ops := by
  intro ops member
  rw [← opLoads]
  exact apartIndependent (mainApart m heap args stale ops member) Op.made

theorem machineApart (m : Mram) (heap : Nat) (args : DpuArgs) (stale : Nat → Nat → Record) :
    ∀ p ≤ barrierCount c (clampBatches args.numBatches),
      Apart (wordCell Op.cell) (wordReads Op.reads) (BarrierMachine.phase (taskletProgram c m heap args stale) p) := by
  intro p below
  have member : BarrierMachine.phase (taskletProgram c m heap args stale) p ∈
      ([] :: mainPhases c m heap args stale ++ [[]]).map (wordOps recordWords) := by
    rw [← machinePhases]
    exact List.mem_map_of_mem (List.mem_range.mpr (by omega))
  obtain ⟨ops,inMain,same⟩ := List.mem_map.mp member
  rw [← same]
  exact wordApart (mainApart m heap args stale ops inMain)

theorem emptyPhase {phases : List (List Op)} {s s' : Wram} (ran : Runs Op.cell Op.value ([] :: phases) s s') :
    Runs Op.cell Op.value phases s s' := by
  cases ran with
  | phase perm rest =>
    rw [List.perm_nil.mp perm] at rest
    exact rest

theorem machineRefines {m : Mram} {heap : Nat} {args : DpuArgs} {stale : Nat → Nat → Record} {first : WordMemory}
    {s : Machine (Cell × Place) (BitVec 64)} (reached : KernelReachable c m heap args stale first s)
    (ended : BarrierMachine.Ended (taskletProgram c m heap args stale) s) :
    Runs Op.cell Op.value (mainPhases c m heap args stale) (packed recordWords first) (packed recordWords s.memory) := by
  have ran := BarrierMachine.endedRuns (programUniform m heap args stale) (machineApart m heap args stale) reached ended
  rw [machinePhases,wordLoads] at ran
  obtain ⟨middle,body,tail⟩ := runsAppend (emptyPhase
    (wordRuns (mainIndependent m heap args stale) (fun _ _ a _ => opPerWord a) ran))
  have last := emptyPhase tail
  cases last
  exact body

theorem machineExec {heap : Nat} {exec : Exec} (runs : WordExec c heap exec) : PimRetrieval.MainExec c heap exec := by
  intro i m args
  obtain ⟨stale,first,s,reached,ended,answer⟩ := runs i m args
  exact ⟨stale,_,_,machineRefines reached ended,answer⟩

theorem someTaskletsEnd (m : Mram) (heap : Nat) (args : DpuArgs) (stale : Nat → Nat → Record) (first : WordMemory) :
    ∃ s, KernelReachable c m heap args stale first s ∧ BarrierMachine.Ended (taskletProgram c m heap args stale) s :=
  BarrierMachine.someEnd (programUniform m heap args stale) (machineApart m heap args stale)

end

end ImPir.DpuTasklets
