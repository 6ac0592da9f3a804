import ImPir.CommandLine
import ImPir.HostSharding

/-! The two `main`s: which run they start for which command line, on a machine that may
refuse them memory or DPUs. -/
namespace ImPir.Benchmarks
open CommandLine HostSharding

def modeKey : Text := ['m','o','d','e']
def logNKey : Text := ['l','o','g','N']
def repsKey : Text := ['r','e','p','s']
def batchKey : Text := ['b','a','t','c','h']
def clusterKey : Text := ['c','l','u','s','t','e','r']
def numDpusKey : Text := ['n','u','m','_','d','p','u','s']

def single : Text := ['s','i','n','g','l','e']
def single8 : Text := ['s','i','n','g','l','e','8']
def batch : Text := ['b','a','t','c','h']
def batch8 : Text := ['b','a','t','c','h','8']

def number (args : Args) (key : Text) (preset : Nat) : Except Stop Nat :=
  match args key with
  | none => .ok preset
  | some text => stoul text

def unknownMode (mode : Text) : Stop := .exit ("Unknown mode: " ++ String.ofList mode ++ "\n")

/- What stops `setup_database` behind its assertions: an exception of the SDK, whose text it
prints, or memory for `dpu_store`. -/
inductive Refusal where
  | DpuError (what : String)
  | badAlloc
  deriving DecidableEq, Repr

/- What the machine answers: if it has so many bytes, and how `setup_database` fares. -/
structure Machine where
  memory : Nat → Bool
  setup : (NUM_DPUS cluster numElements : Nat) → Option Refusal

def Refusal.stop : Refusal → Stop
  | .DpuError what => .exit (what ++ "\n")
  | .badAlloc => .badAlloc

/- `max_size` of a `std::vector`: its elements may take all of `PTRDIFF_MAX` bytes. -/
def maxSize (size : Nat) : Nat := (2^63 - 1)/size

def storage (machine : Machine) (size n : Nat) : Except Stop Unit :=
  if maxSize size < n then .error .lengthError
  else if n = 0 ∨ machine.memory (n*size) = true then .ok ()
  else .error .badAlloc

inductive CpuRun where
  | runSingleQueryVectorized (N reps : Nat)
  | runSingleQueryScalar (N reps : Nat)
  | runBatchQuery (N batchSize reps : Nat)
  | runBatchQuery8 (N batchSize reps : Nat)
  deriving DecidableEq, Repr

def cpuUsage : Stop := .exit ("Usage:\n  ./cpu_bench mode=single8 logN=24 reps=5\n" ++
  "  ./cpu_bench mode=single logN=24 reps=5\n  ./cpu_bench mode=batch8 logN=25 batch=64 reps=10\n" ++
  "  ./cpu_bench mode=batch logN=25 batch=64 reps=10\n")

def missingBatch : Stop := .exit "Missing 'batch' parameter for batch mode.\n"

/- `batch` has no preset in `cpu_bench`. -/
def withBatch (args : Args) (run : Nat → CpuRun) : Except Stop CpuRun :=
  match args batchKey with
  | none => .error missingBatch
  | some text => do .ok (run (← stoul text))

def cpuStart (machine : Machine) (args : Args) (mode logN : Text) : Except Stop CpuRun := do
  let N ← stoul logN
  let reps ← number args repsKey 10
  if 64 ≤ N then .error .undefined
  else do
    storage machine 32 (1 <<< N)
    if mode = single8 then .ok (.runSingleQueryVectorized N reps)
    else if mode = single then .ok (.runSingleQueryScalar N reps)
    else if mode = batch then withBatch args (fun batchSize => .runBatchQuery N batchSize reps)
    else if mode = batch8 then withBatch args (fun batchSize => .runBatchQuery8 N batchSize reps)
    else .error (unknownMode mode)

def cpuMain (machine : Machine) (argv : List Text) : Except Stop CpuRun :=
  match parseArgs argv modeKey,parseArgs argv logNKey with
  | some mode,some logN => cpuStart machine (parseArgs argv) mode logN
  | _,_ => .error cpuUsage

inductive PimRun where
  | runSingleQueryPim (N reps : Nat)
  | runBatchQueryPim (N batchSize cluster reps : Nat)
  deriving DecidableEq, Repr

structure PimStart where
  NUM_DPUS : Nat
  db : Database
  run : PimRun

def pimUsage : Stop := .exit ("Usage:\n  ./pim_bench num_dpus=256 mode=single logN=20 reps=10\n" ++
  "  ./pim_bench num_dpus=256 mode=batch logN=20 batch=64 cluster=1 reps=10\n")

def loadedDatabase (machine : Machine) (NUM_DPUS cluster numElements : Nat) : Except Stop Database :=
  match setupDatabase NUM_DPUS cluster numElements,machine.setup NUM_DPUS cluster numElements with
  | none,_ => .error .assertion
  | some _,some refusal => .error refusal.stop
  | some db,none => .ok db

def pimStart (machine : Machine) (args : Args) (mode logN : Text) : Except Stop PimStart := do
  let N ← stoul logN
  let reps ← number args repsKey 10
  let batchSize ← number args batchKey 1
  let cluster ← number args clusterKey 1
  let NUM_DPUS ← number args numDpusKey 128
  if 64 ≤ N then .error .undefined
  else do
    storage machine 32 (1 <<< N)
    let db ← loadedDatabase machine NUM_DPUS cluster (1 <<< N)
    if mode = single then .ok ⟨NUM_DPUS,db,.runSingleQueryPim N reps⟩
    else if mode = batch then .ok ⟨NUM_DPUS,db,.runBatchQueryPim N batchSize cluster reps⟩
    else .error (unknownMode mode)

def pimMain (machine : Machine) (argv : List Text) : Except Stop PimStart :=
  match parseArgs argv modeKey,parseArgs argv logNKey with
  | some mode,some logN => pimStart machine (parseArgs argv) mode logN
  | _,_ => .error pimUsage

def Reads (tokens : List Text) (key : Text) (n : Nat) : Prop := ∃ text, Says tokens key text ∧ stoul text = .ok n

def ReadsOr (preset : Nat) (tokens : List Text) (key : Text) (n : Nat) : Prop :=
  Reads tokens key n ∨ (∀ text, ¬ Says tokens key text) ∧ n = preset

section
variable {program : Text} {tokens : List Text}

theorem argumentIs {key : Text} (plain : '=' ∉ key) (value : Text) :
    parseArgs (program :: tokens) key = some value ↔ Says tokens key value := by
  rw [argumentSays,and_iff_right plain]

theorem argumentMissing {key : Text} (plain : '=' ∉ key) :
    parseArgs (program :: tokens) key = none ↔ ∀ text, ¬ Says tokens key text := by
  simp only [← @argumentIs program tokens key plain,Option.eq_none_iff_forall_ne_some,ne_eq]

theorem bindOk {α β : Type} {x : Except Stop α} {f : α → Except Stop β} {b : β} :
    (x >>= f) = .ok b ↔ ∃ a, x = .ok a ∧ f a = .ok b := by
  cases x with
  | error e => exact ⟨fun found => (by cases found),fun ⟨_,found,_⟩ => (by cases found)⟩
  | ok a => exact ⟨fun found => ⟨a,rfl,found⟩,fun ⟨_,same,found⟩ => (by cases same; exact found)⟩

theorem numberReads {key : Text} (plain : '=' ∉ key) (preset n : Nat) :
    number (parseArgs (program :: tokens)) key preset = .ok n ↔ ReadsOr preset tokens key n := by
  unfold number
  cases found : parseArgs (program :: tokens) key with
  | none =>
    have missing := (argumentMissing plain).mp found
    constructor
    · intro same
      cases same
      exact .inr ⟨missing,rfl⟩
    · rintro (⟨text,told,_⟩ | ⟨_,rfl⟩)
      · exact absurd told (missing text)
      · rfl
  | some text =>
    have here := (argumentIs plain text).mp found
    constructor
    · exact fun reads => .inl ⟨text,here,reads⟩
    · rintro (⟨text',there,reads⟩ | ⟨missing,_⟩)
      · rw [(@argumentIs program tokens key plain text').mpr there] at found
        cases found
        exact reads
      · exact absurd here (missing text)

theorem batchReads {f : Nat → CpuRun} {run : CpuRun} : withBatch (parseArgs (program :: tokens)) f = .ok run ↔
    ∃ batchSize, Reads tokens batchKey batchSize ∧ run = f batchSize := by
  unfold withBatch
  constructor
  · intro asks
    cases found : parseArgs (program :: tokens) batchKey with
    | none =>
      rw [found] at asks
      cases asks
    | some text =>
      rw [found] at asks
      obtain ⟨batchSize,read,same⟩ := bindOk.mp asks
      cases same
      exact ⟨batchSize,⟨text,(argumentIs (by decide) text).mp found,read⟩,rfl⟩
  · rintro ⟨batchSize,⟨text,told,read⟩,rfl⟩
    rw [(@argumentIs program tokens _ (by decide) text).mpr told]
    exact bindOk.mpr ⟨batchSize,read,rfl⟩

variable {machine : Machine}

theorem storageOk {size n : Nat} : storage machine size n = .ok () ↔
    n ≤ maxSize size ∧ (n = 0 ∨ machine.memory (n*size) = true) := by
  unfold storage
  split_ifs with long granted
  · exact ⟨fun stored => (by cases stored),fun fits => by omega⟩
  · exact ⟨fun _ => ⟨by omega,granted⟩,fun _ => rfl⟩
  · exact ⟨fun stored => (by cases stored),fun fits => absurd fits.2 granted⟩

theorem recordsStored {N : Nat} : storage machine 32 (1 <<< N) = .ok () ↔
    N < 58 ∧ machine.memory (2^N*32) = true := by
  have most : 2^N ≤ maxSize 32 ↔ N < 58 := by
    rw [show maxSize 32 = 2^58 - 1 from rfl,Nat.le_sub_one_iff_lt (Nat.two_pow_pos 58)]
    exact Nat.pow_lt_pow_iff_right (by decide)
  have positive : 2^N ≠ 0 := Nat.ne_of_gt (Nat.two_pow_pos N)
  rw [Nat.one_shiftLeft,storageOk,most,or_iff_right positive]

theorem databaseLoaded {NUM_DPUS cluster numElements : Nat} {db : Database} :
    loadedDatabase machine NUM_DPUS cluster numElements = .ok db ↔
      setupDatabase NUM_DPUS cluster numElements = some db ∧ machine.setup NUM_DPUS cluster numElements = none := by
  unfold loadedDatabase
  cases setupDatabase NUM_DPUS cluster numElements with
  | none => exact ⟨fun loaded => (by cases loaded),fun set => (by cases set.1)⟩
  | some _ =>
    cases machine.setup NUM_DPUS cluster numElements with
    | some _ => exact ⟨fun loaded => (by cases loaded),fun set => (by cases set.2)⟩
    | none => exact ⟨fun loaded => ⟨congrArg some (Except.ok.inj loaded),rfl⟩,fun set => congrArg _ (Option.some.inj set.1)⟩

def CpuAsks (machine : Machine) (tokens : List Text) (run : CpuRun) : Prop :=
  ∃ N reps, Reads tokens logNKey N ∧ N < 58 ∧ machine.memory (2^N*32) = true ∧ ReadsOr 10 tokens repsKey reps ∧
    (Says tokens modeKey single8 ∧ run = .runSingleQueryVectorized N reps ∨
     Says tokens modeKey single ∧ run = .runSingleQueryScalar N reps ∨
     ∃ batchSize, Reads tokens batchKey batchSize ∧
      (Says tokens modeKey batch ∧ run = .runBatchQuery N batchSize reps ∨
       Says tokens modeKey batch8 ∧ run = .runBatchQuery8 N batchSize reps))

theorem cpuStartRuns {mode logN : Text} {run : CpuRun} :
    cpuStart machine (parseArgs (program :: tokens)) mode logN = .ok run ↔
      ∃ N reps, stoul logN = .ok N ∧ N < 58 ∧ machine.memory (2^N*32) = true ∧ ReadsOr 10 tokens repsKey reps ∧
        (mode = single8 ∧ run = .runSingleQueryVectorized N reps ∨
         mode = single ∧ run = .runSingleQueryScalar N reps ∨
         ∃ batchSize, Reads tokens batchKey batchSize ∧
          (mode = batch ∧ run = .runBatchQuery N batchSize reps ∨
           mode = batch8 ∧ run = .runBatchQuery8 N batchSize reps)) := by
  constructor
  · intro runs
    obtain ⟨N,readN,runs⟩ := bindOk.mp runs
    obtain ⟨reps,readReps,runs⟩ := bindOk.mp runs
    rw [numberReads (by decide)] at readReps
    split at runs
    · cases runs
    obtain ⟨_,stored,runs⟩ := bindOk.mp runs
    obtain ⟨fits,granted⟩ := recordsStored.mp stored
    refine ⟨N,reps,readN,fits,granted,readReps,?_⟩
    split_ifs at runs with isSingle8 isSingle isBatch isBatch8
    · cases runs
      exact .inl ⟨isSingle8,rfl⟩
    · cases runs
      exact .inr (.inl ⟨isSingle,rfl⟩)
    · obtain ⟨batchSize,read,same⟩ := batchReads.mp runs
      exact .inr (.inr ⟨batchSize,read,.inl ⟨isBatch,same⟩⟩)
    · obtain ⟨batchSize,read,same⟩ := batchReads.mp runs
      exact .inr (.inr ⟨batchSize,read,.inr ⟨isBatch8,same⟩⟩)
  · rintro ⟨N,reps,readN,fits,granted,readReps,asked⟩
    have small : ¬ 64 ≤ N := by omega
    rw [← @numberReads program tokens _ (by decide)] at readReps
    refine bindOk.mpr ⟨N,readN,bindOk.mpr ⟨reps,readReps,?_⟩⟩
    rw [if_neg small]
    refine bindOk.mpr ⟨(),recordsStored.mpr ⟨fits,granted⟩,?_⟩
    rcases asked with ⟨rfl,rfl⟩ | ⟨rfl,rfl⟩ | ⟨batchSize,read,⟨rfl,rfl⟩ | ⟨rfl,rfl⟩⟩
    · rw [if_pos rfl]
    · rw [if_neg (by decide),if_pos rfl]
    · rw [if_neg (by decide),if_neg (by decide),if_pos rfl]
      exact batchReads.mpr ⟨batchSize,read,rfl⟩
    · rw [if_neg (by decide),if_neg (by decide),if_neg (by decide),if_pos rfl]
      exact batchReads.mpr ⟨batchSize,read,rfl⟩

theorem cpuMainRuns (run : CpuRun) : cpuMain machine (program :: tokens) = .ok run ↔ CpuAsks machine tokens run := by
  constructor
  · intro runs
    unfold cpuMain at runs
    split at runs
    · rename_i mode logN isMode isLogN
      rw [argumentIs (by decide)] at isMode isLogN
      obtain ⟨N,reps,readN,fits,granted,readReps,asked⟩ := cpuStartRuns.mp runs
      refine ⟨N,reps,⟨logN,isLogN,readN⟩,fits,granted,readReps,?_⟩
      rcases asked with ⟨rfl,same⟩ | ⟨rfl,same⟩ | ⟨batchSize,read,⟨rfl,same⟩ | ⟨rfl,same⟩⟩
      · exact .inl ⟨isMode,same⟩
      · exact .inr (.inl ⟨isMode,same⟩)
      · exact .inr (.inr ⟨batchSize,read,.inl ⟨isMode,same⟩⟩)
      · exact .inr (.inr ⟨batchSize,read,.inr ⟨isMode,same⟩⟩)
    · cases runs
  · rintro ⟨N,reps,⟨logN,isLogN,readN⟩,fits,granted,readReps,asked⟩
    have onward (mode : Text) (isMode : Says tokens modeKey mode) :
        cpuMain machine (program :: tokens) = cpuStart machine (parseArgs (program :: tokens)) mode logN := by
      unfold cpuMain
      rw [(argumentIs (by decide) mode).mpr isMode,(argumentIs (by decide) logN).mpr isLogN]
    rcases asked with ⟨isMode,same⟩ | ⟨isMode,same⟩ | ⟨batchSize,read,⟨isMode,same⟩ | ⟨isMode,same⟩⟩
    · rw [onward _ isMode]
      exact cpuStartRuns.mpr ⟨N,reps,readN,fits,granted,readReps,.inl ⟨rfl,same⟩⟩
    · rw [onward _ isMode]
      exact cpuStartRuns.mpr ⟨N,reps,readN,fits,granted,readReps,.inr (.inl ⟨rfl,same⟩)⟩
    · rw [onward _ isMode]
      exact cpuStartRuns.mpr ⟨N,reps,readN,fits,granted,readReps,.inr (.inr ⟨batchSize,read,.inl ⟨rfl,same⟩⟩)⟩
    · rw [onward _ isMode]
      exact cpuStartRuns.mpr ⟨N,reps,readN,fits,granted,readReps,.inr (.inr ⟨batchSize,read,.inr ⟨rfl,same⟩⟩)⟩

def PimAsks (machine : Machine) (tokens : List Text) (s : PimStart) : Prop :=
  ∃ N reps batchSize cluster, Reads tokens logNKey N ∧ N < 58 ∧ machine.memory (2^N*32) = true ∧
    ReadsOr 10 tokens repsKey reps ∧ ReadsOr 1 tokens batchKey batchSize ∧ ReadsOr 1 tokens clusterKey cluster ∧
    ReadsOr 128 tokens numDpusKey s.NUM_DPUS ∧ setupDatabase s.NUM_DPUS cluster (2^N) = some s.db ∧
    machine.setup s.NUM_DPUS cluster (2^N) = none ∧
    (Says tokens modeKey single ∧ s.run = .runSingleQueryPim N reps ∨
     Says tokens modeKey batch ∧ s.run = .runBatchQueryPim N batchSize cluster reps)

theorem pimStartRuns {mode logN : Text} {s : PimStart} :
    pimStart machine (parseArgs (program :: tokens)) mode logN = .ok s ↔
      ∃ N reps batchSize cluster, stoul logN = .ok N ∧ N < 58 ∧ machine.memory (2^N*32) = true ∧
        ReadsOr 10 tokens repsKey reps ∧ ReadsOr 1 tokens batchKey batchSize ∧ ReadsOr 1 tokens clusterKey cluster ∧
        ReadsOr 128 tokens numDpusKey s.NUM_DPUS ∧ setupDatabase s.NUM_DPUS cluster (2^N) = some s.db ∧
        machine.setup s.NUM_DPUS cluster (2^N) = none ∧
        (mode = single ∧ s.run = .runSingleQueryPim N reps ∨
         mode = batch ∧ s.run = .runBatchQueryPim N batchSize cluster reps) := by
  constructor
  · intro runs
    obtain ⟨N,readN,runs⟩ := bindOk.mp runs
    obtain ⟨reps,readReps,runs⟩ := bindOk.mp runs
    obtain ⟨batchSize,readBatch,runs⟩ := bindOk.mp runs
    obtain ⟨cluster,readCluster,runs⟩ := bindOk.mp runs
    obtain ⟨NUM_DPUS,readDpus,runs⟩ := bindOk.mp runs
    rw [numberReads (by decide)] at readReps readBatch readCluster readDpus
    split at runs
    · cases runs
    obtain ⟨_,stored,runs⟩ := bindOk.mp runs
    obtain ⟨fits,granted⟩ := recordsStored.mp stored
    obtain ⟨db,loaded,runs⟩ := bindOk.mp runs
    rw [Nat.one_shiftLeft,databaseLoaded] at loaded
    split_ifs at runs with isSingle isBatch
    · cases runs
      exact ⟨N,reps,batchSize,cluster,readN,fits,granted,readReps,readBatch,readCluster,readDpus,loaded.1,loaded.2,
        .inl ⟨isSingle,rfl⟩⟩
    · cases runs
      exact ⟨N,reps,batchSize,cluster,readN,fits,granted,readReps,readBatch,readCluster,readDpus,loaded.1,loaded.2,
        .inr ⟨isBatch,rfl⟩⟩
  · obtain ⟨NUM_DPUS,db,run⟩ := s
    rintro ⟨N,reps,batchSize,cluster,readN,fits,granted,readReps,readBatch,readCluster,readDpus,setUp,ready,asked⟩
    have small : ¬ 64 ≤ N := by omega
    rw [← @numberReads program tokens _ (by decide)] at readReps readBatch readCluster readDpus
    dsimp only at readDpus setUp ready asked
    refine bindOk.mpr ⟨N,readN,bindOk.mpr ⟨reps,readReps,bindOk.mpr ⟨batchSize,readBatch,
      bindOk.mpr ⟨cluster,readCluster,bindOk.mpr ⟨NUM_DPUS,readDpus,?_⟩⟩⟩⟩⟩
    rw [if_neg small]
    refine bindOk.mpr ⟨(),recordsStored.mpr ⟨fits,granted⟩,bindOk.mpr ⟨db,?_,?_⟩⟩
    · rw [Nat.one_shiftLeft,databaseLoaded]
      exact ⟨setUp,ready⟩
    · rcases asked with ⟨rfl,rfl⟩ | ⟨rfl,rfl⟩
      · rfl
      · rfl

theorem pimMainRuns (s : PimStart) : pimMain machine (program :: tokens) = .ok s ↔ PimAsks machine tokens s := by
  constructor
  · intro runs
    unfold pimMain at runs
    split at runs
    · rename_i mode logN isMode isLogN
      rw [argumentIs (by decide)] at isMode isLogN
      obtain ⟨N,reps,batchSize,cluster,readN,fits,granted,readReps,readBatch,readCluster,readDpus,setUp,ready,asked⟩ :=
        pimStartRuns.mp runs
      refine ⟨N,reps,batchSize,cluster,⟨logN,isLogN,readN⟩,fits,granted,readReps,readBatch,readCluster,readDpus,setUp,
        ready,?_⟩
      rcases asked with ⟨rfl,same⟩ | ⟨rfl,same⟩
      · exact .inl ⟨isMode,same⟩
      · exact .inr ⟨isMode,same⟩
    · cases runs
  · rintro ⟨N,reps,batchSize,cluster,⟨logN,isLogN,readN⟩,fits,granted,readReps,readBatch,readCluster,readDpus,setUp,
      ready,asked⟩
    have onward (mode : Text) (isMode : Says tokens modeKey mode) :
        pimMain machine (program :: tokens) = pimStart machine (parseArgs (program :: tokens)) mode logN := by
      unfold pimMain
      rw [(argumentIs (by decide) mode).mpr isMode,(argumentIs (by decide) logN).mpr isLogN]
    rcases asked with ⟨isMode,same⟩ | ⟨isMode,same⟩
    · rw [onward _ isMode]
      exact pimStartRuns.mpr ⟨N,reps,batchSize,cluster,readN,fits,granted,readReps,readBatch,readCluster,readDpus,
        setUp,ready,.inl ⟨rfl,same⟩⟩
    · rw [onward _ isMode]
      exact pimStartRuns.mpr ⟨N,reps,batchSize,cluster,readN,fits,granted,readReps,readBatch,readCluster,readDpus,
        setUp,ready,.inr ⟨rfl,same⟩⟩

/- Each program starts exactly the runs that its command line asks for and the machine has
memory and DPUs for. -/
theorem mainsRun (machine : Machine) (program : Text) (tokens : List Text) :
    (∀ run, cpuMain machine (program :: tokens) = .ok run ↔ CpuAsks machine tokens run) ∧
    ∀ s, pimMain machine (program :: tokens) = .ok s ↔ PimAsks machine tokens s :=
  ⟨cpuMainRuns,pimMainRuns⟩

end
end ImPir.Benchmarks
