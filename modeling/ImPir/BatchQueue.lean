import Mathlib.Data.Multiset.AddSub
import ImPir.WorkerPool

/-! The threads of `pim_batch_execution`: producers that enqueue the queries of a
repetition, submitters that take up to 32 of them for one launch, and the main thread
that spawns and joins both. A step is one shared access of one thread. -/
namespace ImPir.BatchQueue

structure Config where
  batchSize : Nat
  clusters : Nat
  reps : Nat
  deriving DecidableEq, Repr

def numWorkers (batchSize : Nat) : Nat := min 16 (max 1 (batchSize/4))

def bufSize : Nat := 32

/- A `BatchData` in the queue: the query index and the producer that enqueued it. -/
structure Item where
  producer : Nat
  b : Nat
  deriving DecidableEq, Repr

structure Producer where
  b : Nat
  stop : Nat
  deriving DecidableEq, Repr

/- Where a `dpu_submitter` stands: before the dequeue, after one that got nothing, after
a load that saw the flag (and with it what the first `visible` producers did), with
`got` items in `buf`, or out of its loop. -/
inductive Submitter where
  | dequeue
  | idle
  | sizing (visible : Nat)
  | launching (buf : List Item)
  | left
  deriving DecidableEq, Repr

inductive Main where
  | repetition
  | spawnProducers (w off : Nat)
  | spawnSubmitters
  | joinProducers (w : Nat)
  | joinSubmitters (k : Nat)
  | finished
  deriving DecidableEq, Repr

/- `released` counts the producers that were joined before the flag was stored. The
histories `enqueued` and `launches` are those of the current repetition. -/
structure State where
  rep : Nat
  main : Main
  producers : List Producer
  submitters : List Submitter
  producersDone : Bool
  released : Nat
  queue : Multiset Item
  enqueued : List Item
  launches : List (List Item)

def start : State :=
  { rep := 0,main := .repetition,producers := [],submitters := [],producersDone := false,released := 0
    queue := 0,enqueued := [],launches := [] }

section
variable (c : Config)

def workerCount (w : Nat) : Nat :=
  let per := c.batchSize / numWorkers c.batchSize
  let rem := c.batchSize % numWorkers c.batchSize
  per + if w < rem then 1 else 0

inductive MainStep : State → State → Prop
  | enter {s} (here : s.main = .repetition) (more : s.rep < c.reps) :
      MainStep s { s with
        main := .spawnProducers 0 0,producers := [],submitters := [],enqueued := [],launches := [] }
  | leave {s} (here : s.main = .repetition) (last : ¬ s.rep < c.reps) :
      MainStep s { s with main := .finished }
  | spawnProducer {s w off} (here : s.main = .spawnProducers w off) (more : w < numWorkers c.batchSize) :
      MainStep s { s with
        main := .spawnProducers (w+1) (off + workerCount c w)
        producers := s.producers ++ [⟨off,off + workerCount c w⟩] }
  | producersSpawned {s w off} (here : s.main = .spawnProducers w off) (all : ¬ w < numWorkers c.batchSize) :
      MainStep s { s with main := .spawnSubmitters }
  | spawnSubmitter {s} (here : s.main = .spawnSubmitters) (more : s.submitters.length < c.clusters) :
      MainStep s { s with submitters := s.submitters ++ [.dequeue] }
  | submittersSpawned {s} (here : s.main = .spawnSubmitters) (all : ¬ s.submitters.length < c.clusters) :
      MainStep s { s with main := .joinProducers 0 }
  | joinProducer {s w p} (here : s.main = .joinProducers w) (thread : s.producers[w]? = some p)
      (ended : ¬ p.b < p.stop) :
      MainStep s { s with main := .joinProducers (w+1) }
  | setDone {s w} (here : s.main = .joinProducers w) (all : w = s.producers.length) :
      MainStep s { s with main := .joinSubmitters 0,producersDone := true,released := w }
  | joinSubmitter {s k} (here : s.main = .joinSubmitters k) (ended : s.submitters[k]? = some .left) :
      MainStep s { s with main := .joinSubmitters (k+1) }
  | resetDone {s k} (here : s.main = .joinSubmitters k) (all : k = s.submitters.length) :
      MainStep s { s with main := .repetition,rep := s.rep + 1,producersDone := false }

inductive ProducerStep : State → State → Prop
  | enqueue {s w p} (thread : s.producers[w]? = some p) (more : p.b < p.stop) :
      ProducerStep s { s with
        producers := s.producers.set w { p with b := p.b + 1 }
        queue := ⟨w,p.b⟩ ::ₘ s.queue
        enqueued := s.enqueued ++ [⟨w,p.b⟩] }

/- A load may see an older value of the flag, so it may always say that the producers
are not done; `size_approx` may always say that something is left. -/
inductive SubmitterStep : State → State → Prop
  | tryDequeueBulk {s k buf rest} (thread : s.submitters[k]? = some .dequeue) (got : buf ≠ [])
      (fits : buf.length ≤ bufSize) (taken : s.queue = (buf : Multiset Item) + rest) :
      SubmitterStep s { s with submitters := s.submitters.set k (.launching buf),queue := rest }
  | gotNothing {s k} (thread : s.submitters[k]? = some .dequeue) :
      SubmitterStep s { s with submitters := s.submitters.set k .idle }
  | loadDone {s k} (thread : s.submitters[k]? = some .idle) (done : s.producersDone = true) :
      SubmitterStep s { s with submitters := s.submitters.set k (.sizing s.released) }
  | loadNotDone {s k} (thread : s.submitters[k]? = some .idle) :
      SubmitterStep s { s with submitters := s.submitters.set k .dequeue }
  | sizeZero {s k visible} (thread : s.submitters[k]? = some (.sizing visible))
      (zero : ∀ i ∈ s.queue, ¬ i.producer < visible) :
      SubmitterStep s { s with submitters := s.submitters.set k .left }
  | sizePositive {s k visible} (thread : s.submitters[k]? = some (.sizing visible)) :
      SubmitterStep s { s with submitters := s.submitters.set k .dequeue }
  | launch {s k buf} (thread : s.submitters[k]? = some (.launching buf)) :
      SubmitterStep s { s with
        submitters := s.submitters.set k .dequeue,launches := s.launches ++ [buf] }

inductive Step : State → State → Prop
  | main {s t} (step : MainStep c s t) : Step s t
  | producer {s t} (step : ProducerStep s t) : Step s t
  | submitter {s t} (step : SubmitterStep s t) : Step s t

def Reachable (s : State) : Prop := Relation.ReflTransGen (Step c) start s

theorem everyReachable {P : State → Prop} (first : P start) (next : ∀ s t, Step c s t → P s → P t) {s : State}
    (run : Reachable c s) : P s := by
  induction run with
  | refl => exact first
  | tail _ step ih => exact next _ _ step ih

end
end ImPir.BatchQueue
