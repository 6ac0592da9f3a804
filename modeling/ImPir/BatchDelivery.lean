import Mathlib.Data.Multiset.Basic
import ImPir.BatchQueue
import ImPir.HostSharding

/-! Each query of a batch is enqueued once and launched once, however the threads of
`pim_batch_execution` interleave. A submitter leaves only after it saw the flag, hence
after the last enqueue, and found the queue empty. -/
namespace ImPir.BatchDelivery
open WorkerPool BatchQueue LittleEndian DpuKernel HostSharding

section
variable (c : Config)

def rangeStart (w : Nat) : Nat := shareStart c.batchSize (numWorkers c.batchSize) w

theorem someWorker : 0 < numWorkers c.batchSize := by
  unfold numWorkers
  omega

theorem rangeNext (w : Nat) : rangeStart c (w+1) = rangeStart c w + workerCount c w := shareNext w

def AllEnqueued (s : State) : Prop :=
  s.producers.length = numWorkers c.batchSize ∧ ∀ p ∈ s.producers, ¬ p.b < p.stop

def held : Submitter → Multiset Item
  | .launching buf => buf
  | _ => 0

def inFlight (s : State) : Multiset Item := s.queue + (s.submitters.map held).sum

structure Enqueued (s : State) : Prop where
  spawned : s.producers.length ≤ numWorkers c.batchSize
  ranges : ∀ w p, s.producers[w]? = some p →
    rangeStart c w ≤ p.b ∧ p.b ≤ p.stop ∧ p.stop = rangeStart c (w+1)
  once : s.enqueued.Nodup
  history : ∀ i, i ∈ s.enqueued ↔ ∃ p, s.producers[i.producer]? = some p ∧ rangeStart c i.producer ≤ i.b ∧ i.b < p.b

/- Nothing is lost or doubled on the way to the launches. -/
structure Conserved (s : State) : Prop where
  kept : inFlight s + (s.launches.flatten : Multiset Item) = (s.enqueued : Multiset Item)
  buffers : ∀ buf, .launching buf ∈ s.submitters → 1 ≤ buf.length ∧ buf.length ≤ bufSize
  sizes : ∀ l ∈ s.launches, 1 ≤ l.length ∧ l.length ≤ bufSize

def mainAt (s : State) : Main → Prop
  | .repetition =>
      s.producersDone = false ∧ s.queue = 0 ∧ (∀ p ∈ s.producers, ¬ p.b < p.stop) ∧ ∀ a ∈ s.submitters, a = .left
  | .spawnProducers w off => s.producersDone = false ∧ w = s.producers.length ∧ off = rangeStart c w ∧ s.submitters = []
  | .spawnSubmitters =>
      s.producersDone = false ∧ s.producers.length = numWorkers c.batchSize ∧ s.submitters.length ≤ c.clusters
  | .joinProducers w => s.producersDone = false ∧ s.producers.length = numWorkers c.batchSize ∧
      s.submitters.length = c.clusters ∧ ∀ v < w, ∀ p, s.producers[v]? = some p → ¬ p.b < p.stop
  | .joinSubmitters k => s.producersDone = true ∧ s.submitters.length = c.clusters ∧
      ∀ j < k, s.submitters[j]? = some .left
  | .finished =>
      s.producersDone = false ∧ s.queue = 0 ∧ (∀ p ∈ s.producers, ¬ p.b < p.stop) ∧ ∀ a ∈ s.submitters, a = .left

structure Ordered (s : State) : Prop where
  main : mainAt c s s.main
  released : s.producersDone = true → AllEnqueued c s ∧ s.released = numWorkers c.batchSize
  sized : ∀ visible, .sizing visible ∈ s.submitters → AllEnqueued c s ∧ visible = numWorkers c.batchSize
  left : .left ∈ s.submitters → AllEnqueued c s ∧ s.queue = 0

structure Invariant (s : State) : Prop where
  enqueued : Enqueued c s
  conserved : Conserved s
  ordered : Ordered c s

variable {c}

theorem startKeeps : Invariant c start := by
  refine ⟨⟨Nat.zero_le _,?_,List.nodup_nil,?_⟩,⟨rfl,?_,?_⟩,⟨⟨rfl,rfl,?_,?_⟩,?_,?_,?_⟩⟩ <;> simp [start]

theorem unfinished {s : State} {w : Nat} {p : Producer} (thread : s.producers[w]? = some p)
    (more : p.b < p.stop) : ¬ AllEnqueued c s :=
  fun all => all.2 p (List.mem_of_getElem? thread) more

theorem enqueuedBelow {s : State} (inv : Enqueued c s) {i : Item} (member : i ∈ s.enqueued) :
    i.producer < s.producers.length ∧ rangeStart c i.producer ≤ i.b ∧ i.b < rangeStart c (i.producer+1) := by
  obtain ⟨p,thread,low,high⟩ := (inv.history i).mp member
  have range := inv.ranges i.producer p thread
  exact ⟨(List.getElem?_eq_some_iff.mp thread).1,low,by omega⟩

theorem queuedEnqueued {s : State} (inv : Conserved s) {i : Item} (queued : i ∈ s.queue) : i ∈ s.enqueued := by
  have sent : i ∈ inFlight s + (s.launches.flatten : Multiset Item) :=
    Multiset.mem_add.mpr (Or.inl (Multiset.mem_add.mpr (Or.inl queued)))
  rw [inv.kept] at sent
  exact sent

theorem spawnKeeps {s : State} (inv : Enqueued c s) {off : Nat} (next : off = rangeStart c s.producers.length)
    (more : s.producers.length < numWorkers c.batchSize) (main : Main) :
    Enqueued c { s with
      main := main,producers := s.producers ++ [⟨off,off + workerCount c s.producers.length⟩] } := by
  have before : ∀ w p, s.producers[w]? = some p → w ≠ s.producers.length := by
    intro w p thread
    have := (List.getElem?_eq_some_iff.mp thread).1
    omega
  refine ⟨by simpa using more,?_,inv.once,?_⟩
  · intro w p thread
    rcases Nat.lt_or_ge w s.producers.length with old | new
    · rw [List.getElem?_append_left old] at thread
      exact inv.ranges w p thread
    · rw [List.getElem?_append_right new,List.getElem?_singleton] at thread
      split at thread
      · have same : w = s.producers.length := by omega
        rw [← Option.some.inj thread,same,rangeNext,next]
        exact ⟨Nat.le_refl _,Nat.le_add_right _ _,rfl⟩
      · contradiction
  · intro i
    rw [inv.history i]
    constructor
    · rintro ⟨p,thread,range⟩
      exact ⟨p,by rw [List.getElem?_append_left (List.getElem?_eq_some_iff.mp thread).1,thread],range⟩
    · rintro ⟨p,thread,low,high⟩
      rcases Nat.lt_or_ge i.producer s.producers.length with old | new
      · rw [List.getElem?_append_left old] at thread
        exact ⟨p,thread,low,high⟩
      · rw [List.getElem?_append_right new,List.getElem?_singleton] at thread
        split at thread
        · -- the new producer has not enqueued anything yet
          have same : i.producer = s.producers.length := by omega
          rw [← Option.some.inj thread] at high
          rw [same,← next] at low
          exact absurd high (by simpa using low)
        · contradiction

theorem enqueueKeeps {s : State} (inv : Enqueued c s) {w : Nat} {p : Producer} (thread : s.producers[w]? = some p)
    (more : p.b < p.stop) (queue : Multiset Item) :
    Enqueued c { s with
      producers := s.producers.set w { p with b := p.b + 1 },queue := queue,enqueued := s.enqueued ++ [⟨w,p.b⟩] } := by
  have inside : w < s.producers.length := (List.getElem?_eq_some_iff.mp thread).1
  have range := inv.ranges w p thread
  have fresh : (⟨w,p.b⟩ : Item) ∉ s.enqueued := by
    intro member
    obtain ⟨p',thread',_,below⟩ := (inv.history ⟨w,p.b⟩).mp member
    rw [thread,Option.some.injEq] at thread'
    rw [thread'] at below
    exact absurd below (by simp)
  have place (v : Nat) : (s.producers.set w { p with b := p.b + 1 })[v]? =
      if w = v then some { p with b := p.b + 1 } else s.producers[v]? := by
    rw [List.getElem?_set,if_pos inside]
  refine ⟨by simpa using inv.spawned,?_,?_,?_⟩
  · intro v q found
    rw [place] at found
    split at found
    · rename_i same
      rw [← Option.some.inj found,← same]
      exact ⟨by simp only; omega,by simp only; omega,range.2.2⟩
    · exact inv.ranges v q found
  · rw [List.nodup_append]
    exact ⟨inv.once,List.nodup_singleton _,fun a ma b mb => by
      rw [List.mem_singleton.mp mb]
      rintro rfl
      exact fresh ma⟩
  · intro i
    rw [List.mem_append,List.mem_singleton,inv.history i]
    simp only [place]
    rcases eq_or_ne w i.producer with rfl | other
    · simp only [if_true,thread,Option.some.injEq,exists_eq_left']
      constructor
      · rintro (⟨low,high⟩ | same)
        · exact ⟨low,by omega⟩
        · have index := congrArg Item.b same
          simp only at index
          exact ⟨by omega,by omega⟩
      · rintro ⟨low,high⟩
        rcases Nat.lt_or_ge i.b p.b with before | now
        · exact Or.inl ⟨low,before⟩
        · have index : i.b = p.b := by omega
          exact Or.inr (by rw [← index])
    · have different : i ≠ ⟨w,p.b⟩ := by
        rintro rfl
        exact other rfl
      simp only [if_neg other,different,or_false]

theorem enqueuedSame {s t : State} (inv : Enqueued c s) (producers : t.producers = s.producers)
    (enqueued : t.enqueued = s.enqueued) : Enqueued c t := by
  obtain ⟨spawned,ranges,once,history⟩ := inv
  rw [← producers] at spawned ranges history
  rw [← enqueued] at once history
  exact ⟨spawned,ranges,once,history⟩

theorem heldSet {s : State} {k : Nat} {a : Submitter} (thread : s.submitters[k]? = some a) (a' : Submitter) :
    ((s.submitters.set k a').map held).sum + held a = (s.submitters.map held).sum + held a' :=
  poolSet held thread a'

theorem heldNothing {a : Submitter} (quiet : ∀ buf, a ≠ .launching buf) : held a = 0 := by
  cases a with
  | launching buf => exact absurd rfl (quiet buf)
  | _ => rfl

theorem quietKeeps {s : State} (inv : Conserved s) {k : Nat} {a a' : Submitter}
    (thread : s.submitters[k]? = some a) (before : ∀ buf, a ≠ .launching buf) (after : ∀ buf, a' ≠ .launching buf) :
    Conserved { s with submitters := s.submitters.set k a' } := by
  have same := heldSet thread a'
  rw [heldNothing before,heldNothing after,add_zero,add_zero] at same
  refine ⟨?_,?_,inv.sizes⟩
  · have kept := inv.kept
    rw [inFlight] at kept ⊢
    rw [same]
    exact kept
  · intro buf member
    rcases List.mem_or_eq_of_mem_set member with old | new
    · exact inv.buffers buf old
    · exact absurd new.symm (after buf)

theorem dequeueKeeps {s : State} (inv : Conserved s) {k : Nat} {buf : List Item} {rest : Multiset Item}
    (thread : s.submitters[k]? = some .dequeue) (got : buf ≠ []) (fits : buf.length ≤ bufSize)
    (taken : s.queue = (buf : Multiset Item) + rest) :
    Conserved { s with submitters := s.submitters.set k (.launching buf),queue := rest } := by
  have moved := heldSet thread (.launching buf)
  simp only [held,add_zero] at moved
  refine ⟨?_,?_,inv.sizes⟩
  · have kept := inv.kept
    rw [inFlight,taken] at kept
    rw [inFlight]
    simp only
    rw [← kept,moved,add_comm _ (buf : Multiset Item),← add_assoc,add_comm rest]
  · intro buf' member
    rcases List.mem_or_eq_of_mem_set member with old | new
    · exact inv.buffers buf' old
    · rw [Submitter.launching.injEq] at new
      rw [new]
      exact ⟨List.length_pos_iff.mpr got,fits⟩

theorem launchKeeps {s : State} (inv : Conserved s) {k : Nat} {buf : List Item}
    (thread : s.submitters[k]? = some (.launching buf)) :
    Conserved { s with submitters := s.submitters.set k .dequeue,launches := s.launches ++ [buf] } := by
  have moved := heldSet thread .dequeue
  simp only [held,add_zero] at moved
  refine ⟨?_,?_,?_⟩
  · have kept := inv.kept
    rw [inFlight,← moved] at kept
    rw [inFlight]
    simp only [List.flatten_append,List.flatten_singleton,← Multiset.coe_add]
    rw [← kept,← add_assoc,add_right_comm,add_assoc s.queue]
  · intro buf' member
    rcases List.mem_or_eq_of_mem_set member with old | new
    · exact inv.buffers buf' old
    · contradiction
  · intro l member
    rcases List.mem_append.mp member with old | new
    · exact inv.sizes l old
    · rw [List.mem_singleton.mp new]
      exact inv.buffers buf (List.mem_of_getElem? thread)

theorem submitterOrdered {s : State} (inv : Ordered c s) {k : Nat} {a a' : Submitter}
    (thread : s.submitters[k]? = some a) (inLoop : a ≠ .left) {queue : Multiset Item} {launches : List (List Item)}
    (shrinks : s.queue = 0 → queue = 0)
    (sized : ∀ visible, a' = .sizing visible → AllEnqueued c s ∧ visible = numWorkers c.batchSize)
    (left : a' = .left → AllEnqueued c s ∧ queue = 0) :
    Ordered c { s with submitters := s.submitters.set k a',queue := queue,launches := launches } := by
  have member := List.mem_of_getElem? thread
  refine ⟨?_,inv.released,?_,?_⟩
  · have main := inv.main
    simp only
    generalize s.main = position at main ⊢
    cases position with
    | repetition => exact absurd (main.2.2.2 a member) inLoop
    | spawnProducers w off =>
      rw [main.2.2.2] at member
      contradiction
    | spawnSubmitters => exact ⟨main.1,main.2.1,by simpa using main.2.2⟩
    | joinProducers w => exact ⟨main.1,main.2.1,by simpa using main.2.2.1,main.2.2.2⟩
    | joinSubmitters k' =>
      refine ⟨main.1,by simpa using main.2.1,?_⟩
      intro j before
      have gone := main.2.2 j before
      have other : k ≠ j := by
        rintro rfl
        rw [thread] at gone
        exact inLoop (Option.some.inj gone)
      simp only
      rw [List.getElem?_set_ne other,gone]
    | finished => exact absurd (main.2.2.2 a member) inLoop
  · intro visible found
    rcases List.mem_or_eq_of_mem_set found with old | new
    · exact inv.sized visible old
    · exact sized visible new.symm
  · intro found
    rcases List.mem_or_eq_of_mem_set found with old | new
    · exact ⟨(inv.left old).1,shrinks (inv.left old).2⟩
    · exact left new.symm

theorem submitterKeeps {s t : State} (inv : Invariant c s) (step : SubmitterStep s t) : Invariant c t := by
  obtain ⟨enqueued,conserved,ordered⟩ := inv
  cases step with
  | tryDequeueBulk thread got fits taken =>
    refine ⟨enqueuedSame enqueued rfl rfl,dequeueKeeps conserved thread got fits taken,?_⟩
    apply submitterOrdered ordered thread (by simp) _ (by simp) (by simp)
    intro none
    rw [taken] at none
    exact Multiset.le_zero.mp (le_of_le_of_eq (Multiset.le_add_left _ _) none)
  | gotNothing thread =>
    exact ⟨enqueuedSame enqueued rfl rfl,quietKeeps conserved thread (by simp) (by simp),
      submitterOrdered ordered thread (by simp) id (by simp) (by simp)⟩
  | loadDone thread done =>
    refine ⟨enqueuedSame enqueued rfl rfl,quietKeeps conserved thread (by simp) (by simp),?_⟩
    apply submitterOrdered ordered thread (by simp) id _ (by simp)
    intro visible same
    rw [← Submitter.sizing.inj same]
    exact ordered.released done
  | loadNotDone thread =>
    exact ⟨enqueuedSame enqueued rfl rfl,quietKeeps conserved thread (by simp) (by simp),
      submitterOrdered ordered thread (by simp) id (by simp) (by simp)⟩
  | @sizeZero _ visible thread zero =>
    refine ⟨enqueuedSame enqueued rfl rfl,quietKeeps conserved thread (by simp) (by simp),?_⟩
    apply submitterOrdered ordered thread (by simp) id (by simp)
    -- every producer is visible, so an item left in the queue would have been seen
    intro _
    obtain ⟨all,same⟩ := ordered.sized visible (List.mem_of_getElem? thread)
    refine ⟨all,Multiset.eq_zero_of_forall_notMem ?_⟩
    intro i queued
    have below := (enqueuedBelow enqueued (queuedEnqueued conserved queued)).1
    rw [all.1,← same] at below
    exact zero i queued below
  | sizePositive thread =>
    exact ⟨enqueuedSame enqueued rfl rfl,quietKeeps conserved thread (by simp) (by simp),
      submitterOrdered ordered thread (by simp) id (by simp) (by simp)⟩
  | launch thread =>
    exact ⟨enqueuedSame enqueued rfl rfl,launchKeeps conserved thread,
      submitterOrdered ordered thread (by simp) id (by simp) (by simp)⟩

theorem producerKeeps {s t : State} (inv : Invariant c s) (step : ProducerStep s t) : Invariant c t := by
  obtain ⟨enqueued,conserved,ordered⟩ := inv
  cases step with
  | @enqueue w p thread more =>
    have busy := unfinished (c := c) thread more
    have member := List.mem_of_getElem? thread
    refine ⟨enqueueKeeps enqueued thread more _,⟨?_,conserved.buffers,conserved.sizes⟩,?_⟩
    · have kept := conserved.kept
      rw [inFlight] at kept ⊢
      simp only [Multiset.cons_add,kept]
      rw [← Multiset.coe_add,Multiset.coe_singleton,← Multiset.singleton_add,add_comm]
    · refine ⟨?_,fun done => absurd (ordered.released done).1 busy,
        fun visible found => absurd (ordered.sized visible found).1 busy,
        fun found => absurd (ordered.left found).1 busy⟩
      have main := ordered.main
      simp only
      generalize s.main = position at main ⊢
      cases position with
      | repetition => exact absurd more (main.2.2.1 p member)
      | spawnProducers w' off => exact ⟨main.1,by simpa using main.2.1,main.2.2⟩
      | spawnSubmitters => exact ⟨main.1,by simpa using main.2.1,main.2.2⟩
      | joinProducers w' =>
        refine ⟨main.1,by simpa using main.2.1,main.2.2.1,?_⟩
        intro v joined q found
        have other : w ≠ v := by
          rintro rfl
          exact main.2.2.2 w joined p thread more
        simp only at found
        rw [List.getElem?_set_ne other] at found
        exact main.2.2.2 v joined q found
      | joinSubmitters k => exact absurd (ordered.released main.1).1 busy
      | finished => exact absurd more (main.2.2.1 p member)

theorem joinedAll (someCluster : 1 ≤ c.clusters) {s : State} (inv : Ordered c s)
    (spawned : s.submitters.length = c.clusters) (gone : ∀ a ∈ s.submitters, a = .left) :
    AllEnqueued c s ∧ s.queue = 0 := by
  have first : 0 < s.submitters.length := by omega
  have member : s.submitters[0] ∈ s.submitters := List.getElem_mem first
  rw [gone _ member] at member
  exact inv.left member

theorem moveKeeps {s : State} (inv : Invariant c s) {main : Main} (there : mainAt c s main) :
    Invariant c { s with main := main } := by
  obtain ⟨enqueued,conserved,ordered⟩ := inv
  refine ⟨enqueuedSame enqueued rfl rfl,⟨conserved.kept,conserved.buffers,conserved.sizes⟩,
    ⟨?_,ordered.released,ordered.sized,ordered.left⟩⟩
  cases main <;> exact there

theorem producerSpawned {s : State} (inv : Invariant c s) {w off : Nat} (here : s.main = .spawnProducers w off)
    (more : w < numWorkers c.batchSize) : Invariant c { s with
      main := .spawnProducers (w+1) (off + workerCount c w)
      producers := s.producers ++ [⟨off,off + workerCount c w⟩] } := by
  obtain ⟨enqueued,conserved,ordered⟩ := inv
  have main := ordered.main
  rw [here] at main
  obtain ⟨idle,rfl,next,none⟩ := main
  refine ⟨spawnKeeps enqueued next more _,⟨conserved.kept,conserved.buffers,conserved.sizes⟩,
    ⟨⟨idle,by simp,?_,none⟩,?_,?_,?_⟩⟩
  · rw [rangeNext,next]
  · intro done
    rw [idle] at done
    contradiction
  · intro visible found
    rw [none] at found
    contradiction
  · intro found
    rw [none] at found
    contradiction

theorem submitterSpawned {s : State} (inv : Invariant c s) (here : s.main = .spawnSubmitters)
    (more : s.submitters.length < c.clusters) :
    Invariant c { s with submitters := s.submitters ++ [.dequeue] } := by
  obtain ⟨enqueued,conserved,ordered⟩ := inv
  have main := ordered.main
  rw [here] at main
  have old : ∀ a ∈ s.submitters ++ [Submitter.dequeue], a ≠ .dequeue → a ∈ s.submitters := by
    intro a member other
    rcases List.mem_append.mp member with before | new
    · exact before
    · exact absurd (List.mem_singleton.mp new) other
  refine ⟨enqueuedSame enqueued rfl rfl,⟨?_,?_,conserved.sizes⟩,⟨?_,ordered.released,?_,?_⟩⟩
  · have kept := conserved.kept
    rw [inFlight] at kept ⊢
    simpa [held] using kept
  · exact fun buf found => conserved.buffers buf (old _ found (by simp))
  · simp only [here]
    exact ⟨main.1,main.2.1,by simpa using more⟩
  · exact fun visible found => ordered.sized visible (old _ found (by simp))
  · exact fun found => ordered.left (old _ found (by simp))

theorem joinNext {α : Type} {threads : List α} {ended : α → Prop} {k : Nat} {a : α}
    (before : ∀ j < k, ∀ a, threads[j]? = some a → ended a) (thread : threads[k]? = some a) (last : ended a) :
    ∀ j < k+1, ∀ a, threads[j]? = some a → ended a := by
  intro j joined a' found
  rcases Nat.lt_succ_iff_lt_or_eq.mp joined with earlier | rfl
  · exact before j earlier a' found
  · rw [thread,Option.some.injEq] at found
    rwa [← found]

theorem joinedEvery {α : Type} {threads : List α} {ended : α → Prop} {k : Nat}
    (joined : ∀ j < k, ∀ a, threads[j]? = some a → ended a) (all : k = threads.length) :
    ∀ a ∈ threads, ended a := by
  intro a member
  obtain ⟨j,inside,same⟩ := List.getElem_of_mem member
  exact joined j (by omega) a (by rw [List.getElem?_eq_getElem inside,same])

theorem mainKeeps (someCluster : 1 ≤ c.clusters) {s t : State} (inv : Invariant c s) (step : MainStep c s t) :
    Invariant c t := by
  have main := inv.ordered.main
  cases step with
  | enter here more =>
    rw [here] at main
    refine ⟨⟨Nat.zero_le _,by simp,List.nodup_nil,by simp⟩,⟨by simp [inFlight,main.2.1],by simp,by simp⟩,
      ⟨⟨main.1,rfl,shareZero.symm,rfl⟩,?_,by simp,by simp⟩⟩
    intro done
    rw [main.1] at done
    contradiction
  | leave here last =>
    rw [here] at main
    exact moveKeeps inv main
  | spawnProducer here more => exact producerSpawned inv here more
  | producersSpawned here all =>
    rw [here] at main
    obtain ⟨idle,rfl,_,none⟩ := main
    have whole : s.producers.length = numWorkers c.batchSize := by have := inv.enqueued.spawned; omega
    exact moveKeeps inv ⟨idle,whole,by simp [none]⟩
  | spawnSubmitter here more => exact submitterSpawned inv here more
  | submittersSpawned here all =>
    rw [here] at main
    have whole : s.submitters.length = c.clusters := by have := main.2.2; omega
    exact moveKeeps inv ⟨main.1,main.2.1,whole,by simp⟩
  | joinProducer here thread ended =>
    rw [here] at main
    exact moveKeeps inv ⟨main.1,main.2.1,main.2.2.1,joinNext main.2.2.2 thread ended⟩
  | setDone here all =>
    rw [here] at main
    obtain ⟨enqueued,conserved,ordered⟩ := inv
    have everyone : AllEnqueued c s := ⟨main.2.1,joinedEvery main.2.2.2 all⟩
    exact ⟨enqueuedSame enqueued rfl rfl,⟨conserved.kept,conserved.buffers,conserved.sizes⟩,
      ⟨⟨rfl,main.2.2.1,by simp⟩,fun _ => ⟨everyone,all.trans main.2.1⟩,ordered.sized,ordered.left⟩⟩
  | @joinSubmitter k here ended =>
    rw [here] at main
    refine moveKeeps inv ⟨main.1,main.2.1,?_⟩
    intro j joined
    rcases Nat.lt_succ_iff_lt_or_eq.mp joined with before | rfl
    · exact main.2.2 j before
    · exact ended
  | resetDone here all =>
    rw [here] at main
    obtain ⟨enqueued,conserved,ordered⟩ := inv
    have gone : ∀ a ∈ s.submitters, a = .left := by
      refine joinedEvery (fun j joined a found => ?_) all
      rw [main.2.2 j joined] at found
      exact (Option.some.inj found).symm
    obtain ⟨everyone,empty⟩ := joinedAll someCluster ordered main.2.1 gone
    exact ⟨enqueuedSame enqueued rfl rfl,⟨conserved.kept,conserved.buffers,conserved.sizes⟩,
      ⟨⟨rfl,empty,everyone.2,gone⟩,by simp,ordered.sized,ordered.left⟩⟩

theorem reachableKeeps (someCluster : 1 ≤ c.clusters) {s : State} (run : Reachable c s) : Invariant c s := by
  apply everyReachable c startKeeps _ run
  intro s t step inv
  cases step with
  | main step => exact mainKeeps someCluster inv step
  | producer step => exact producerKeeps inv step
  | submitter step => exact submitterKeeps inv step

theorem enqueuedOnce {s : State} (inv : Enqueued c s) (all : AllEnqueued c s) {b : Nat} (asked : b < c.batchSize) :
    ∃ w < s.producers.length, s.enqueued.filter (fun i => i.b = b) = [⟨w,b⟩] := by
  have ends : rangeStart c (numWorkers c.batchSize) = c.batchSize := shareAll (someWorker c)
  rw [← ends] at asked
  obtain ⟨w,inside,low,high⟩ := shareOwner asked
  rw [← all.1] at inside
  refine ⟨w,inside,?_⟩
  have thread : s.producers[w]? = some s.producers[w] := List.getElem?_eq_getElem inside
  have range := inv.ranges w _ thread
  have ended := all.2 _ (List.getElem_mem inside)
  have before : b < rangeStart c (w+1) := high
  have sent : (⟨w,b⟩ : Item) ∈ s.enqueued := (inv.history _).mpr ⟨_,thread,low,by simp only; omega⟩
  rw [← List.perm_singleton,List.perm_ext_iff_of_nodup (inv.once.filter _) (List.nodup_singleton _)]
  intro i
  rw [List.mem_filter,List.mem_singleton,decide_eq_true_iff]
  constructor
  · rintro ⟨member,rfl⟩
    have owner := shareUnique (enqueuedBelow inv member).2 ⟨low,high⟩
    rw [← owner]
  · rintro rfl
    exact ⟨sent,rfl⟩

theorem launchedAll {s : State} (inv : Conserved s) (empty : s.queue = 0) (gone : ∀ a ∈ s.submitters, a = .left) :
    s.launches.flatten.Perm s.enqueued := by
  have none : (s.submitters.map held).sum = 0 := by
    apply List.sum_eq_zero
    intro part member
    obtain ⟨a,inPool,rfl⟩ := List.mem_map.mp member
    rw [gone a inPool]
    rfl
  have kept := inv.kept
  rw [inFlight,empty,none,add_zero,zero_add] at kept
  exact Multiset.coe_eq_coe.mp kept

/- A launch is within the kernel's limit, so the kernel answers all of its queries. -/
theorem clampKeeps {l : List Item} (someQuery : 1 ≤ l.length) (fits : l.length ≤ maxBatch) (numDpus : Nat)
    (db : Database) (vectors : Item → List (List Byte)) :
    clampBatches (submitterArguments numDpus db (l.map vectors)).numBatches = l.length := by
  unfold maxBatch at fits
  have exact_ : SizeT.toUInt32 (l.map vectors).length = l.length := by
    rw [List.length_map,SizeT.toUInt32Exact (by omega)]
  unfold submitterArguments clampBatches maxBatch
  simp only [exact_]
  rw [if_neg (by omega : ¬ l.length = 0),if_neg (by omega)]

theorem batchDelivered (someCluster : 1 ≤ c.clusters) {s : State} (run : Reachable c s) :
    (s.submitters.length = c.clusters → (∀ a ∈ s.submitters, a = .left) →
      s.queue = 0 ∧ ∀ b < c.batchSize, ∃ w < s.producers.length,
        s.enqueued.filter (fun i => i.b = b) = [⟨w,b⟩] ∧
        s.launches.flatten.filter (fun i => i.b = b) = [⟨w,b⟩]) ∧
    (s.main = .repetition → s.queue = 0) ∧
    ∀ l ∈ s.launches, 1 ≤ l.length ∧ l.length ≤ maxBatch ∧
      ∀ numDpus db vectors, clampBatches (submitterArguments numDpus db (l.map vectors)).numBatches = l.length := by
  obtain ⟨enqueued,conserved,ordered⟩ := reachableKeeps someCluster run
  refine ⟨?_,?_,?_⟩
  · intro spawned gone
    obtain ⟨all,empty⟩ := joinedAll someCluster ordered spawned gone
    refine ⟨empty,?_⟩
    intro b asked
    obtain ⟨w,inside,once⟩ := enqueuedOnce enqueued all asked
    have launched := (launchedAll conserved empty gone).filter (fun i => decide (i.b = b))
    rw [once,List.perm_singleton] at launched
    exact ⟨w,inside,once,launched⟩
  · intro here
    have main := ordered.main
    rw [here] at main
    exact main.2.1
  · intro l member
    have size := conserved.sizes l member
    exact ⟨size.1,size.2,clampKeeps size.1 size.2⟩

end

/- Eight queries by two producers for two clusters: both submitters take some while the
queries still come in, launch them, and leave when the flag is set. -/
theorem eightQueries : (∃ s, Reachable ⟨8,2,1⟩ s ∧
      s.submitters = [.launching [⟨0,0⟩,⟨0,1⟩],.launching [⟨1,4⟩,⟨0,2⟩,⟨1,5⟩]]) ∧
    ∃ s, Reachable ⟨8,2,1⟩ s ∧ s.main = .finished ∧ s.rep = 1 ∧ s.submitters = [.left,.left] := by
  have entered := Relation.ReflTransGen.refl.tail (Step.main (c := ⟨8,2,1⟩) (.enter (s := start) rfl (by decide)))
  have producing := (entered.tail (.main (.spawnProducer rfl (by decide)))).tail (.main (.spawnProducer rfl (by decide)))
  have spawned := ((producing.tail (.main (.producersSpawned rfl (by decide)))).tail
    (.main (.spawnSubmitter rfl (by decide)))).tail (.main (.spawnSubmitter rfl (by decide)))
  have joining := spawned.tail (.main (.submittersSpawned rfl (by decide)))
  have early := ((joining.tail (.producer (.enqueue (w := 0) rfl (by decide)))).tail
    (.producer (.enqueue (w := 0) rfl (by decide)))).tail (.producer (.enqueue (w := 1) rfl (by decide)))
  have some := (early.tail (.producer (.enqueue (w := 0) rfl (by decide)))).tail
    (.producer (.enqueue (w := 1) rfl (by decide)))
  have first := some.tail (.submitter (@SubmitterStep.tryDequeueBulk _ 0 [⟨0,0⟩,⟨0,1⟩]
    ([⟨1,4⟩,⟨0,2⟩,⟨1,5⟩] : List Item) rfl (by decide) (by decide) (by decide)))
  have taken := first.tail (.submitter (@SubmitterStep.tryDequeueBulk _ 1 [⟨1,4⟩,⟨0,2⟩,⟨1,5⟩] 0 rfl (by decide)
    (by decide) (by decide)))
  refine ⟨⟨_,taken,rfl⟩,?_⟩
  have launched := (taken.tail (.submitter (.launch (k := 0) rfl))).tail (.submitter (.launch (k := 1) rfl))
  have sent := ((launched.tail (.producer (.enqueue (w := 0) rfl (by decide)))).tail
    (.producer (.enqueue (w := 1) rfl (by decide)))).tail (.producer (.enqueue (w := 1) rfl (by decide)))
  have last := (sent.tail (.submitter (@SubmitterStep.tryDequeueBulk _ 0 [⟨1,7⟩,⟨0,3⟩,⟨1,6⟩] 0 rfl (by decide)
    (by decide) (by decide)))).tail (.submitter (.launch (k := 0) rfl))
  have joined := (last.tail (.main (.joinProducer (w := 0) rfl rfl (by decide)))).tail
    (.main (.joinProducer (w := 1) rfl rfl (by decide)))
  have flagged := joined.tail (.main (.setDone (w := 2) rfl rfl))
  have idle := (flagged.tail (.submitter (.gotNothing (k := 0) rfl))).tail (.submitter (.gotNothing (k := 1) rfl))
  have seen := (idle.tail (.submitter (.loadDone (k := 0) rfl rfl))).tail (.submitter (.loadDone (k := 1) rfl rfl))
  have left := (seen.tail (.submitter (.sizeZero (k := 0) rfl (by simp)))).tail
    (.submitter (.sizeZero (k := 1) rfl (by simp)))
  have ends := (left.tail (.main (.joinSubmitter (k := 0) rfl rfl))).tail (.main (.joinSubmitter (k := 1) rfl rfl))
  exact ⟨_,(ends.tail (.main (.resetDone (k := 2) rfl rfl))).tail (.main (.leave rfl (by decide))),rfl,rfl,rfl⟩

theorem batchDeliveredEight : ∃ s, Reachable ⟨8,2,1⟩ s ∧ s.queue = 0 ∧ ∀ b < 8, ∃ w < s.producers.length,
    s.enqueued.filter (fun i => i.b = b) = [⟨w,b⟩] ∧
    s.launches.flatten.filter (fun i => i.b = b) = [⟨w,b⟩] := by
  obtain ⟨s,run,_,_,gone⟩ := eightQueries.2
  have delivered := (batchDelivered (by decide) run).1 (by rw [gone]; rfl) (by simp [gone])
  exact ⟨s,run,delivered⟩

end ImPir.BatchDelivery
