import ImPir.BatchDelivery
import ImPir.BoundedWork

/-! `pim_batch_execution` comes to its end. The submitters' polling apart, a run takes a
bounded number of steps, and from every reachable state a poll or two lead on to the
next of them: no thread waits for one that waits for it. -/
namespace ImPir.BatchProgress
open Relation (ReflTransGen)
open WorkerPool BatchQueue BatchDelivery BoundedWork

/- A submitter's round that takes nothing, launches nothing and stays in the loop. -/
def Poll (s t : State) : Prop :=
  SubmitterStep s t ∧ t.queue = s.queue ∧ t.launches = s.launches ∧
    ∀ k : Nat, t.submitters[k]? = some Submitter.left → s.submitters[k]? = some Submitter.left

/- The steps still to come: three for a query to enqueue, two for one in the queue,
those of the submitters, and the main thread's own. -/
def submitterWork : Submitter → Nat
  | .launching _ => 2
  | .left => 0
  | _ => 1

def sharedWork (s : State) : Nat :=
  3*(s.producers.map (fun p => p.stop - p.b)).sum + 2*s.queue.card + (s.submitters.map submitterWork).sum

section
variable (c : Config)

def roundWork : Nat := 2*numWorkers c.batchSize + 3*c.clusters + 3*c.batchSize + 5

def mainWork (s : State) : Nat :=
  match s.main with
  | .repetition => (c.reps - s.rep)*roundWork c + 1
  | .spawnProducers w off => (c.reps - s.rep - 1)*roundWork c + 1 +
      (2*numWorkers c.batchSize - w + 3*(c.batchSize - off) + 3*c.clusters + 4)
  | .spawnSubmitters => (c.reps - s.rep - 1)*roundWork c + 1 +
      (2*(c.clusters - s.submitters.length) + numWorkers c.batchSize + c.clusters + 3)
  | .joinProducers w => (c.reps - s.rep - 1)*roundWork c + 1 + (numWorkers c.batchSize - w + c.clusters + 2)
  | .joinSubmitters k => (c.reps - s.rep - 1)*roundWork c + 1 + (c.clusters - k + 1)
  | .finished => 0

def work (s : State) : Nat := mainWork c s + sharedWork s

def placedAt (s : State) : Main → Prop
  | .repetition => True
  | .finished => True
  | .joinProducers w => s.rep < c.reps ∧ w ≤ s.producers.length
  | .joinSubmitters k => s.rep < c.reps ∧ k ≤ s.submitters.length
  | _ => s.rep < c.reps

structure Placed (s : State) : Prop where
  inv : Invariant c s
  main : placedAt c s s.main

variable {c}

theorem placedKeeps (someCluster : 1 ≤ c.clusters) {s t : State} (here : Placed c s) (step : Step c s t) :
    Placed c t := by
  obtain ⟨inv,main⟩ := here
  cases step with
  | main step =>
    refine ⟨mainKeeps someCluster inv step,?_⟩
    cases step with
    | enter _ more => exact more
    | joinProducer here thread _ =>
      rw [here] at main
      exact ⟨main.1,(List.getElem?_eq_some_iff.mp thread).1⟩
    | joinSubmitter here ended =>
      rw [here] at main
      exact ⟨main.1,(List.getElem?_eq_some_iff.mp ended).1⟩
    | submittersSpawned here _ =>
      rw [here] at main
      exact ⟨main,Nat.zero_le _⟩
    | setDone here _ =>
      rw [here] at main
      exact ⟨main.1,Nat.zero_le _⟩
    | spawnProducer here _ =>
      rw [here] at main
      exact main
    | producersSpawned here _ =>
      rw [here] at main
      exact main
    | spawnSubmitter here _ =>
      rw [here] at main
      simp only [here]
      exact main
    | leave => trivial
    | resetDone => trivial
  | producer step =>
    refine ⟨producerKeeps inv step,?_⟩
    cases step
    simp only
    generalize s.main = position at main ⊢
    cases position with
    | joinProducers w => exact ⟨main.1,by simpa using main.2⟩
    | _ => exact main
  | submitter step =>
    refine ⟨submitterKeeps inv step,?_⟩
    cases step <;> simp only <;> generalize s.main = position at main ⊢ <;> cases position <;>
      first
      | exact main
      | exact ⟨main.1,by simpa using main.2⟩

theorem workSet {s : State} {k : Nat} {a : Submitter} (thread : s.submitters[k]? = some a) (a' : Submitter)
    (queue : Multiset Item) (launches : List (List Item)) :
    work c { s with submitters := s.submitters.set k a',queue := queue,launches := launches } +
      submitterWork a + 2*s.queue.card = work c s + submitterWork a' + 2*queue.card := by
  have moved := poolSet submitterWork thread a'
  have stays : mainWork c { s with submitters := s.submitters.set k a',queue := queue,launches := launches } =
      mainWork c s := by
    simp only [mainWork,List.length_set]
  simp only [work,stays,sharedWork]
  omega

theorem pollSet {s : State} {k : Nat} {a : Submitter} (thread : s.submitters[k]? = some a) (a' : Submitter)
    (same : submitterWork a' = submitterWork a) (stays : a' ≠ .left)
    (step : SubmitterStep s { s with submitters := s.submitters.set k a' }) :
    Poll s { s with submitters := s.submitters.set k a' } ∧
      work c { s with submitters := s.submitters.set k a' } = work c s := by
  have moved := workSet (c := c) thread a' s.queue s.launches
  refine ⟨⟨step,rfl,rfl,?_⟩,by omega⟩
  intro j found
  rw [List.getElem?_set] at found
  split at found
  · split at found
    · exact absurd (Option.some.inj found) stays
    · contradiction
  · exact found

theorem submitterLowers {s t : State} (step : SubmitterStep s t) :
    work c t < work c s ∨ (Poll s t ∧ work c t = work c s) := by
  cases step with
  | @tryDequeueBulk k buf rest thread got fits taken =>
    left
    have moved := workSet (c := c) thread (.launching buf) rest s.launches
    have someItem : 0 < buf.length := List.length_pos_iff.mpr got
    rw [taken,Multiset.card_add,Multiset.coe_card] at moved
    simp only [submitterWork] at moved
    omega
  | gotNothing thread => exact Or.inr (pollSet thread .idle rfl (by simp) (.gotNothing thread))
  | loadDone thread done => exact Or.inr (pollSet thread (.sizing _) rfl (by simp) (.loadDone thread done))
  | loadNotDone thread => exact Or.inr (pollSet thread .dequeue rfl (by simp) (.loadNotDone thread))
  | sizeZero thread zero =>
    left
    have moved := workSet (c := c) thread .left s.queue s.launches
    simp only [submitterWork] at moved
    omega
  | sizePositive thread => exact Or.inr (pollSet thread .dequeue rfl (by simp) (.sizePositive thread))
  | @launch k buf thread =>
    left
    have moved := workSet (c := c) thread .dequeue s.queue (s.launches ++ [buf])
    simp only [submitterWork] at moved
    omega

theorem producerLowers {s t : State} (step : ProducerStep s t) : work c t < work c s := by
  cases step with
  | @enqueue w p thread more =>
    have moved := poolSet (fun p : Producer => p.stop - p.b) thread { p with b := p.b + 1 }
    simp only at moved
    have stays : mainWork c { s with
        producers := s.producers.set w { p with b := p.b + 1 },queue := ⟨w,p.b⟩ ::ₘ s.queue
        enqueued := s.enqueued ++ [⟨w,p.b⟩] } = mainWork c s := rfl
    simp only [work,stays,sharedWork,Multiset.card_cons]
    omega

theorem roundsLeft {s : State} (more : s.rep < c.reps) :
    (c.reps - s.rep)*roundWork c = (c.reps - s.rep - 1)*roundWork c + roundWork c := by
  obtain ⟨left,same⟩ : ∃ left, c.reps - s.rep = left+1 := ⟨c.reps - s.rep - 1,by omega⟩
  rw [same,Nat.add_sub_cancel,Nat.succ_mul]

theorem mainLowers {s t : State} (here : Placed c s) (step : MainStep c s t) : work c t < work c s := by
  obtain ⟨inv,placed⟩ := here
  have main := inv.ordered.main
  cases step with
  | enter here more =>
    rw [here] at main
    have rounds := roundsLeft more
    have round : roundWork c = 2*numWorkers c.batchSize + 3*c.clusters + 3*c.batchSize + 5 := rfl
    simp only [work,mainWork,here,sharedWork,main.2.1,Multiset.card_zero,List.map_nil,List.sum_nil,rounds]
    omega
  | leave here last =>
    simp only [work,mainWork,here,sharedWork]
    omega
  | @spawnProducer w off here more =>
    rw [here] at main
    have last : rangeStart c (w+1) ≤ rangeStart c (numWorkers c.batchSize) := shareMono more
    have whole : rangeStart c (numWorkers c.batchSize) = c.batchSize := shareAll (someWorker c)
    have next := rangeNext c w
    rw [← main.2.2.1] at next
    simp only [work,mainWork,here,sharedWork,List.map_append,List.sum_append,List.map_singleton,List.sum_singleton]
    omega
  | producersSpawned here all =>
    rw [here] at main
    have spawned := inv.enqueued.spawned
    rw [← main.2.1] at spawned
    simp only [work,mainWork,here,sharedWork,main.2.2.2,List.length_nil]
    omega
  | spawnSubmitter here more =>
    simp only [work,mainWork,here,sharedWork,List.map_append,List.sum_append,List.map_singleton,List.sum_singleton,
      List.length_append,List.length_singleton,submitterWork]
    omega
  | submittersSpawned here all =>
    simp only [work,mainWork,here,sharedWork]
    omega
  | joinProducer here thread ended =>
    rw [here] at main
    have inside := (List.getElem?_eq_some_iff.mp thread).1
    rw [main.2.1] at inside
    simp only [work,mainWork,here,sharedWork]
    omega
  | setDone here all =>
    simp only [work,mainWork,here,sharedWork]
    omega
  | joinSubmitter here ended =>
    rw [here] at main
    have inside := (List.getElem?_eq_some_iff.mp ended).1
    rw [main.2.1] at inside
    simp only [work,mainWork,here,sharedWork]
    omega
  | resetDone here all =>
    simp only [work,mainWork,here,sharedWork,Nat.sub_add_eq]
    omega

theorem batchMeasured (someCluster : 1 ≤ c.clusters) : Measured (Step c) Poll (Placed c) (work c) where
  keeps _ _ here step := placedKeeps someCluster here step
  waits s t _ _ poll := by
    rcases submitterLowers (c := c) poll.1 with lower | ⟨_,same⟩
    · exact Nat.le_of_lt lower
    · exact Nat.le_of_eq same
  lowers s t here step works := by
    cases step with
    | main step => exact mainLowers here step
    | producer step => exact producerLowers step
    | submitter step =>
      rcases submitterLowers (c := c) step with lower | ⟨poll,_⟩
      · exact lower
      · exact absurd poll works

theorem pollWork {s t : State} (poll : Poll s t) : work c t = work c s := by
  obtain ⟨step,queue,launches,left⟩ := poll
  cases step with
  | @tryDequeueBulk k buf rest thread got fits taken =>
    have someItem : 0 < buf.length := List.length_pos_iff.mpr got
    have smaller := congrArg Multiset.card taken
    simp only at queue
    rw [← queue,Multiset.card_add,Multiset.coe_card] at smaller
    omega
  | @sizeZero k visible thread zero =>
    have gone := left k (by simp [(List.getElem?_eq_some_iff.mp thread).1])
    rw [thread] at gone
    simp at gone
  | launch thread => simp at launches
  | gotNothing thread => exact (pollSet thread .idle rfl (by simp) (.gotNothing thread)).2
  | loadDone thread done => exact (pollSet thread (.sizing _) rfl (by simp) (.loadDone thread done)).2
  | loadNotDone thread => exact (pollSet thread .dequeue rfl (by simp) (.loadNotDone thread)).2
  | sizePositive thread => exact (pollSet thread .dequeue rfl (by simp) (.sizePositive thread)).2

theorem workNext {s t : State} (step : Step c s t) (lower : work c t < work c s) :
    ∃ t u, ReflTransGen (Idles (Step c) Poll) s t ∧ Step c t u ∧ ¬ Poll t u := by
  refine ⟨s,t,.refl,step,?_⟩
  intro poll
  rw [pollWork poll] at lower
  exact absurd lower (Nat.lt_irrefl _)

theorem pollThen {s m : State} (poll : Poll s m)
    (next : ∃ t u, ReflTransGen (Idles (Step c) Poll) m t ∧ Step c t u ∧ ¬ Poll t u) :
    ∃ t u, ReflTransGen (Idles (Step c) Poll) s t ∧ Step c t u ∧ ¬ Poll t u := by
  obtain ⟨t,u,idles,step,works⟩ := next
  exact ⟨t,u,(ReflTransGen.single ⟨.submitter poll.1,poll⟩).trans idles,step,works⟩

theorem takesItem {s : State} {k : Nat} (thread : s.submitters[k]? = some .dequeue) (someItem : s.queue ≠ 0) :
    ∃ t u, ReflTransGen (Idles (Step c) Poll) s t ∧ Step c t u ∧ ¬ Poll t u := by
  obtain ⟨i,queued⟩ := Multiset.exists_mem_of_ne_zero someItem
  obtain ⟨rest,taken⟩ := Multiset.exists_cons_of_mem queued
  have split : s.queue = ([i] : Multiset Item) + rest := by
    rw [taken,Multiset.coe_singleton,Multiset.singleton_add]
  have step : SubmitterStep s _ := .tryDequeueBulk thread (by simp) (by simp [bufSize]) split
  have moved := workSet (c := c) thread (.launching [i]) rest s.launches
  rw [split,Multiset.card_add] at moved
  simp only [submitterWork,Multiset.coe_card,List.length_singleton] at moved
  exact workNext (.submitter step) (by omega)

theorem leavesLoop {s : State} {k visible : Nat} (thread : s.submitters[k]? = some (.sizing visible))
    (empty : s.queue = 0) : ∃ t u, ReflTransGen (Idles (Step c) Poll) s t ∧ Step c t u ∧ ¬ Poll t u := by
  have step : SubmitterStep s _ := .sizeZero thread (by simp [empty])
  have moved := workSet (c := c) thread .left s.queue s.launches
  simp only [submitterWork] at moved
  exact workNext (.submitter step) (by omega)

theorem setThread {s : State} {k : Nat} {a : Submitter} (thread : s.submitters[k]? = some a) (a' : Submitter) :
    (s.submitters.set k a')[k]? = some a' := by
  simp [(List.getElem?_eq_some_iff.mp thread).1]

theorem launches {s : State} {k : Nat} {buf : List Item} (thread : s.submitters[k]? = some (.launching buf)) :
    ∃ t u, ReflTransGen (Idles (Step c) Poll) s t ∧ Step c t u ∧ ¬ Poll t u := by
  have moved := workSet (c := c) thread .dequeue s.queue (s.launches ++ [buf])
  simp only [submitterWork] at moved
  exact workNext (.submitter (.launch thread)) (by omega)

theorem flagSeen {s : State} (done : s.producersDone = true) {k : Nat} (thread : s.submitters[k]? = some .idle)
    (empty : s.queue = 0) : ∃ t u, ReflTransGen (Idles (Step c) Poll) s t ∧ Step c t u ∧ ¬ Poll t u :=
  pollThen (pollSet (c := c) thread (.sizing _) rfl (by simp) (.loadDone thread done)).1
    (leavesLoop (setThread thread _) empty)

theorem submitterOnward {s : State} (done : s.producersDone = true) {k : Nat} {a : Submitter}
    (thread : s.submitters[k]? = some a) (inLoop : a ≠ .left) :
    ∃ t u, ReflTransGen (Idles (Step c) Poll) s t ∧ Step c t u ∧ ¬ Poll t u := by
  by_cases empty : s.queue = 0
  · cases a with
    | dequeue =>
      exact pollThen (pollSet (c := c) thread .idle rfl (by simp) (.gotNothing thread)).1
        (flagSeen done (setThread thread _) empty)
    | idle => exact flagSeen done thread empty
    | sizing visible => exact leavesLoop thread empty
    | launching buf => exact launches thread
    | left => exact absurd rfl inLoop
  · cases a with
    | dequeue => exact takesItem thread empty
    | idle =>
      exact pollThen (pollSet (c := c) thread .dequeue rfl (by simp) (.loadNotDone thread)).1
        (takesItem (setThread thread _) empty)
    | sizing visible =>
      exact pollThen (pollSet (c := c) thread .dequeue rfl (by simp) (.sizePositive thread)).1
        (takesItem (setThread thread _) empty)
    | launching buf => exact launches thread
    | left => exact absurd rfl inLoop

/- The main thread's next step: it is never the one that all others wait for. -/
theorem batchOnward {s : State} (here : Placed c s) (going : s.main ≠ .finished) :
    ∃ t u, ReflTransGen (Idles (Step c) Poll) s t ∧ Step c t u ∧ ¬ Poll t u := by
  have moves {t : State} (step : MainStep c s t) :
      ∃ t u, ReflTransGen (Idles (Step c) Poll) s t ∧ Step c t u ∧ ¬ Poll t u :=
    workNext (.main step) (mainLowers here step)
  obtain ⟨inv,placed⟩ := here
  have main := inv.ordered.main
  cases atMain : s.main with
  | repetition =>
    by_cases more : s.rep < c.reps
    · exact moves (.enter atMain more)
    · exact moves (.leave atMain more)
  | spawnProducers w off =>
    by_cases more : w < numWorkers c.batchSize
    · exact moves (.spawnProducer atMain more)
    · exact moves (.producersSpawned atMain more)
  | spawnSubmitters =>
    by_cases more : s.submitters.length < c.clusters
    · exact moves (.spawnSubmitter atMain more)
    · exact moves (.submittersSpawned atMain more)
  | joinProducers w =>
    rw [atMain] at placed
    rcases Nat.lt_or_ge w s.producers.length with inside | outside
    · have thread : s.producers[w]? = some s.producers[w] := List.getElem?_eq_getElem inside
      by_cases more : s.producers[w].b < s.producers[w].stop
      · have step : ProducerStep s _ := .enqueue thread more
        exact workNext (.producer step) (producerLowers step)
      · exact moves (.joinProducer atMain thread more)
    · exact moves (.setDone atMain (Nat.le_antisymm placed.2 outside))
  | joinSubmitters k =>
    rw [atMain] at placed main
    rcases Nat.lt_or_ge k s.submitters.length with inside | outside
    · have thread : s.submitters[k]? = some s.submitters[k] := List.getElem?_eq_getElem inside
      by_cases gone : s.submitters[k] = .left
      · exact moves (.joinSubmitter atMain (by rw [thread,gone]))
      · exact submitterOnward main.1 thread gone
    · exact moves (.resetDone atMain (Nat.le_antisymm placed.2 outside))
  | finished => exact absurd atMain going

theorem startPlaced : Placed c start := ⟨startKeeps,trivial⟩

theorem reachablePlaced (someCluster : 1 ≤ c.clusters) {s : State} (run : Reachable c s) : Placed c s :=
  runKeeps (batchMeasured someCluster) startPlaced run

theorem stepsInLoop {s t : State} (step : SubmitterStep s t) : ∃ a ∈ s.submitters, a ≠ .left := by
  cases step with
  | gotNothing thread | loadNotDone thread | sizePositive thread | launch thread =>
    exact ⟨_,List.mem_of_getElem? thread,by simp⟩
  | loadDone thread _ | sizeZero thread _ => exact ⟨_,List.mem_of_getElem? thread,by simp⟩
  | tryDequeueBulk thread _ _ _ => exact ⟨_,List.mem_of_getElem? thread,by simp⟩

theorem finishedStays {s : State} (here : Placed c s) (ended : s.main = .finished) (t : State) : ¬ Step c s t := by
  have main := here.inv.ordered.main
  rw [ended] at main
  intro step
  cases step with
  | main step => cases step <;> simp_all
  | producer step =>
    cases step with
    | enqueue thread more => exact main.2.2.1 _ (List.mem_of_getElem? thread) more
  | submitter step =>
    obtain ⟨a,member,inLoop⟩ := stepsInLoop step
    exact inLoop (main.2.2.2 a member)

theorem batchFinishes (someCluster : 1 ≤ c.clusters) :
    (∀ n s, Worked (Step c) Poll n start s → n ≤ c.reps*roundWork c + 1) ∧
    (∀ s, Reachable c s → s.main ≠ .finished →
      ∃ t u, ReflTransGen (Idles (Step c) Poll) s t ∧ Step c t u ∧ ¬ Poll t u) ∧
    (∀ s, Reachable c s → ∃ t, ReflTransGen (Step c) s t ∧ t.main = .finished) ∧
    (∀ s, Reachable c s → s.main = .finished → ∀ t, ¬ Step c s t) := by
  have measured := batchMeasured someCluster
  refine ⟨?_,?_,?_,?_⟩
  · intro n s run
    have bound := (workedBound measured startPlaced run).2
    have first : work c start = c.reps*roundWork c + 1 := by simp [work,mainWork,sharedWork,start]
    omega
  · exact fun s run going => batchOnward (reachablePlaced someCluster run) going
  · exact fun s run => endInReach measured (fun s here going => batchOnward here going)
      (reachablePlaced someCluster run)
  · exact fun s run ended => finishedStays (reachablePlaced someCluster run) ended

end

theorem batchFinishesEight : ∃ t, ReflTransGen (Step ⟨8,2,3⟩) start t ∧ t.main = .finished :=
  (@batchFinishes ⟨8,2,3⟩ (by decide)).2.2.1 start .refl

end ImPir.BatchProgress
