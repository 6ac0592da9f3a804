import Mathlib.Algebra.BigOperators.Intervals
import Mathlib.Algebra.Order.BigOperators.Group.Finset
import Mathlib.Data.Multiset.OrderedMonoid
import ImPir.BarrierPhases
import ImPir.BoundedWork
import ImPir.WorkerPool

/-! Threads whose code is cut by barriers. An operation loads some cells, one at a time, and
stores what it makes of them; the loads and stores of all threads interleave freely. When
every thread comes to the same number of barriers the machine refines the runs of phases:
it is never stuck, every run ends, and it ends in what the phases make of the memory. -/
namespace ImPir.BarrierMachine
open Finset Function BarrierPhases BoundedWork
open Relation (ReflTransGen)

inductive Status where
  | running
  | waiting
  | ended
  deriving DecidableEq, Repr

/- `pc` counts the operations of the segment that are done; `loaded` is what the next one
has loaded so far. -/
structure Thread (W : Type) where
  segment : Nat
  pc : Nat
  loaded : List W
  status : Status
  deriving DecidableEq, Repr

def Thread.took {W : Type} (t : Thread W) (v : W) : Thread W := { t with loaded := t.loaded ++ [v] }

def Thread.stored {W : Type} (t : Thread W) : Thread W := { t with pc := t.pc + 1,loaded := [] }

def Thread.passed {W : Type} (t : Thread W) : Thread W := ⟨t.segment + 1,0,[],.running⟩

structure Machine (κ W : Type) where
  threads : Nat → Thread W
  memory : κ → W

structure Program (α : Type) where
  threads : Nat
  code : Nat → List (List α)

def Program.ops {α : Type} (P : Program α) (i p : Nat) : List α := (P.code i).getD p []

structure Uniform {α : Type} (P : Program α) (barriers : Nat) : Prop where
  someThread : 0 < P.threads
  segments : ∀ i < P.threads, (P.code i).length = barriers + 1

section
variable {κ W α : Type} [DecidableEq κ] (cell : α → κ) (reads : α → List κ) (made : α → List W → W)
  (P : Program α) (B : Nat)

def Through (t : Thread W) (i : Nat) : Prop := t.pc = (P.ops i t.segment).length ∧ t.loaded = []

/- The last thread to arrive at a barrier wakes the others. -/
inductive Step : Machine κ W → Machine κ W → Prop
  | load {s i a k} (inside : i < P.threads) (runs : (s.threads i).status = .running)
      (next : (P.ops i (s.threads i).segment)[(s.threads i).pc]? = some a)
      (source : (reads a)[(s.threads i).loaded.length]? = some k) :
      Step s { s with threads := update s.threads i ((s.threads i).took (s.memory k)) }
  | store {s i a} (inside : i < P.threads) (runs : (s.threads i).status = .running)
      (next : (P.ops i (s.threads i).segment)[(s.threads i).pc]? = some a)
      (all : (s.threads i).loaded.length = (reads a).length) :
      Step s {
        threads := update s.threads i (s.threads i).stored
        memory := update s.memory (cell a) (made a (s.threads i).loaded) }
  | arrive {s i} (inside : i < P.threads) (runs : (s.threads i).status = .running)
      (through : Through P (s.threads i) i) (more : (s.threads i).segment + 1 < (P.code i).length)
      (others : ∃ j < P.threads, j ≠ i ∧ (s.threads j).status ≠ .waiting) :
      Step s { s with threads := update s.threads i { s.threads i with status := .waiting } }
  | release {s i} (inside : i < P.threads) (runs : (s.threads i).status = .running)
      (through : Through P (s.threads i) i) (more : (s.threads i).segment + 1 < (P.code i).length)
      (last : ∀ j < P.threads, j ≠ i → (s.threads j).status = .waiting) :
      Step s { s with threads := fun j => (s.threads j).passed }
  | finish {s i} (inside : i < P.threads) (runs : (s.threads i).status = .running)
      (through : Through P (s.threads i) i) (last : ¬ (s.threads i).segment + 1 < (P.code i).length) :
      Step s { s with threads := update s.threads i { s.threads i with status := .ended } }

def start (first : κ → W) : Machine κ W := ⟨fun _ => ⟨0,0,[],.running⟩,first⟩

def Reachable (first : κ → W) (s : Machine κ W) : Prop := ReflTransGen (Step cell reads made P) (start first) s

def Ended (s : Machine κ W) : Prop := ∀ i < P.threads, (s.threads i).status = .ended

def phase (p : Nat) : List α := (List.range P.threads).flatMap (fun i => P.ops i p)

def phases : List (List α) := (List.range (B + 1)).map (phase P)

def done (p : Nat) (i : Nat) (t : Thread W) : Multiset α := ((P.ops i p).take t.pc : Multiset α)

/- Thread `i` in segment `p`, which all threads entered with `entry` in memory. -/
structure Sound (p : Nat) (entry : κ → W) (i : Nat) (t : Thread W) : Prop where
  segment : t.segment = p
  counter : t.pc ≤ (P.ops i p).length
  load : ∀ a, (P.ops i p)[t.pc]? = some a → t.loaded <+: (reads a).map entry
  fresh : t.pc = (P.ops i p).length → t.loaded = []
  quiet : t.status ≠ .running → Through P t i
  waits : t.status = .waiting → p < B
  ends : t.status = .ended → p = B

structure Inside (first : κ → W) (p : Nat) (entry : κ → W) (s : Machine κ W) : Prop where
  before : Runs cell (loadedValue reads made) ((List.range p).map (phase P)) first entry
  bound : p ≤ B
  each : ∀ i < P.threads, Sound reads P B p entry i (s.threads i)
  awake : ∃ i < P.threads, (s.threads i).status ≠ .waiting
  written : ∃ order : List α, (order : Multiset α) = ∑ i ∈ range P.threads, done P p i (s.threads i) ∧
    s.memory = run cell (loadedValue reads made) order entry

variable {cell reads made P B}

theorem loadKept {ops order : List α} (h : Apart cell reads ops) {a : α} (member : a ∈ ops)
    (others : ∀ b ∈ order, b ∈ ops ∧ cell a ≠ cell b) {k : κ} (source : k ∈ reads a) (s : κ → W) :
    run cell (loadedValue reads made) order s k = s k := by
  apply runKept
  rintro b mb rfl
  obtain ⟨inPhase,different⟩ := others b mb
  exact h.loads a member b inPhase different source

theorem phaseMember {p : Nat} {a : α} : a ∈ phase P p ↔ ∃ i < P.threads, a ∈ P.ops i p := by
  simp [phase]

theorem phaseSum (p : Nat) : ∑ i ∈ range P.threads, (P.ops i p : Multiset α) = (phase P p : Multiset α) := by
  rw [phase]
  generalize P.threads = n
  induction n with
  | zero => rfl
  | succ n ih =>
    rw [sum_range_succ,ih,List.range_succ,List.flatMap_append,List.flatMap_singleton,Multiset.coe_add]

theorem doneWithin (p : Nat) (threads : Nat → Thread W) :
    ∑ i ∈ range P.threads, done P p i (threads i) ≤ (phase P p : Multiset α) := by
  rw [← phaseSum]
  exact sum_le_sum (fun i _ => Multiset.coe_le.mpr (List.take_sublist _ _).subperm)

theorem doneNext {p i : Nat} {t : Thread W} {a : α} (next : (P.ops i p)[t.pc]? = some a) :
    done P p i t.stored = done P p i t + {a} := by
  rw [done,Thread.stored,List.take_add_one,next,Option.toList_some,← Multiset.coe_add,Multiset.coe_singleton,done]

theorem doneStored {p i : Nat} (inside : i < P.threads) {threads : Nat → Thread W} {a : α}
    (next : (P.ops i p)[(threads i).pc]? = some a) :
    ∑ j ∈ range P.threads, done P p j (update threads i (threads i).stored j) =
      ∑ j ∈ range P.threads, done P p j (threads j) + {a} := by
  have moved := WorkerPool.familySet inside (done P p) threads (threads i).stored
  rw [doneNext next,add_comm (done P p i (threads i)),← add_assoc] at moved
  exact add_right_cancel moved

omit [DecidableEq κ] in
theorem nextFresh {p i : Nat} (apart : Apart cell reads (phase P p)) (inside : i < P.threads)
    {threads : Nat → Thread W} {a : α} (next : (P.ops i p)[(threads i).pc]? = some a) {order : List α}
    (all : (order : Multiset α) = ∑ j ∈ range P.threads, done P p j (threads j)) :
    a ∈ phase P p ∧ ∀ b ∈ order, b ∈ phase P p ∧ cell a ≠ cell b := by
  have within := doneWithin (P := P) p (update threads i (threads i).stored)
  rw [doneStored inside next,← all,← Multiset.coe_singleton,Multiset.coe_add,Multiset.coe_le] at within
  have distinct : ((phase P p).map cell).Nodup := List.pairwise_map.mpr apart.distinct
  obtain ⟨order',perm,sub⟩ := within
  have apart : ((order ++ [a]).map cell).Nodup :=
    (perm.map cell).nodup_iff.mp (List.Nodup.sublist (sub.map cell) distinct)
  rw [List.map_append,List.nodup_append] at apart
  refine ⟨sub.subset (perm.mem_iff.mpr (by simp)),?_⟩
  intro b member
  refine ⟨sub.subset (perm.mem_iff.mpr (by simp [member])),?_⟩
  exact Ne.symm (apart.2.2 _ (List.mem_map_of_mem member) _ (by simp))

variable {first : κ → W}

theorem startInside (uniform : Uniform P B) : Inside cell reads made P B first 0 first (start first) where
  before := .done first
  bound := Nat.zero_le _
  each _ _ := ⟨rfl,Nat.zero_le _,by simp [start],fun _ => rfl,fun stopped => absurd rfl stopped,by simp [start],
    by simp [start]⟩
  awake := ⟨0,uniform.someThread,by simp [start]⟩
  written := ⟨[],by simp [start,done],rfl⟩

omit [DecidableEq κ] in
theorem eachSet {p i : Nat} {entry : κ → W} {threads : Nat → Thread W}
    (each : ∀ j < P.threads, Sound reads P B p entry j (threads j)) {t : Thread W} (own : Sound reads P B p entry i t) :
    ∀ j < P.threads, Sound reads P B p entry j (update threads i t j) := by
  intro j below
  rcases eq_or_ne j i with rfl | other
  · rwa [update_self]
  · rw [update_of_ne other]
    exact each j below

theorem doneSame {p i : Nat} (inside : i < P.threads) (threads : Nat → Thread W) (t : Thread W)
    (pc : t.pc = (threads i).pc) :
    ∑ j ∈ range P.threads, done P p j (update threads i t j) = ∑ j ∈ range P.threads, done P p j (threads j) := by
  have moved := WorkerPool.familySet inside (done P p) threads t
  rw [show done P p i t = done P p i (threads i) by rw [done,done,pc]] at moved
  exact add_right_cancel moved

omit [DecidableEq κ] in
theorem loadedNext {a : α} {entry : κ → W} {loaded : List W} (before : loaded <+: (reads a).map entry) {k : κ}
    (source : (reads a)[loaded.length]? = some k) : loaded ++ [entry k] <+: (reads a).map entry := by
  obtain ⟨rest,whole⟩ := before
  have here : ((reads a).map entry)[loaded.length]? = some (entry k) := by rw [List.getElem?_map,source,Option.map_some]
  rw [← whole,List.getElem?_append_right (Nat.le_refl _),Nat.sub_self] at here
  cases rest with
  | nil => cases here
  | cons v rest =>
    cases here
    exact ⟨rest,by rw [← whole,List.append_assoc,List.singleton_append]⟩

theorem loadKeeps {p i : Nat} {entry : κ → W} {s : Machine κ W} {a : α} {k : κ}
    (apart : Apart cell reads (phase P p)) (h : Inside cell reads made P B first p entry s)
    (inside : i < P.threads) (runs : (s.threads i).status = .running)
    (next : (P.ops i (s.threads i).segment)[(s.threads i).pc]? = some a)
    (source : (reads a)[(s.threads i).loaded.length]? = some k) :
    Inside cell reads made P B first p entry
      { s with threads := update s.threads i ((s.threads i).took (s.memory k)) } := by
  have own := h.each i inside
  rw [own.segment] at next
  obtain ⟨order,all,memory⟩ := h.written
  obtain ⟨member,others⟩ := nextFresh apart inside next all
  have below := (List.getElem?_eq_some_iff.mp next).1
  refine ⟨h.before,h.bound,eachSet h.each ⟨own.segment,own.counter,?_,?_,?_,own.waits,own.ends⟩,⟨i,inside,?_⟩,order,?_,
    memory⟩
  · intro a' next'
    rw [Thread.took,next,Option.some.injEq] at next'
    subst next'
    rw [memory,loadKept apart member others (List.mem_of_getElem? source)]
    exact loadedNext (own.load a next) source
  · intro last
    exact absurd last (Nat.ne_of_lt below)
  · exact fun stopped => absurd runs stopped
  · simp [Thread.took,runs]
  · exact all.trans (doneSame inside s.threads ((s.threads i).took (s.memory k)) rfl).symm

theorem storeKeeps {p i : Nat} {entry : κ → W} {s : Machine κ W} {a : α}
    (apart : Apart cell reads (phase P p)) (h : Inside cell reads made P B first p entry s)
    (inside : i < P.threads) (runs : (s.threads i).status = .running)
    (next : (P.ops i (s.threads i).segment)[(s.threads i).pc]? = some a)
    (loaded : (s.threads i).loaded.length = (reads a).length) :
    Inside cell reads made P B first p entry {
      threads := update s.threads i (s.threads i).stored
      memory := update s.memory (cell a) (made a (s.threads i).loaded) } := by
  have own := h.each i inside
  rw [own.segment] at next
  obtain ⟨order,all,memory⟩ := h.written
  obtain ⟨member,others⟩ := nextFresh apart inside next all
  have below := (List.getElem?_eq_some_iff.mp next).1
  refine ⟨h.before,h.bound,
    eachSet h.each ⟨own.segment,below,fun _ _ => List.nil_prefix,fun _ => rfl,fun stopped => absurd runs stopped,
      own.waits,own.ends⟩,
    ⟨i,inside,by simp [Thread.stored,runs]⟩,order ++ [a],?_,?_⟩
  · rw [doneStored inside next,← all,← Multiset.coe_singleton,Multiset.coe_add]
  · -- what was loaded is still there, as no other thread writes what the operation loads
    have now : made a (s.threads i).loaded = loadedValue reads made a s.memory := by
      have whole := (own.load a next).eq_of_length (by rw [loaded,List.length_map])
      rw [loadedValue,whole,memory]
      congr 1
      apply List.map_congr_left
      intro k source
      exact (loadKept apart member others source entry).symm
    have both : run cell (loadedValue reads made) (order ++ [a]) entry =
        apply cell (loadedValue reads made) (run cell (loadedValue reads made) order entry) a := by
      rw [run,List.foldl_append]
      rfl
    rw [both,← memory,apply,now]

theorem stopKeeps {p i : Nat} {entry : κ → W} {s : Machine κ W} (h : Inside cell reads made P B first p entry s)
    (inside : i < P.threads) (through : Through P (s.threads i) i) {status : Status}
    (waits : status = .waiting → p < B) (ends : status = .ended → p = B)
    (awake : status = .waiting → ∃ j < P.threads, j ≠ i ∧ (s.threads j).status ≠ .waiting) :
    Inside cell reads made P B first p entry
      { s with threads := update s.threads i { s.threads i with status := status } } := by
  have own := h.each i inside
  obtain ⟨order,all,memory⟩ := h.written
  refine ⟨h.before,h.bound,
    eachSet h.each ⟨own.segment,own.counter,own.load,own.fresh,fun _ => through,waits,ends⟩,?_,order,?_,memory⟩
  · by_cases waiting : status = .waiting
    · obtain ⟨j,below,other,up⟩ := awake waiting
      exact ⟨j,below,by simpa [other] using up⟩
    · exact ⟨i,inside,by simpa using waiting⟩
  · exact all.trans (doneSame inside s.threads { s.threads i with status := status } rfl).symm

theorem phaseRun {p : Nat} {entry : κ → W} {s : Machine κ W} (h : Inside cell reads made P B first p entry s)
    (through : ∀ i < P.threads, Through P (s.threads i) i) :
    Runs cell (loadedValue reads made) ((List.range (p+1)).map (phase P)) first s.memory := by
  obtain ⟨order,all,memory⟩ := h.written
  have whole : (order : Multiset α) = (phase P p : Multiset α) := by
    rw [all,← phaseSum]
    apply sum_congr rfl
    intro i member
    have own := h.each i (mem_range.mp member)
    have length := (through i (mem_range.mp member)).1
    rw [own.segment] at length
    rw [done,length,List.take_length]
  rw [List.range_succ,List.map_append,memory]
  exact runsSnoc h.before (Multiset.coe_eq_coe.mp whole)

theorem stepKeeps (uniform : Uniform P B) (apart : ∀ p ≤ B, Apart cell reads (phase P p)) {s t : Machine κ W}
    (step : Step cell reads made P s t) (inv : ∃ p entry, Inside cell reads made P B first p entry s) :
    ∃ p entry, Inside cell reads made P B first p entry t := by
  obtain ⟨p,entry,h⟩ := inv
  cases step with
  | load inside runs next source => exact ⟨p,entry,loadKeeps (apart p h.bound) h inside runs next source⟩
  | store inside runs next all => exact ⟨p,entry,storeKeeps (apart p h.bound) h inside runs next all⟩
  | arrive inside runs through more others =>
    rw [(h.each _ inside).segment,uniform.segments _ inside] at more
    exact ⟨p,entry,stopKeeps h inside through (fun _ => Nat.lt_of_succ_lt_succ more) (by simp) (fun _ => others)⟩
  | @release i inside runs through more last =>
    rw [(h.each _ inside).segment,uniform.segments _ inside] at more
    have all : ∀ j < P.threads, Through P (s.threads j) j := by
      intro j below
      rcases eq_or_ne j i with rfl | other
      · exact through
      · exact (h.each j below).quiet (by rw [last j below other]; simp)
    refine ⟨p+1,s.memory,phaseRun h all,Nat.lt_of_succ_lt_succ more,?_,⟨i,inside,by simp [Thread.passed]⟩,[],
      by simp [done,Thread.passed],rfl⟩
    intro j below
    exact ⟨congrArg (· + 1) (h.each j below).segment,Nat.zero_le _,by simp [Thread.passed],fun _ => rfl,
      by simp [Thread.passed],by simp [Thread.passed],by simp [Thread.passed]⟩
  | finish inside runs through last =>
    have bound := h.bound
    rw [(h.each _ inside).segment,uniform.segments _ inside] at last
    exact ⟨p,entry,stopKeeps h inside through (by simp) (fun _ => by omega) (by simp)⟩

theorem threadSteps {p i : Nat} {entry : κ → W} {s : Machine κ W} (h : Inside cell reads made P B first p entry s)
    (inside : i < P.threads) (runs : (s.threads i).status = .running) : ∃ t, Step cell reads made P s t := by
  have own := h.each i inside
  have segment := own.segment
  rcases Nat.lt_or_ge (s.threads i).pc (P.ops i p).length with more | all
  · have here := List.getElem?_eq_getElem more
    have next : (P.ops i (s.threads i).segment)[(s.threads i).pc]? = some (P.ops i p)[(s.threads i).pc] := by
      rw [segment,here]
    have few := (own.load _ here).length_le
    rw [List.length_map] at few
    rcases Nat.lt_or_ge (s.threads i).loaded.length (reads (P.ops i p)[(s.threads i).pc]).length with short | enough
    · exact ⟨_,.load inside runs next (List.getElem?_eq_getElem short)⟩
    · exact ⟨_,.store inside runs next (Nat.le_antisymm few enough)⟩
  · have last := Nat.le_antisymm own.counter all
    have through : Through P (s.threads i) i := ⟨by rw [segment]; exact last,own.fresh last⟩
    by_cases more : (s.threads i).segment + 1 < (P.code i).length
    · by_cases last : ∀ j < P.threads, j ≠ i → (s.threads j).status = .waiting
      · exact ⟨_,.release inside runs through more last⟩
      · simp only [not_forall] at last
        obtain ⟨j,below,other,up⟩ := last
        exact ⟨_,.arrive inside runs through more ⟨j,below,other,up⟩⟩
    · exact ⟨_,.finish inside runs through more⟩

/- No deadlock: where not all threads have ended, one can go on. -/
theorem someStep {p : Nat} {entry : κ → W} {s : Machine κ W} (h : Inside cell reads made P B first p entry s)
    (going : ¬ Ended P s) : ∃ t, Step cell reads made P s t := by
  obtain ⟨i,inside,up⟩ := h.awake
  cases here : (s.threads i).status with
  | running => exact threadSteps h inside here
  | waiting => exact absurd here up
  | ended =>
    -- one thread has passed the last barrier, so none waits
    have beyond := (h.each i inside).ends here
    unfold Ended at going
    simp only [not_forall] at going
    obtain ⟨j,below,other⟩ := going
    cases there : (s.threads j).status with
    | running => exact threadSteps h below there
    | waiting =>
      have := (h.each j below).waits there
      omega
    | ended => exact absurd there other

variable (reads) in
def opsWork (ops : List α) : Nat := (ops.map (fun a => (reads a).length + 1)).sum

variable (reads P) in
def threadWork (i : Nat) (t : Thread W) : Nat :=
  ∑ q ∈ Ico (t.segment + 1) (P.code i).length, (opsWork reads (P.ops i q) + 2) +
    (opsWork reads ((P.ops i t.segment).drop t.pc) - t.loaded.length) +
    match t.status with
    | .running => 2
    | .waiting => 1
    | .ended => 0

variable (reads P) in
def work (s : Machine κ W) : Nat := ∑ i ∈ range P.threads, threadWork reads P i (s.threads i)

variable (reads) in
omit [DecidableEq κ] in
theorem opsWorkNext {ops : List α} {pc : Nat} {a : α} (next : ops[pc]? = some a) :
    opsWork reads (ops.drop pc) = (reads a).length + 1 + opsWork reads (ops.drop (pc+1)) := by
  obtain ⟨below,rfl⟩ := List.getElem?_eq_some_iff.mp next
  rw [List.drop_eq_getElem_cons below,opsWork,List.map_cons,List.sum_cons,opsWork]

omit [DecidableEq κ] in
theorem workSet {i : Nat} (inside : i < P.threads) {s : Machine κ W} {t : Thread W} {memory : κ → W}
    (lower : threadWork reads P i t < threadWork reads P i (s.threads i)) :
    work reads P ⟨update s.threads i t,memory⟩ < work reads P s := by
  have moved := WorkerPool.familySet inside (threadWork reads P) s.threads t
  unfold work
  simp only
  omega

omit [DecidableEq κ] in
theorem passLowers {i : Nat} {t : Thread W} (through : Through P t i) (more : t.segment + 1 < (P.code i).length)
    (up : t.status ≠ .ended) : threadWork reads P i t.passed < threadWork reads P i t := by
  have first := sum_eq_sum_Ico_succ_bot more (fun q => opsWork reads (P.ops i q) + 2)
  have length := through.1
  simp only [threadWork,Thread.passed,first,through.2,length,List.drop_zero]
  cases here : t.status with
  | running => simp; omega
  | waiting => simp; omega
  | ended => exact absurd here up

theorem stepLowers (uniform : Uniform P B) {p : Nat} {entry : κ → W} {s t : Machine κ W}
    (h : Inside cell reads made P B first p entry s)
    (step : Step cell reads made P s t) : work reads P t < work reads P s := by
  cases step with
  | load inside runs next source =>
    apply workSet inside
    have below := (List.getElem?_eq_some_iff.mp source).1
    have whole := opsWorkNext reads next
    simp only [threadWork,Thread.took,List.length_append,List.length_singleton]
    omega
  | store inside runs next all =>
    apply workSet inside
    have whole := opsWorkNext reads next
    simp only [threadWork,Thread.stored,List.length_nil]
    omega
  | arrive inside runs through more others =>
    apply workSet inside
    simp [threadWork,runs]
  | @release i inside runs through more last =>
    have each : ∀ j < P.threads, threadWork reads P j (s.threads j).passed < threadWork reads P j (s.threads j) := by
      intro j below
      have segment := (h.each j below).segment.trans (h.each i inside).segment.symm
      rcases eq_or_ne j i with rfl | other
      · exact passLowers through more (by simp [runs])
      · have waiting := last j below other
        rw [uniform.segments i inside,← uniform.segments j below,← segment] at more
        exact passLowers ((h.each j below).quiet (by simp [waiting])) more (by simp [waiting])
    exact sum_lt_sum_of_nonempty ⟨i,mem_range.mpr inside⟩ (fun j member => each j (mem_range.mp member))
  | finish inside runs through last =>
    apply workSet inside
    simp [threadWork,runs]

theorem machineMeasured (uniform : Uniform P B) (apart : ∀ p ≤ B, Apart cell reads (phase P p)) :
    Measured (Step cell reads made P) (fun _ _ => False) (fun s => ∃ p entry, Inside cell reads made P B first p entry s)
      (work reads P) where
  keeps _ _ here step := stepKeeps uniform apart step here
  waits _ _ _ _ never := never.elim
  lowers _ _ here step _ := by
    obtain ⟨p,entry,h⟩ := here
    exact stepLowers uniform h step

theorem reachableInside (uniform : Uniform P B)
    (apart : ∀ p ≤ B, Apart cell reads (phase P p)) {s : Machine κ W}
    (reached : Reachable cell reads made P first s) : ∃ p entry, Inside cell reads made P B first p entry s :=
  runKeeps (machineMeasured uniform apart) ⟨0,first,startInside uniform⟩ reached

theorem someEnd (uniform : Uniform P B)
    (apart : ∀ p ≤ B, Apart cell reads (phase P p)) :
    ∃ s, Reachable cell reads made P first s ∧ Ended P s := by
  apply endInReach (machineMeasured uniform apart) _ ⟨0,first,startInside uniform⟩
  rintro s ⟨p,entry,h⟩ going
  obtain ⟨t,step⟩ := someStep h going
  exact ⟨s,t,.refl,step,id⟩

theorem endedRuns (uniform : Uniform P B)
    (apart : ∀ p ≤ B, Apart cell reads (phase P p)) {s : Machine κ W}
    (reached : Reachable cell reads made P first s) (ended : Ended P s) :
    Runs cell (loadedValue reads made) (phases P B) first s.memory := by
  obtain ⟨p,entry,h⟩ := reachableInside uniform apart reached
  have last : p = B := (h.each 0 uniform.someThread).ends (ended 0 uniform.someThread)
  subst last
  exact phaseRun h (fun i below => (h.each i below).quiet (by simp [ended i below]))

end
end ImPir.BarrierMachine
