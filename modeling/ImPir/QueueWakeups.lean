import ImPir.BoundedWork
import ImPir.ThreadSafeQueue

/-! No wakeup of `ThreadSafeQueue` is lost: the steps that its threads take by themselves
come to an end, and then a thread sleeps in `pop` only while the queue is empty and not
marked as done. -/
namespace ImPir.QueueWakeups
open Finset Function AtomicObject ThreadSafeQueue
open WorkerPool (familySet)
open BoundedWork (Worked Measured workedBound endInReach)
open Relation (ReflTransGen)

section
variable {T : Type}

def left : Access T → Nat
  | .pushLoad _ => 2
  | .pushStore _ _ => 1
  | .waitEmpty => 7
  | .waitDone => 6
  | .checkEmpty => 5
  | .checkDone => 4
  | .tryEmpty => 4
  | .front _ => 3
  | .popLoad _ _ => 2
  | .popStore _ _ _ => 1
  | .setStore => 1
  | .readEmpty => 1

/- The steps behind the unlock, with those of the threads that are woken up. -/
def rest (n : Nat) : Call T → Nat
  | .push _ => 11
  | .setDone => 9*n + 2
  | _ => 1

def work (n : Nat) : Position T → Nat
  | .outside => 0
  | .asleep => 0
  | .woken => 9
  | .locking c => 8 + rest n c
  | .holding a => left a + rest n a.call
  | .unlocking c _ => rest n c
  | .notifying c _ => rest n c - 1

def workLeft (n : Nat) (s : State T) : Nat := ∑ t ∈ range n, work n (s.threads t)

theorem leftLess {a b : Access T} {q : List T} {done : Bool} (does : access a q done = .goes b) : left b < left a := by
  cases a with
  | waitEmpty => cases q <;> cases does <;> simp [left]
  | waitDone => cases done <;> cases does; simp [left]
  | checkEmpty => cases q <;> cases does <;> simp [left]
  | checkDone => cases done <;> cases does; simp [left]
  | tryEmpty => cases q <;> cases does; simp [left]
  | front c => cases q <;> cases does; simp [left]
  | _ => cases does <;> simp [left]

theorem leftSome (a : Access T) : 0 < left a := by cases a <;> simp [left]

theorem leftFirst (c : Call T) : left c.first < 8 := by cases c <;> simp [left,Call.first]

theorem restSome (n : Nat) (c : Call T) : 0 < rest n c := by cases c <;> simp [rest]

theorem restSmall {n : Nat} (some : 0 < n) (c : Call T) : rest n c ≤ 9*n + 2 := by
  cases c with
  | setDone => exact Nat.le_refl _
  | _ =>
    simp only [rest]
    omega

theorem leftSmall (a : Access T) : left a ≤ 7 := by cases a <;> simp [left]

theorem workSmall {n : Nat} (some : 0 < n) (p : Position T) : work n p ≤ 9*n + 10 := by
  cases p with
  | outside => exact Nat.zero_le _
  | asleep => exact Nat.zero_le _
  | woken =>
    rw [work]
    omega
  | locking c =>
    have last := restSmall some c
    rw [work]
    omega
  | holding a =>
    have first := leftSmall a
    have last := restSmall some a.call
    rw [work]
    omega
  | unlocking c r =>
    have last := restSmall some c
    rw [work]
    omega
  | notifying c r =>
    have last := restSmall some c
    rw [work]
    omega

theorem workLeftSmall (n : Nat) (s : State T) : workLeft n s ≤ n*(9*n + 10) := by
  have each : ∀ t ∈ range n, work n (s.threads t) ≤ 9*n + 10 := fun t inside =>
    workSmall (Nat.zero_lt_of_lt (mem_range.mp inside)) _
  have all := sum_le_card_nsmul (range n) (fun t => work n (s.threads t)) (9*n + 10) each
  rwa [card_range] at all

theorem workMoved {n t : Nat} {s u : State T} {p : Position T} (inside : t < n)
    (threads : u.threads = update s.threads t p) (less : work n p < work n (s.threads t)) :
    workLeft n u < workLeft n s := by
  have moved := familySet inside (fun _ => work n) s.threads p
  simp only [workLeft,threads]
  omega

theorem wakeWork (n : Nat) (p : Position T) : work n (wake p) ≤ work n p + 9 := by
  cases p with
  | asleep => exact Nat.le_refl _
  | _ => exact Nat.le_add_right _ _

theorem ownLowers {n : Nat} {s u : State T} {l} (h : Sound n s) (step : OwnStep n s l u) :
    workLeft n u < workLeft n s := by
  cases step with
  | @lock t c inside here free =>
    refine workMoved inside rfl ?_
    have first := leftFirst c
    rw [here,work,work,firstCall]
    omega
  | tryFails inside here =>
    refine workMoved inside rfl ?_
    rw [here]
    simp [work]
  | @goes t a b inside here does =>
    refine workMoved inside rfl ?_
    rw [here,work,work,(accessKnows (h.knows t inside a here) does).2]
    exact Nat.add_lt_add_right (leftLess does) _
  | @leaves t a r q done inside here does =>
    refine workMoved inside rfl ?_
    rw [here,work,work]
    exact Nat.lt_add_of_pos_left (leftSome a)
  | @wait t a inside here does =>
    refine workMoved inside rfl ?_
    have some := leftSome a
    rw [here,work,work]
    omega
  | relock inside here free =>
    refine workMoved inside rfl ?_
    rw [here]
    simp [work,left,rest,Access.call]
  | @unlock t c r inside here quiet =>
    refine workMoved inside rfl ?_
    rw [here]
    exact restSome n c
  | @unlockFirst t c r inside here loud =>
    refine workMoved inside rfl ?_
    rw [here]
    exact Nat.sub_lt (restSome n c) Nat.zero_lt_one
  | @notifyOne t item r j inside here sleeper sleeps =>
    have other : t ≠ j := by
      rintro rfl
      rw [here] at sleeps
      cases sleeps
    have first := familySet sleeper (fun _ => work n) s.threads .woken
    have second := familySet inside (fun _ => work n) (update s.threads j .woken) .outside
    rw [update_of_ne other,here] at second
    rw [sleeps] at first
    have all : work n (.notifying (.push item) r) = 10 := rfl
    have some : work n (.woken (T := T)) = 9 := rfl
    have none : work n (.asleep (T := T)) = 0 := rfl
    have out : work n (.outside (T := T)) = 0 := rfl
    simp only [all,some,none,out] at first second
    simp only [workLeft,State.moved]
    omega
  | notifyNobody inside here nobody =>
    refine workMoved inside rfl ?_
    rw [here]
    simp [work,rest]
  | @notifyAll t r inside here =>
    have woken : ∑ j ∈ range n, work n (wake (s.threads j)) ≤ ∑ j ∈ range n, (work n (s.threads j) + 9) :=
      sum_le_sum fun j _ => wakeWork n (s.threads j)
    rw [sum_add_distrib,sum_const_nat (fun _ _ => rfl),card_range] at woken
    have moved := familySet inside (fun _ => work n) (fun j => wake (s.threads j)) .outside
    have all : work n (wake (.notifying .setDone r)) = 9*n + 1 := rfl
    have out : work n (.outside (T := T)) = 0 := rfl
    simp only [here,all,out] at moved
    simp only [workLeft]
    omega

theorem someMoves {n t : Nat} {s : State T} (h : Sound n s) (inside : t < n)
    (active : s.threads t ≠ .outside ∧ s.threads t ≠ .asleep)
    (noWait : (s.threads t).hasLock = true ∨ s.mtx = none) :
    ∃ l u, OwnStep n s l u := by
  cases here : s.threads t with
  | outside => exact absurd here active.1
  | asleep => exact absurd here active.2
  | locking c =>
    have free : s.mtx = none := by
      rcases noWait with has | free
      · rw [here] at has
        cases has
      · exact free
    exact ⟨_,_,.lock inside here free⟩
  | woken =>
    have free : s.mtx = none := by
      rcases noWait with has | free
      · rw [here] at has
        cases has
      · exact free
    exact ⟨_,_,.relock inside here free⟩
  | holding a =>
    cases does : access a s.q s.done with
    | goes b => exact ⟨_,_,.goes inside here does⟩
    | leaves r q done => exact ⟨_,_,.leaves inside here does⟩
    | sleeps => exact ⟨_,_,.wait inside here does⟩
    | undefined => exact absurd does (neverUndefined (h.knows t inside a here))
  | unlocking c r =>
    cases quiet : notifies c with
    | false => exact ⟨_,_,.unlock inside here quiet⟩
    | true => exact ⟨_,_,.unlockFirst inside here quiet⟩
  | notifying c r =>
    have loud := h.loud t inside c r here
    cases c with
    | push item =>
      by_cases anyone : ∃ j < n, s.threads j = .asleep
      · obtain ⟨j,sleeper,sleeps⟩ := anyone
        exact ⟨_,_,.notifyOne inside here sleeper sleeps⟩
      · exact ⟨_,_,.notifyNobody inside here (fun j sleeper sleeps => anyone ⟨j,sleeper,sleeps⟩)⟩
    | setDone => exact ⟨_,_,.notifyAll inside here⟩
    | pop => cases loud
    | tryPop => cases loud
    | empty => cases loud

def Settled (n : Nat) (s : State T) : Prop := ∀ l u, ¬ OwnStep n s l u

theorem settledThreads {n : Nat} {s : State T} (h : Sound n s) (settled : Settled n s) (t : Nat) (inside : t < n) :
    s.threads t = .outside ∨ s.threads t = .asleep := by
  by_contra active
  obtain ⟨awake,up⟩ := not_or.mp active
  have stuck {i : Nat} (there : i < n) (up : s.threads i ≠ .outside ∧ s.threads i ≠ .asleep)
      (noWait : (s.threads i).hasLock = true ∨ s.mtx = none) : False := by
    obtain ⟨l,u,step⟩ := someMoves h there up noWait
    exact settled l u step
  cases owner : s.mtx with
  | none => exact stuck inside ⟨awake,up⟩ (.inr owner)
  | some i =>
    obtain ⟨there,has⟩ := (h.lock i).mp owner
    refine stuck there ⟨?_,?_⟩ (.inl has)
    · intro out
      rw [out] at has
      cases has
    · intro sleeps
      rw [sleeps] at has
      cases has

theorem settledSleep {n : Nat} {s : State T} (h : Sound n s) (settled : Settled n s) {t : Nat} (inside : t < n)
    (sleeps : s.threads t = .asleep) : s.q = [] ∧ s.done = false := by
  have threads := settledThreads h settled
  constructor
  · have credits : ∑ j ∈ range n, credit (s.threads j) = 0 := by
      apply sum_eq_zero
      intro j there
      rcases threads j (mem_range.mp there) with out | sleeps <;> simp [*,credit]
    have few := h.items t inside sleeps
    rw [credits] at few
    exact List.length_eq_zero_iff.mp (Nat.le_zero.mp few)
  · by_contra isDone
    obtain ⟨j,there,wakes⟩ := h.done t inside sleeps (Bool.not_eq_false _ ▸ isDone)
    rcases threads j there with out | sleeps
    · rw [out] at wakes
      cases wakes
    · rw [sleeps] at wakes
      cases wakes

def Own (n : Nat) (s u : State T) : Prop := ∃ l, OwnStep n s l u

theorem ownMeasured (n : Nat) : Measured (Own (T := T) n) (fun _ _ => False) (Sound n) (workLeft n) where
  keeps := fun _ _ h ⟨_,step⟩ => ownKeeps h step
  waits := fun _ _ _ _ idles => idles.elim
  lowers := fun _ _ h ⟨_,step⟩ _ => ownLowers h step

/- No wakeup is lost. Whatever the threads did, the steps that they take by themselves come
to an end, and where they do every call has returned but for those of `pop` that sleep
because the queue is empty and not done. -/
theorem noLostWakeup {n : Nat} {s : State T} {es : List (Event (Call T) (Result T))}
    (run : Trace (Step n) start es s) :
    (∀ k u, Worked (Own n) (fun _ _ => False) k s u → k ≤ workLeft n s) ∧ workLeft n s ≤ n*(9*n + 10) ∧
    (∃ u, ReflTransGen (Own n) s u ∧ Settled n u) ∧
    (Settled n s → ∀ t < n, s.threads t = .outside ∨ (s.threads t = .asleep ∧ s.q = [] ∧ s.done = false)) := by
  have h := traceSound run
  refine ⟨fun k u own => ?_,workLeftSmall n s,?_,fun settled t inside => ?_⟩
  · have bound := (workedBound (ownMeasured n) h own).2
    omega
  · apply endInReach (ownMeasured n) _ h
    intro s _ going
    obtain ⟨l,u,step⟩ : ∃ l u, OwnStep n s l u := by
      by_contra none
      exact going fun l u step => none ⟨l,u,step⟩
    exact ⟨s,u,.refl,⟨l,step⟩,id⟩
  · rcases settledThreads h settled t inside with out | sleeps
    · exact .inl out
    · exact .inr ⟨sleeps,settledSleep h settled inside sleeps⟩

theorem noLostWakeupWoken : ∃ s, Trace (Step 2) (start (T := Nat))
    [.call 1 .pop,.call 0 (.push 5),.ret 0 .void,.ret 1 (.taken 5)] s ∧
    ∃ u, ReflTransGen (Own 2) s u ∧ Settled 2 u := by
  obtain ⟨s,run⟩ := sleepThenPush
  exact ⟨s,run,(noLostWakeup run).2.2.1⟩

end
end ImPir.QueueWakeups
