import Mathlib.Algebra.Order.BigOperators.Group.Finset
import ImPir.AtomicObject
import ImPir.WorkerPool

/-! `ThreadSafeQueue` of `queue.h`, used by any number of threads. A thread that has the lock
reads and writes `q` and `done` one access at a time; what it has read stays true until it
gives the lock back, as no other thread has it. -/
namespace ImPir.ThreadSafeQueue
open Finset Function AtomicObject
open WorkerPool (familySet)

inductive Call (T : Type) where
  | push (item : T)
  | pop
  | tryPop
  | setDone
  | empty
  deriving DecidableEq, Repr

/- `taken` is a `true` with the item moved out, `refused` a `false`. -/
inductive Result (T : Type) where
  | void
  | taken (item : T)
  | refused
  | isEmpty (b : Bool)
  deriving DecidableEq, Repr

/- The two methods that end in `item = std::move(q.front()); q.pop();`. -/
inductive Taker where
  | pop
  | tryPop
  deriving DecidableEq, Repr

/- The next access of a thread with the lock, and what it has read before: `q.push` and
`q.pop` load the queue and store it, `waitEmpty` and `waitDone` are the predicate of the
wait, `checkEmpty` and `checkDone` the test behind it. -/
inductive Access (T : Type) where
  | pushLoad (item : T)
  | pushStore (item : T) (seen : List T)
  | waitEmpty
  | waitDone
  | checkEmpty
  | checkDone
  | tryEmpty
  | front (c : Taker)
  | popLoad (c : Taker) (item : T)
  | popStore (c : Taker) (item : T) (seen : List T)
  | setStore
  | readEmpty
  deriving DecidableEq, Repr

/- Where a thread stands: outside the class, before the lock of a method, with the lock,
in `cv.wait` asleep or woken up, before the unlock at the end of the lock's scope, and
before the notification that follows it. -/
inductive Position (T : Type) where
  | outside
  | locking (c : Call T)
  | holding (a : Access T)
  | asleep
  | woken
  | unlocking (c : Call T) (r : Result T)
  | notifying (c : Call T) (r : Result T)
  deriving DecidableEq, Repr

structure State (T : Type) where
  q : List T
  done : Bool
  mtx : Option Nat
  threads : Nat → Position T

section
variable {T : Type}

def Taker.call : Taker → Call T
  | .pop => .pop
  | .tryPop => .tryPop

def Access.call : Access T → Call T
  | .pushLoad item => .push item
  | .pushStore item _ => .push item
  | .waitEmpty => .pop
  | .waitDone => .pop
  | .checkEmpty => .pop
  | .checkDone => .pop
  | .tryEmpty => .tryPop
  | .front c => c.call
  | .popLoad c _ => c.call
  | .popStore c _ _ => c.call
  | .setStore => .setDone
  | .readEmpty => .empty

def Call.first : Call T → Access T
  | .push item => .pushLoad item
  | .pop => .waitEmpty
  | .tryPop => .tryEmpty
  | .setDone => .setStore
  | .empty => .readEmpty

/- What an access leads to: the next one, the end of the method with what it leaves in `q`
and `done`, sleep, or `front` of an empty queue, which is undefined. -/
inductive Effect (T : Type) where
  | goes (a : Access T)
  | leaves (r : Result T) (q : List T) (done : Bool)
  | sleeps
  | undefined

def access : Access T → List T → Bool → Effect T
  | .pushLoad item, q, _ => .goes (.pushStore item q)
  | .pushStore item seen, _, done => .leaves .void (seen ++ [item]) done
  | .waitEmpty, q, _ => if q.isEmpty then .goes .waitDone else .goes .checkEmpty
  | .waitDone, _, done => if done then .goes .checkEmpty else .sleeps
  | .checkEmpty, q, _ => if q.isEmpty then .goes .checkDone else .goes (.front .pop)
  | .checkDone, q, done => if done then .leaves .refused q done else .goes (.front .pop)
  | .tryEmpty, q, done => if q.isEmpty then .leaves .refused q done else .goes (.front .tryPop)
  | .front c, item :: _, _ => .goes (.popLoad c item)
  | .front _, [], _ => .undefined
  | .popLoad c item, q, _ => .goes (.popStore c item q)
  | .popStore _ item seen, _, done => .leaves (.taken item) seen.tail done
  | .setStore, q, _ => .leaves .void q true
  | .readEmpty, q, done => .leaves (.isEmpty q.isEmpty) q done

def notifies : Call T → Bool
  | .push _ => true
  | .setDone => true
  | _ => false

def wake (p : Position T) : Position T :=
  match p with
  | .asleep => .woken
  | p => p

def State.moved (s : State T) (t : Nat) (p : Position T) : State T := { s with threads := update s.threads t p }

/- The steps of the methods on `n` threads. `try_to_lock` may fail at any time. -/
inductive OwnStep (n : Nat) : State T → Option (Event (Call T) (Result T)) → State T → Prop
  | lock {s t c} (inside : t < n) (here : s.threads t = .locking c) (free : s.mtx = none) :
      OwnStep n s none { s.moved t (.holding c.first) with mtx := some t }
  | tryFails {s t} (inside : t < n) (here : s.threads t = .locking .tryPop) :
      OwnStep n s (some (.ret t .refused)) (s.moved t .outside)
  | goes {s t a b} (inside : t < n) (here : s.threads t = .holding a) (does : access a s.q s.done = .goes b) :
      OwnStep n s none (s.moved t (.holding b))
  | leaves {s t a r q done} (inside : t < n) (here : s.threads t = .holding a)
      (does : access a s.q s.done = .leaves r q done) :
      OwnStep n s none { s.moved t (.unlocking a.call r) with q := q,done := done }
  | wait {s t a} (inside : t < n) (here : s.threads t = .holding a) (does : access a s.q s.done = .sleeps) :
      OwnStep n s none { s.moved t .asleep with mtx := none }
  | relock {s t} (inside : t < n) (here : s.threads t = .woken) (free : s.mtx = none) :
      OwnStep n s none { s.moved t (.holding .waitEmpty) with mtx := some t }
  | unlock {s t c r} (inside : t < n) (here : s.threads t = .unlocking c r) (quiet : notifies c = false) :
      OwnStep n s (some (.ret t r)) { s.moved t .outside with mtx := none }
  | unlockFirst {s t c r} (inside : t < n) (here : s.threads t = .unlocking c r) (loud : notifies c = true) :
      OwnStep n s none { s.moved t (.notifying c r) with mtx := none }
  | notifyOne {s t item r j} (inside : t < n) (here : s.threads t = .notifying (.push item) r) (sleeper : j < n)
      (sleeps : s.threads j = .asleep) :
      OwnStep n s (some (.ret t r)) ((s.moved j .woken).moved t .outside)
  | notifyNobody {s t item r} (inside : t < n) (here : s.threads t = .notifying (.push item) r)
      (nobody : ∀ j < n, s.threads j ≠ .asleep) :
      OwnStep n s (some (.ret t r)) (s.moved t .outside)
  | notifyAll {s t r} (inside : t < n) (here : s.threads t = .notifying .setDone r) :
      OwnStep n s (some (.ret t r)) { s with threads := update (fun j => wake (s.threads j)) t .outside }

inductive Step (n : Nat) : State T → Option (Event (Call T) (Result T)) → State T → Prop
  | own {s l t} (step : OwnStep n s l t) : Step n s l t
  | call {s t} (c : Call T) (inside : t < n) (here : s.threads t = .outside) :
      Step n s (some (.call t c)) (s.moved t (.locking c))
  | spurious {s t} (inside : t < n) (here : s.threads t = .asleep) : Step n s none (s.moved t .woken)

def start : State T := ⟨[],false,none,fun _ => .outside⟩

def Position.hasLock : Position T → Bool
  | .holding _ => true
  | .unlocking _ _ => true
  | _ => false

def Knows : Access T → List T → Bool → Prop
  | .pushStore _ seen, q, _ => seen = q
  | .waitDone, q, _ => q = []
  | .checkEmpty, q, done => q = [] → done = true
  | .checkDone, q, done => q = [] ∧ done = true
  | .front _, q, _ => q ≠ []
  | .popLoad _ item, q, _ => q.head? = some item
  | .popStore _ item seen, q, _ => q.head? = some item ∧ seen = q
  | _, _, _ => True

def callCredit : Call T → Nat
  | .pop => 1
  | _ => 0

def credit : Position T → Nat
  | .holding a => callCredit a.call
  | .woken => 1
  | .unlocking (.push _) _ => 1
  | .notifying (.push _) _ => 1
  | _ => 0

def Position.wakesAll : Position T → Bool
  | .unlocking .setDone _ => true
  | .notifying .setDone _ => true
  | _ => false

/- What holds in every state that can be reached. While a thread sleeps, there is a thread
under way for each item of the queue and, after `set_done`, one that will wake up all. -/
structure Sound (n : Nat) (s : State T) : Prop where
  lock : ∀ t, s.mtx = some t ↔ t < n ∧ (s.threads t).hasLock = true
  knows : ∀ t < n, ∀ a, s.threads t = .holding a → Knows a s.q s.done
  loud : ∀ t < n, ∀ c r, s.threads t = .notifying c r → notifies c = true
  items : ∀ t < n, s.threads t = .asleep → s.q.length ≤ ∑ j ∈ range n, credit (s.threads j)
  done : ∀ t < n, s.threads t = .asleep → s.done = true → ∃ j < n, (s.threads j).wakesAll = true

theorem startSound (n : Nat) : Sound n (start (T := T)) where
  lock := by simp [start,Position.hasLock]
  knows := by simp [start]
  loud := by simp [start]
  items := by simp [start]
  done := by simp [start]

theorem oneHolder {n t t' : Nat} {s : State T} (h : Sound n s) (first : t < n) (second : t' < n)
    (has : (s.threads t).hasLock = true) (also : (s.threads t').hasLock = true) : t = t' := by
  have mine := (h.lock t).mpr ⟨first,has⟩
  have other := (h.lock t').mpr ⟨second,also⟩
  rw [mine] at other
  exact Option.some.inj other

theorem accessKnows {a b : Access T} {q : List T} {done : Bool} (knows : Knows a q done)
    (does : access a q done = .goes b) : Knows b q done ∧ b.call = a.call := by
  cases a with
  | pushLoad item => cases does; exact ⟨rfl,rfl⟩
  | waitEmpty => cases q <;> cases does <;> simp [Knows,Access.call]
  | waitDone =>
    cases done with
    | true => cases does; simp [Knows,Access.call]
    | false => cases does
  | checkEmpty =>
    cases q with
    | nil => cases does; exact ⟨⟨rfl,knows rfl⟩,rfl⟩
    | cons item q => cases does; exact ⟨List.cons_ne_nil _ _,rfl⟩
  | checkDone =>
    rw [access,knows.2] at does
    cases does
  | tryEmpty =>
    cases q with
    | nil => cases does
    | cons item q => cases does; exact ⟨List.cons_ne_nil _ _,rfl⟩
  | front c =>
    cases q with
    | nil => cases does
    | cons item q => cases does; exact ⟨rfl,rfl⟩
  | popLoad c item => cases does; exact ⟨⟨knows,rfl⟩,rfl⟩
  | pushStore item seen => cases does
  | popStore c item seen => cases does
  | setStore => cases does
  | readEmpty => cases does

theorem neverUndefined {a : Access T} {q : List T} {done : Bool} (knows : Knows a q done) :
    access a q done ≠ .undefined := by
  cases a with
  | front c =>
    cases q with
    | nil => exact absurd rfl knows
    | cons item q => simp [access]
  | waitEmpty => cases q <;> simp [access]
  | waitDone => cases done <;> simp [access]
  | checkEmpty => cases q <;> simp [access]
  | checkDone => cases done <;> simp [access]
  | tryEmpty => cases q <;> simp [access]
  | _ => simp [access]

theorem sleepsInPop {a : Access T} {q : List T} {done : Bool} (knows : Knows a q done)
    (does : access a q done = .sleeps) : a.call = .pop ∧ q = [] ∧ done = false := by
  cases a with
  | waitDone =>
    cases done with
    | true => cases does
    | false => exact ⟨rfl,knows,rfl⟩
  | waitEmpty => cases q <;> cases does
  | checkEmpty => cases q <;> cases does
  | checkDone => cases done <;> cases does
  | tryEmpty => cases q <;> cases does
  | front c => cases q <;> cases does
  | _ => cases does

inductive Ends : Call T → List T → Bool → Result T → List T → Bool → Prop
  | push {item q done} : Ends (.push item) q done .void (q ++ [item]) done
  | taken {c : Taker} {item q done} : Ends c.call (item :: q) done (.taken item) q done
  | popRefused : Ends .pop [] true .refused [] true
  | tryRefused {done} : Ends .tryPop [] done .refused [] done
  | setDone {q done} : Ends .setDone q done .void q true
  | empty {q done} : Ends .empty q done (.isEmpty q.isEmpty) q done

theorem accessEnds {a : Access T} {q q' : List T} {done done' : Bool} {r : Result T} (knows : Knows a q done)
    (does : access a q done = .leaves r q' done') : Ends a.call q done r q' done' := by
  cases a with
  | pushStore item seen =>
    have same : seen = q := knows
    cases does
    rw [same]
    exact .push
  | checkDone =>
    obtain ⟨rfl,rfl⟩ := knows
    cases does
    exact .popRefused
  | tryEmpty =>
    cases q with
    | nil => cases does; exact .tryRefused
    | cons item q => cases does
  | popStore c item seen =>
    obtain ⟨first,rfl⟩ := knows
    cases seen with
    | nil => cases first
    | cons item' rest =>
      cases first
      cases does
      exact .taken
  | setStore => cases does; exact .setDone
  | readEmpty => cases does; exact .empty
  | waitEmpty => cases q <;> cases does
  | waitDone => cases done <;> cases does
  | checkEmpty => cases q <;> cases does
  | front c => cases q <;> cases does
  | pushLoad item => cases does
  | popLoad c item => cases does

def Locks (before after : Option Nat) (t : Nat) (p p' : Position T) : Prop :=
  (after = before ∧ p'.hasLock = p.hasLock) ∨ (before = none ∧ after = some t ∧ p'.hasLock = true) ∨
    (p.hasLock = true ∧ after = none ∧ p'.hasLock = false)

theorem lockMoved {n t : Nat} {s : State T} {m : Option Nat} {p : Position T} (h : Sound n s) (inside : t < n)
    (locks : Locks s.mtx m t (s.threads t) p) (j : Nat) :
    m = some j ↔ j < n ∧ (update s.threads t p j).hasLock = true := by
  have before := h.lock j
  have own := h.lock t
  rcases eq_or_ne j t with rfl | other
  · rw [update_self]
    rcases locks with ⟨same,kept⟩ | ⟨_,taken,has⟩ | ⟨_,given,left⟩
    · rw [same,kept,before]
    · simp [taken,has,inside]
    · simp [given,left]
  · rw [update_of_ne other]
    rcases locks with ⟨same,_⟩ | ⟨free,taken,_⟩ | ⟨had,given,_⟩
    · rw [same,before]
    · rw [free] at before
      rw [taken,← before]
      simp [Ne.symm other]
    · rw [own.mpr ⟨inside,had⟩] at before
      rw [given,← before]
      simp [Ne.symm other]

theorem knowsMoved {n t : Nat} {s : State T} {p : Position T} {q : List T} {done : Bool} (h : Sound n s) (inside : t < n)
    (own : ∀ a, p = .holding a → Knows a q done) (others : (q = s.q ∧ done = s.done) ∨ (s.threads t).hasLock = true)
    (j : Nat) (there : j < n) (a : Access T) (here : update s.threads t p j = .holding a) : Knows a q done := by
  rcases eq_or_ne j t with rfl | other
  · rw [update_self] at here
    exact own a here
  · rw [update_of_ne other] at here
    rcases others with ⟨rfl,rfl⟩ | has
    · exact h.knows j there a here
    · exact absurd (oneHolder h there inside (by rw [here]; rfl) has) other

theorem loudMoved {n t : Nat} {s : State T} {p : Position T} (h : Sound n s)
    (loud : ∀ c r, p = .notifying c r → notifies c = true) (j : Nat) (inside : j < n) (c : Call T) (r : Result T)
    (here : update s.threads t p j = .notifying c r) : notifies c = true := by
  rcases eq_or_ne j t with rfl | other
  · rw [update_self] at here
    exact loud c r here
  · rw [update_of_ne other] at here
    exact h.loud j inside c r here

theorem itemsMoved {n t : Nat} {s : State T} {p : Position T} {q : List T} (h : Sound n s) (inside : t < n)
    (items : q = [] ∨ (p ≠ .asleep ∧ q.length + credit (s.threads t) ≤ s.q.length + credit p))
    (j : Nat) (sleeper : j < n) (sleeps : update s.threads t p j = .asleep) :
    q.length ≤ ∑ j ∈ range n, credit (update s.threads t p j) := by
  rcases items with rfl | ⟨awake,local'⟩
  · exact Nat.zero_le _
  · have other : j ≠ t := by
      rintro rfl
      rw [update_self] at sleeps
      exact awake sleeps
    rw [update_of_ne other] at sleeps
    have before := h.items j sleeper sleeps
    have moved := familySet inside (fun _ => credit) s.threads p
    omega

theorem doneMoved {n t : Nat} {s : State T} {p : Position T} {done : Bool} (h : Sound n s) (inside : t < n)
    (kept : done = false ∨ p.wakesAll = true ∨
      (p ≠ .asleep ∧ done = s.done ∧ (s.threads t).wakesAll = false))
    (j : Nat) (sleeper : j < n) (sleeps : update s.threads t p j = .asleep) (isDone : done = true) :
    ∃ i < n, (update s.threads t p i).wakesAll = true := by
  rcases kept with undone | wakes | ⟨awake,same,quiet⟩
  · rw [undone] at isDone
    cases isDone
  · refine ⟨t,inside,?_⟩
    rwa [update_self]
  · have other : j ≠ t := by
      rintro rfl
      rw [update_self] at sleeps
      exact awake sleeps
    rw [update_of_ne other] at sleeps
    obtain ⟨i,there,wakes⟩ := h.done j sleeper sleeps (same ▸ isDone)
    refine ⟨i,there,?_⟩
    rcases eq_or_ne i t with rfl | another
    · rw [quiet] at wakes
      cases wakes
    · rwa [update_of_ne another]

theorem endBalance {c : Call T} {q q' : List T} {done done' : Bool} {r : Result T} (ends : Ends c q done r q' done') :
    q' = [] ∨ q'.length + callCredit c ≤ q.length + credit (.unlocking c r) := by
  cases ends with
  | push => exact .inr (by simp [credit,callCredit])
  | @taken c => cases c <;> exact .inr (by simp [credit,callCredit,Taker.call])
  | popRefused => exact .inl rfl
  | tryRefused => exact .inl rfl
  | setDone => exact .inr (Nat.le_refl _)
  | empty => exact .inr (Nat.le_refl _)

theorem endDone {c : Call T} {q q' : List T} {done done' : Bool} {r : Result T} (ends : Ends c q done r q' done') :
    done' = done ∨ (Position.unlocking c r).wakesAll = true := by
  cases ends with
  | setDone => exact .inr rfl
  | _ => exact .inl rfl

theorem soundMoved {n t : Nat} {s : State T} {m : Option Nat} {p : Position T} {q : List T} {done : Bool}
    (h : Sound n s) (inside : t < n) (locks : Locks s.mtx m t (s.threads t) p)
    (own : ∀ a, p = .holding a → Knows a q done) (others : (q = s.q ∧ done = s.done) ∨ (s.threads t).hasLock = true)
    (loud : ∀ c r, p = .notifying c r → notifies c = true)
    (items : q = [] ∨ (p ≠ .asleep ∧ q.length + credit (s.threads t) ≤ s.q.length + credit p))
    (kept : done = false ∨ p.wakesAll = true ∨ (p ≠ .asleep ∧ done = s.done ∧ (s.threads t).wakesAll = false)) :
    Sound n ⟨q,done,m,update s.threads t p⟩ where
  lock := lockMoved h inside locks
  knows := knowsMoved h inside own others
  loud := loudMoved h loud
  items := itemsMoved h inside items
  done := doneMoved h inside kept

theorem soundPassed {n t : Nat} {s : State T} {m : Option Nat} {p : Position T} (h : Sound n s) (inside : t < n)
    (locks : Locks s.mtx m t (s.threads t) p) (own : ∀ a, p = .holding a → Knows a s.q s.done)
    (loud : ∀ c r, p = .notifying c r → notifies c = true) (awake : p ≠ .asleep)
    (balance : credit (s.threads t) ≤ credit p) (quiet : p.wakesAll = true ∨ (s.threads t).wakesAll = false) :
    Sound n ⟨s.q,s.done,m,update s.threads t p⟩ := by
  apply soundMoved h inside locks own (.inl ⟨rfl,rfl⟩) loud
  · exact .inr ⟨awake,Nat.add_le_add_left balance _⟩
  · rcases quiet with wakes | quiet
    · exact .inr (.inl wakes)
    · exact .inr (.inr ⟨awake,rfl,quiet⟩)

theorem notifyOneSound {n t j : Nat} {s : State T} {item : T} {r : Result T} (h : Sound n s) (inside : t < n)
    (here : s.threads t = .notifying (.push item) r) (sleeper : j < n) (sleeps : s.threads j = .asleep) :
    Sound n ((s.moved j .woken).moved t .outside) := by
  have other : t ≠ j := by
    rintro rfl
    rw [here] at sleeps
    cases sleeps
  have there : update s.threads j .woken t = .notifying (.push item) r := (update_of_ne other _ _).trans here
  have woken : Sound n (s.moved j .woken) := by
    apply soundPassed h sleeper (.inl ⟨rfl,by rw [sleeps]; rfl⟩) (fun _ same => by cases same)
      (fun _ _ same => by cases same) (by simp)
    · rw [sleeps]
      exact Nat.zero_le _
    · exact .inr (by rw [sleeps]; rfl)
  refine ⟨lockMoved woken inside (.inl ⟨rfl,?_⟩),knowsMoved woken inside (fun _ same => by cases same) (.inl ⟨rfl,rfl⟩),
    loudMoved woken (fun _ _ same => by cases same),?_,
    doneMoved woken inside (.inr (.inr ⟨by simp,rfl,?_⟩))⟩
  · show false = (update s.threads j .woken t).hasLock
    rw [there]
    rfl
  · -- the credit of the notification passes on to the thread that wakes up
    intro i last asleep
    change update (update s.threads j .woken) t .outside i = .asleep at asleep
    have before : s.threads i = .asleep := by
      have notThis : i ≠ t := by
        rintro rfl
        rw [update_self] at asleep
        cases asleep
      have notThat : i ≠ j := by
        rintro rfl
        rw [update_of_ne notThis,update_self] at asleep
        cases asleep
      rwa [update_of_ne notThis,update_of_ne notThat] at asleep
    have enough := h.items i last before
    have first := familySet sleeper (fun _ => credit) s.threads .woken
    have second := familySet inside (fun _ => credit) (update s.threads j .woken) .outside
    have whole : credit (.notifying (.push item) r) = credit (.woken (T := T)) := rfl
    have nothing : credit (.asleep (T := T)) = credit (.outside (T := T)) := rfl
    beta_reduce at first second
    rw [there,whole] at second
    rw [sleeps,nothing] at first
    change s.q.length ≤ ∑ i ∈ range n, credit (update (update s.threads j .woken) t .outside i)
    omega
  · show (update s.threads j .woken t).wakesAll = false
    rw [there]
    rfl

theorem notifyAllSound {n t : Nat} {s : State T} {r : Result T} (h : Sound n s)
    (here : s.threads t = .notifying .setDone r) :
    Sound n { s with threads := update (fun j => wake (s.threads j)) t .outside } := by
  have awake (j : Nat) : update (fun j => wake (s.threads j)) t .outside j ≠ .asleep := by
    rcases eq_or_ne j t with rfl | other
    · simp
    · rw [update_of_ne other]
      cases s.threads j <;> simp [wake]
  refine ⟨fun j => ?_,fun j inside a there => ?_,fun j inside c r' there => ?_,fun j _ sleeps => absurd sleeps (awake j),
    fun j _ sleeps => absurd sleeps (awake j)⟩
  · show s.mtx = some j ↔ j < n ∧ (update (fun j => wake (s.threads j)) t .outside j).hasLock = true
    rw [h.lock j]
    rcases eq_or_ne j t with rfl | other
    · simp [here,Position.hasLock]
    · rw [update_of_ne other]
      cases s.threads j <;> rfl
  · change update (fun j => wake (s.threads j)) t .outside j = .holding a at there
    rcases eq_or_ne j t with rfl | other
    · rw [update_self] at there
      cases there
    · rw [update_of_ne other] at there
      apply h.knows j inside a
      cases before : s.threads j <;> rw [before] at there <;> cases there
      rfl
  · change update (fun j => wake (s.threads j)) t .outside j = .notifying c r' at there
    rcases eq_or_ne j t with rfl | other
    · rw [update_self] at there
      cases there
    · rw [update_of_ne other] at there
      apply h.loud j inside c r'
      cases before : s.threads j <;> rw [before] at there <;> cases there
      rfl

theorem firstKnows (c : Call T) (q : List T) (done : Bool) : Knows c.first q done := by cases c <;> trivial

theorem firstCall (c : Call T) : c.first.call = c := by cases c <;> rfl

theorem ownKeeps {n : Nat} {s u : State T} {l} (h : Sound n s) (step : OwnStep n s l u) : Sound n u := by
  cases step with
  | @lock t c inside here free =>
    apply soundPassed h inside (.inr (.inl ⟨free,rfl,rfl⟩)) (fun a same => by cases same; exact firstKnows _ _ _)
      (fun _ _ same => by cases same) (by simp)
    · rw [here]
      exact Nat.zero_le _
    · exact .inr (by rw [here]; rfl)
  | @tryFails t inside here =>
    apply soundPassed h inside (.inl ⟨rfl,by rw [here]; rfl⟩) (fun _ same => by cases same)
      (fun _ _ same => by cases same) (by simp)
    · rw [here]
      exact Nat.le_refl _
    · exact .inr (by rw [here]; rfl)
  | @goes t a b inside here does =>
    obtain ⟨knows,same⟩ := accessKnows (h.knows t inside a here) does
    apply soundPassed h inside (.inl ⟨rfl,by rw [here]; rfl⟩) (fun _ same => by cases same; exact knows)
      (fun _ _ same => by cases same) (by simp)
    · rw [here,credit,credit,same]
    · exact .inr (by rw [here]; rfl)
  | @leaves t a r q done inside here does =>
    have ends := accessEnds (h.knows t inside a here) does
    apply soundMoved h inside (.inl ⟨rfl,by rw [here]; rfl⟩) (fun _ same => by cases same)
      (.inr (by rw [here]; rfl)) (fun _ _ same => by cases same)
    · rcases endBalance ends with none | balance
      · exact .inl none
      · exact .inr ⟨by simp,by rw [here]; exact balance⟩
    · rcases endDone ends with same | wakes
      · exact .inr (.inr ⟨by simp,same,by rw [here]; rfl⟩)
      · exact .inr (.inl wakes)
  | @wait t a inside here does =>
    obtain ⟨_,none,undone⟩ := sleepsInPop (h.knows t inside a here) does
    exact soundMoved h inside (.inr (.inr ⟨by rw [here]; rfl,rfl,rfl⟩)) (fun _ same => by cases same)
      (.inl ⟨rfl,rfl⟩) (fun _ _ same => by cases same) (.inl none) (.inl undone)
  | @relock t inside here free =>
    apply soundPassed h inside (.inr (.inl ⟨free,rfl,rfl⟩)) (fun _ same => by cases same; trivial)
      (fun _ _ same => by cases same) (by simp)
    · rw [here]
      exact Nat.le_refl _
    · exact .inr (by rw [here]; rfl)
  | @unlock t c r inside here quiet =>
    apply soundPassed h inside (.inr (.inr ⟨by rw [here]; rfl,rfl,rfl⟩)) (fun _ same => by cases same)
      (fun _ _ same => by cases same) (by simp)
    · rw [here]
      cases c <;> first | exact Nat.le_refl _ | cases quiet
    · right
      rw [here]
      cases c <;> first | rfl | cases quiet
  | @unlockFirst t c r inside here loud =>
    apply soundPassed h inside (.inr (.inr ⟨by rw [here]; rfl,rfl,rfl⟩)) (fun _ same => by cases same)
      (fun _ _ same => by cases same; exact loud) (by simp)
    · rw [here]
      cases c <;> exact Nat.le_refl _
    · rw [here]
      cases c with
      | setDone => exact .inl rfl
      | _ => exact .inr rfl
  | notifyOne inside here sleeper sleeps => exact notifyOneSound h inside here sleeper sleeps
  | @notifyNobody t item r inside here nobody =>
    refine ⟨lockMoved h inside (.inl ⟨rfl,by rw [here]; rfl⟩),
      knowsMoved h inside (fun _ same => by cases same) (.inl ⟨rfl,rfl⟩),loudMoved h (fun _ _ same => by cases same),?_,
      doneMoved h inside (.inr (.inr ⟨by simp,rfl,by rw [here]; rfl⟩))⟩
    intro j sleeper sleeps
    change update s.threads t .outside j = .asleep at sleeps
    rcases eq_or_ne j t with rfl | other
    · rw [update_self] at sleeps
      cases sleeps
    · rw [update_of_ne other] at sleeps
      exact absurd sleeps (nobody j sleeper)
  | notifyAll inside here => exact notifyAllSound h here

theorem stepKeeps {n : Nat} {s u : State T} {l} (h : Sound n s) (step : Step n s l u) : Sound n u := by
  cases step with
  | own step => exact ownKeeps h step
  | @call t c inside here =>
    apply soundPassed h inside (.inl ⟨rfl,by rw [here]; rfl⟩) (fun _ same => by cases same)
      (fun _ _ same => by cases same) (by simp)
    · rw [here]
      exact Nat.le_refl _
    · exact .inr (by rw [here]; rfl)
  | @spurious t inside here =>
    apply soundPassed h inside (.inl ⟨rfl,by rw [here]; rfl⟩) (fun _ same => by cases same)
      (fun _ _ same => by cases same) (by simp)
    · rw [here]
      exact Nat.zero_le _
    · exact .inr (by rw [here]; rfl)

theorem traceSound {n : Nat} {s : State T} {es : List (Event (Call T) (Result T))} (run : Trace (Step n) start es s) :
    Sound n s := by
  have keeps (s l u) (h : Sound n s) (step : Step (T := T) n s l u) : Sound n u := stepKeeps h step
  exact traceInvariant keeps (startSound n) run

theorem sleepThenPush : ∃ s, Trace (Step 2) (start (T := Nat))
    [.call 1 .pop,.call 0 (.push 5),.ret 0 .void,.ret 1 (.taken 5)] s := by
  have called := Trace.shown (.start (start (T := Nat))) (Step.call (n := 2) (t := 1) .pop (by decide) rfl)
  have waits := Trace.silent (.silent called (.own (.lock (t := 1) (by decide) rfl rfl)))
    (.own (.goes (t := 1) (a := .waitEmpty) (b := .waitDone) (by decide) rfl rfl))
  have asleep := Trace.silent waits (.own (.wait (t := 1) (a := .waitDone) (by decide) rfl rfl))
  have pushes := Trace.silent (.shown asleep (Step.call (t := 0) (.push 5) (by decide) rfl))
    (.own (.lock (t := 0) (by decide) rfl rfl))
  have pushed := Trace.silent (.silent pushes
    (.own (.goes (t := 0) (a := .pushLoad 5) (b := .pushStore 5 []) (by decide) rfl rfl)))
    (.own (.leaves (t := 0) (a := .pushStore 5 []) (by decide) rfl rfl))
  have woken := Trace.shown (.silent pushed (.own (.unlockFirst (t := 0) (by decide) rfl rfl)))
    (.own (.notifyOne (t := 0) (j := 1) (by decide) rfl (by decide) rfl))
  have looks := Trace.silent (.silent woken (.own (.relock (t := 1) (by decide) rfl rfl)))
    (.own (.goes (t := 1) (a := .waitEmpty) (b := .checkEmpty) (by decide) rfl rfl))
  have finds := Trace.silent (.silent looks
    (.own (.goes (t := 1) (a := .checkEmpty) (b := .front .pop) (by decide) rfl rfl)))
    (.own (.goes (t := 1) (a := .front .pop) (b := .popLoad .pop 5) (by decide) rfl rfl))
  have popped := Trace.silent (.silent finds
    (.own (.goes (t := 1) (a := .popLoad .pop 5) (b := .popStore .pop 5 [5]) (by decide) rfl rfl)))
    (.own (.leaves (t := 1) (a := .popStore .pop 5 [5]) (by decide) rfl rfl))
  exact ⟨_,Trace.shown popped (.own (.unlock (t := 1) (by decide) rfl rfl))⟩

end
end ImPir.ThreadSafeQueue
