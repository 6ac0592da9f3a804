import ImPir.ThreadSafeQueue

/-! The calls of `ThreadSafeQueue` take effect one at a time, each between its call and its
return, as those of a queue that is first in, first out. -/
namespace ImPir.QueueLinearizable
open Function AtomicObject ThreadSafeQueue

section
variable {T : Type}

/- What a queue with a mark owes to those who call it, whatever it is made of. A `try_pop`
may be refused at any time. -/
inductive Serves : List T × Bool → Call T → Result T → List T × Bool → Prop
  | push {q done} (item : T) : Serves (q,done) (.push item) .void (q ++ [item],done)
  | pop {q done} (item : T) : Serves (item :: q,done) .pop (.taken item) (q,done)
  | popRefused : Serves ([],true) .pop .refused ([],true)
  | tryPop {q done} (item : T) : Serves (item :: q,done) .tryPop (.taken item) (q,done)
  | tryRefused {q done} : Serves (q,done) .tryPop .refused (q,done)
  | setDone {q done} : Serves (q,done) .setDone .void (q,true)
  | empty {q done} : Serves (q,done) .empty (.isEmpty q.isEmpty) (q,done)

def client : Position T → Client (Call T) (Result T)
  | .outside => .idle
  | .locking c => .called c
  | .holding a => .called a.call
  | .asleep => .called .pop
  | .woken => .called .pop
  | .unlocking _ r => .done r
  | .notifying _ r => .done r

def atomicOf (s : State T) : Atomic (List T × Bool) (Call T) (Result T) :=
  ⟨(s.q,s.done),fun t => client (s.threads t)⟩

theorem endsServe {c : Call T} {q q' : List T} {done done' : Bool} {r : Result T} (ends : Ends c q done r q' done') :
    Serves (q,done) c r (q',done') := by
  cases ends with
  | push => exact .push _
  | @taken c =>
    cases c with
    | pop => exact .pop _
    | tryPop => exact .tryPop _
  | popRefused => exact .popRefused
  | tryRefused => exact .tryRefused
  | setDone => exact .setDone
  | empty => exact .empty

theorem clientSet (threads : Nat → Position T) (t : Nat) (p : Position T) :
    (fun j => client (update threads t p j)) = update (fun j => client (threads j)) t (client p) := by
  funext j
  rcases eq_or_ne j t with rfl | other
  · rw [update_self,update_self]
  · rw [update_of_ne other,update_of_ne other]

theorem clientStays {threads : Nat → Position T} {t : Nat} {p : Position T} (same : client p = client (threads t)) :
    (fun j => client (update threads t p j)) = fun j => client (threads j) := by
  rw [clientSet,same,update_eq_self]

theorem clientWake (p : Position T) : client (wake p) = client p := by cases p <;> rfl

theorem atomicSame {s u : State T} (state : (u.q,u.done) = (s.q,s.done))
    (clients : (fun j => client (u.threads j)) = fun j => client (s.threads j)) : atomicOf u = atomicOf s := by
  unfold atomicOf
  rw [state,clients]

theorem atomicReturns {s u : State T} {t : Nat} {r : Result T} (state : (u.q,u.done) = (s.q,s.done))
    (here : client (s.threads t) = .done r)
    (clients : (fun j => client (u.threads j)) = update (fun j => client (s.threads j)) t .idle) :
    Trace (AtomicStep Serves) (atomicOf s) [.ret t r] (atomicOf u) := by
  have last : atomicOf u = { atomicOf s with clients := update (atomicOf s).clients t .idle } := by
    unfold atomicOf
    rw [state,clients]
  rw [last]
  exact .shown (.start _) (.ret here)

/- A method commits with its last access. Each step is a step of the atomic queue, or none,
or for a `try_pop` that finds the lock taken a commit and a return. -/
theorem queueSimulates (n : Nat) :
    Simulates (Step (T := T) n) (AtomicStep Serves) (fun s a => Sound n s ∧ a = atomicOf s) := by
  rintro s l u a ⟨h,rfl⟩ step
  refine ⟨atomicOf u,?_,stepKeeps h step,rfl⟩
  have silent {u : State T} (same : atomicOf u = atomicOf s) :
      Trace (AtomicStep Serves) (atomicOf s) [] (atomicOf u) := by
    rw [same]
    exact .start _
  cases step with
  | @call t c inside here =>
    have called : (atomicOf s).clients t = .idle := congrArg client here
    have last : atomicOf (s.moved t (.locking c)) =
        { atomicOf s with clients := update (atomicOf s).clients t (.called c) } :=
      congrArg (Atomic.mk (s.q,s.done)) (clientSet _ _ _)
    rw [last]
    exact .shown (.start _) (.call called)
  | spurious inside here => exact silent (atomicSame rfl (clientStays (by rw [here]; rfl)))
  | own step =>
    cases step with
    | @lock t c inside here free =>
      have same : client (.holding c.first) = client (s.threads t) := by rw [here,client,client,firstCall]
      exact silent (atomicSame rfl (clientStays same))
    | @tryFails t inside here =>
      have called : (atomicOf s).clients t = .called .tryPop := congrArg client here
      have committed : AtomicStep Serves (atomicOf s) none
          ⟨(s.q,s.done),update (atomicOf s).clients t (.done .refused)⟩ := .commit called .tryRefused
      have last : atomicOf (s.moved t .outside) =
          ⟨(s.q,s.done),update (update (atomicOf s).clients t (.done .refused)) t .idle⟩ := by
        rw [update_idem]
        exact congrArg (Atomic.mk (s.q,s.done)) (clientSet _ _ _)
      rw [last]
      exact .shown (.silent (.start _) committed) (.ret (update_self _ _ _))
    | @goes t a b inside here does =>
      have same : client (.holding b) = client (s.threads t) := by
        rw [here,client,client,(accessKnows (h.knows t inside a here) does).2]
      exact silent (atomicSame rfl (clientStays same))
    | @leaves t a r q done inside here does =>
      have called : (atomicOf s).clients t = .called a.call := congrArg client here
      have last : atomicOf { s.moved t (.unlocking a.call r) with q := q,done := done } =
          ⟨(q,done),update (atomicOf s).clients t (.done r)⟩ := congrArg (Atomic.mk (q,done)) (clientSet _ _ _)
      have serves := endsServe (accessEnds (h.knows t inside a here) does)
      rw [last]
      exact .silent (.start _) (.commit called serves)
    | @wait t a inside here does =>
      have same : client .asleep = client (s.threads t) := by
        rw [here,client,client,(sleepsInPop (h.knows t inside a here) does).1]
      exact silent (atomicSame rfl (clientStays same))
    | relock inside here free => exact silent (atomicSame rfl (clientStays (by rw [here]; rfl)))
    | unlock inside here quiet => exact atomicReturns rfl (by rw [here]; rfl) (clientSet _ _ _)
    | unlockFirst inside here loud => exact silent (atomicSame rfl (clientStays (by rw [here]; rfl)))
    | notifyOne inside here sleeper sleeps =>
      refine atomicReturns rfl (by rw [here]; rfl) ?_
      have woken : (fun i => client ((s.moved _ .woken).threads i)) = fun i => client (s.threads i) :=
        clientStays (by rw [sleeps]; rfl)
      rw [← woken]
      exact clientSet _ _ _
    | notifyNobody inside here nobody => exact atomicReturns rfl (by rw [here]; rfl) (clientSet _ _ _)
    | notifyAll inside here =>
      refine atomicReturns rfl (by rw [here]; rfl) ?_
      have awake : (fun j => client (wake (s.threads j))) = fun j => client (s.threads j) :=
        funext fun j => clientWake (s.threads j)
      rw [← awake]
      exact clientSet _ _ _

def itemsIn (h : List (Nat × Call T × Result T)) : List T :=
  h.filterMap (fun e => match e.2.1 with | .push item => some item | _ => none)

def itemsOut (h : List (Nat × Call T × Result T)) : List T :=
  h.filterMap (fun e => match e.2.2 with | .taken item => some item | _ => none)

theorem itemsInNext (h : List (Nat × Call T × Result T)) (e) : itemsIn (h ++ [e]) = itemsIn h ++ itemsIn [e] :=
  List.filterMap_append

theorem itemsOutNext (h : List (Nat × Call T × Result T)) (e) : itemsOut (h ++ [e]) = itemsOut h ++ itemsOut [e] :=
  List.filterMap_append

theorem historyItems {h : List (Nat × Call T × Result T)} {last : List T × Bool}
    (legal : Sequential Serves ([],false) h last) : itemsIn h = itemsOut h ++ last.1 := by
  induction legal with
  | start => rfl
  | next _ does ih =>
    rw [itemsInNext,itemsOutNext,ih]
    cases does <;> simp [itemsIn,itemsOut]

theorem doneAsked {h : List (Nat × Call T × Result T)} {last : List T × Bool}
    (legal : Sequential Serves ([],false) h last) (done : last.2 = true) : ∃ t, (t,.setDone,.void) ∈ h := by
  induction legal with
  | start => cases done
  | @next h s op r _ who _ does ih =>
    have earlier (before : s.2 = true) : ∃ t, (t,.setDone,.void) ∈ h ++ [(who,op,r)] := by
      obtain ⟨t,asked⟩ := ih before
      exact ⟨t,List.mem_append_left _ asked⟩
    cases does with
    | setDone => exact ⟨who,List.mem_append_right _ (List.mem_singleton_self _)⟩
    | _ => exact earlier done

theorem refusedPop {q : List T} {done : Bool} {u : List T × Bool} (does : Serves (q,done) .pop .refused u) :
    q = [] ∧ done = true := by
  cases does
  exact ⟨rfl,rfl⟩

/- The calls take effect one at a time, each between its call and its return, and what they
return is that of a queue: items leave in the order in which they came, none twice and none
lost, and `pop` is refused only after a `set_done` and with every earlier item taken. At
most one thread has the lock, and none takes the front of an empty queue. -/
theorem queueLinearizable {n : Nat} {s : State T} {es : List (Event (Call T) (Result T))}
    (run : Trace (Step n) start es s) :
    Trace (AtomicStep Serves) (atomicOf start) es (atomicOf s) ∧
    (∃ h, Sequential Serves ([],false) h (s.q,s.done) ∧ Agrees h es (fun t => client (s.threads t)) ∧
      itemsIn h = itemsOut h ++ s.q ∧
      ∀ before t after, h = before ++ (t,.pop,.refused) :: after →
        itemsIn before = itemsOut before ∧ ∃ t', (t',.setDone,.void) ∈ before) ∧
    (∀ t < n, ∀ t' < n, (s.threads t).hasLock = true → (s.threads t').hasLock = true → t = t') ∧
    ∀ t < n, ∀ a, s.threads t = .holding a → access a s.q s.done ≠ .undefined := by
  obtain ⟨a,atomic,sound,rfl⟩ := tracesIncluded (queueSimulates n) ⟨startSound n,rfl⟩ run
  obtain ⟨h,legal,agrees⟩ := atomicHistory atomic
  refine ⟨atomic,⟨h,legal,agrees,historyItems legal,?_⟩,fun _ first _ second => oneHolder sound first second,
    fun t inside a here => neverUndefined (sound.knows t inside a here)⟩
  intro before t after parts
  obtain ⟨⟨q,done⟩,u,legalBefore,does⟩ := sequentialAt legal parts
  obtain ⟨rfl,rfl⟩ := refusedPop does
  have items := historyItems legalBefore
  rw [List.append_nil] at items
  exact ⟨items,doneAsked legalBefore rfl⟩

theorem queueLinearizableWoken : ∃ (s : State Nat) (h : List (Nat × Call Nat × Result Nat)),
    Agrees h [.call 1 .pop,.call 0 (.push 5),.ret 0 .void,.ret 1 (.taken 5)] (fun t => client (s.threads t)) ∧
    itemsIn h = itemsOut h ++ s.q := by
  obtain ⟨s,run⟩ := sleepThenPush
  obtain ⟨_,⟨h,_,agrees,items,_⟩,_⟩ := queueLinearizable run
  exact ⟨s,h,agrees,items⟩

end
end ImPir.QueueLinearizable
