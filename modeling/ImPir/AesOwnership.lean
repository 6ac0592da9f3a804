import ImPir.AesContext
import ImPir.Ownership

/-! The objects of class `AES` as they own OpenSSL contexts by pointer, over whole runs of
constructions, moves, key changes and destructions. No context is freed twice or used after
it was freed; the objects behave as the values of `AesContext` do. -/
namespace ImPir.AesOwnership
open Function Blocks Ownership
open AesContext (Context Answers Update OpenSsl oneBlock oneBlockOk)

abbrev Ptr := Nat
abbrev Name := Nat

abbrev Heap := Ptr → Option Context

/- What `EVP_CIPHER_CTX_new` returns: null, or a pointer to memory that is not in use. -/
structure Allocator where
  answer : Heap → Option Ptr
  unused : ∀ h p, answer h = some p → h p = none

structure Calls where
  newEncrypt : Allocator
  newDecrypt : Allocator
  encryptInit : Bool
  decryptInit : Bool

structure AES where
  encryptCtx : Option Ptr
  decryptCtx : Option Ptr
  initialized : Bool
  key : Block
  deriving DecidableEq, Repr

/- Every function returns `none` where it touches memory that is not allocated. -/
def evpCipherCtxFree (p : Ptr) (h : Heap) : Option Heap :=
  match h p with
  | none => none
  | some _ => some (update h p none)

def evpCipherCtxNew (a : Allocator) (h : Heap) : Option Ptr × Heap :=
  match a.answer h with
  | none => (none,h)
  | some p => (some p,update h p (some none))

def evpInit (succeeds : Bool) (p : Ptr) (key : Block) (h : Heap) : Option Heap :=
  match h p with
  | none => none
  | some _ => if succeeds then some (update h p (some (some key))) else some h

def freeUnlessNull (p : Option Ptr) (h : Heap) : Option Heap :=
  match p with
  | none => some h
  | some p => evpCipherCtxFree p h

def released (a : AES) : AES := { a with encryptCtx := none,decryptCtx := none,initialized := false }

def cleanupContexts (a : AES) (h : Heap) : Option (AES × Heap) := do
  let h ← freeUnlessNull a.encryptCtx h
  let h ← freeUnlessNull a.decryptCtx h
  some (released a,h)

def initContexts (o : Calls) (a : AES) (h : Heap) : Option (Except String Unit × AES × Heap) := do
  let (a,h) ← cleanupContexts a h
  let (encryptCtx,h) := evpCipherCtxNew o.newEncrypt h
  let (decryptCtx,h) := evpCipherCtxNew o.newDecrypt h
  let a := { a with encryptCtx := encryptCtx,decryptCtx := decryptCtx }
  match encryptCtx,decryptCtx with
  | some e,some d =>
    let h ← evpInit o.encryptInit e a.key h
    if o.encryptInit = false then
      let (a,h) ← cleanupContexts a h
      some (.error "Failed to initialize encryption context",a,h)
    else
      let h ← evpInit o.decryptInit d a.key h
      if o.decryptInit = false then
        let (a,h) ← cleanupContexts a h
        some (.error "Failed to initialize decryption context",a,h)
      else some (.ok (),{ a with initialized := true },h)
  | _,_ => some (.error "Failed to create EVP contexts",a,h)

def setKey (o : Calls) (keyBlock : Block) (a : AES) (h : Heap) : Option (Except String Unit × AES × Heap) :=
  initContexts o { a with key := keyBlock } h

def AES.held (a : AES) : List Ptr := a.encryptCtx.toList ++ a.decryptCtx.toList

def unkeyed : AES := ⟨none,none,false,ZeroBlock⟩

/- The objects of the program by name, and the contexts that constructors which threw have
left behind: no destructor runs for them. -/
structure World where
  heap : Heap
  objects : Name → Option AES
  lost : List Ptr

inductive Op (C : Type) where
  | construct (x : Name) (key : Block) (o : C)
  | destroy (x : Name)
  | moveConstruct (x y : Name)
  | moveAssign (x y : Name)
  | setKey (x : Name) (key : Block) (o : C)

/- What the language demands: the objects used exist, those constructed do not yet. -/
def Allowed (w : World) : Op Calls → Prop
  | .construct x _ _ => w.objects x = none
  | .destroy x => w.objects x ≠ none
  | .moveConstruct x y => w.objects x = none ∧ w.objects y ≠ none
  | .moveAssign x y => w.objects x ≠ none ∧ w.objects y ≠ none
  | .setKey x _ _ => w.objects x ≠ none

def exec (w : World) : Op Calls → Option (Except String Unit × World)
  | .construct x key o => do
    let (r,a,heap) ← setKey o key unkeyed w.heap
    match r with
    | .ok () => some (.ok (),{ w with heap := heap,objects := update w.objects x (some a) })
    | .error e => some (.error e,{ w with heap := heap,lost := w.lost ++ a.held })
  | .destroy x => do
    let a ← w.objects x
    let (_,heap) ← cleanupContexts a w.heap
    some (.ok (),{ w with heap := heap,objects := update w.objects x none })
  | .moveConstruct x y => do
    let other ← w.objects y
    some (.ok (),{ w with objects := update (update w.objects x (some other)) y (some (released other)) })
  | .moveAssign x y => do
    let a ← w.objects x
    let other ← w.objects y
    if x = y then some (.ok (),w)
    else
      let (_,heap) ← cleanupContexts a w.heap
      some (.ok (),{ w with heap := heap,objects := update (update w.objects x (some other)) y (some (released other)) })
  | .setKey x key o => do
    let a ← w.objects x
    let (r,a,heap) ← setKey o key a w.heap
    some (r,{ w with heap := heap,objects := update w.objects x (some a) })

def start : World := ⟨fun _ => none,fun _ => none,[]⟩

def heldOf (o : Option AES) : List Ptr := (o.map AES.held).getD []

def freed (held : List Ptr) (h : Heap) : Heap := fun p => if p ∈ held then none else h p

def answersOf (o : Calls) (h : Heap) : Answers :=
  let (encryptCtx,h) := evpCipherCtxNew o.newEncrypt h
  let (decryptCtx,_) := evpCipherCtxNew o.newDecrypt h
  ⟨encryptCtx.isSome,decryptCtx.isSome,o.encryptInit,o.decryptInit⟩

/- The operation with the answers it gets in this world, the object's contexts freed first. -/
def answeredOp (w : World) : Op Calls → Op Answers
  | .construct x key o => .construct x key (answersOf o w.heap)
  | .destroy x => .destroy x
  | .moveConstruct x y => .moveConstruct x y
  | .moveAssign x y => .moveAssign x y
  | .setKey x key o => .setKey x key (answersOf o (freed (heldOf (w.objects x)) w.heap))

structure Event where
  op : Op Calls
  answered : Op Answers
  outcome : Except String Unit

inductive Run : List Event → World → Prop where
  | start : Run [] start
  | step {h w w' op r} (before : Run h w) (allowed : Allowed w op) (runs : exec w op = some (r,w')) :
      Run (h ++ [⟨op,answeredOp w op,r⟩]) w'

def view (h : Heap) (a : AES) : AesContext.AES := ⟨a.encryptCtx.bind h,a.decryptCtx.bind h,a.initialized,a.key⟩

abbrev Values := Name → Option AesContext.AES

def valueExec (v : Values) : Op Answers → Except String Unit × Values
  | .construct x key o =>
    match AesContext.setKey o key AesContext.unkeyed with
    | (.ok (),a) => (.ok (),update v x (some a))
    | (.error e,_) => (.error e,v)
  | .destroy x => (.ok (),update v x none)
  | .moveConstruct x y => (.ok (),update (update v x (v y)) y ((v y).map AesContext.released))
  | .moveAssign x y =>
    (.ok (),if x = y then v else update (update v x (v y)) y ((v y).map AesContext.released))
  | .setKey x key o =>
    match v x with
    | none => (.ok (),v)
    | some a => ((AesContext.setKey o key a).1,update v x (some (AesContext.setKey o key a).2))

def worldValues (w : World) : Values := fun x => (w.objects x).map (view w.heap)

inductive ValueRun : List (Op Answers × Except String Unit) → Values → Prop where
  | start : ValueRun [] (fun _ => none)
  | step {h v} (op : Op Answers) (before : ValueRun h v) :
      ValueRun (h ++ [(op,(valueExec v op).1)]) (valueExec v op).2

def encryptECB (evpEncryptUpdate : Update) (a : AES) (h : Heap) (plaintext : Block) : Option (Except String Block) :=
  if a.initialized = false then some (.error "AES context not initialized")
  else do
    let ctx ← h (← a.encryptCtx)
    some (oneBlock "Encryption failed" (evpEncryptUpdate (some ctx) 16 [plaintext] [ZeroBlock]))

def decryptECB (evpDecryptUpdate : Update) (a : AES) (h : Heap) (ciphertext : Block) : Option (Except String Block) :=
  if a.initialized = false then some (.error "AES context not initialized")
  else do
    let ctx ← h (← a.decryptCtx)
    some (oneBlock "Decryption failed" (evpDecryptUpdate (some ctx) 16 [ciphertext] [ZeroBlock]))

structure Sound (a : AES) (h : Heap) : Prop where
  distinct : a.held.Nodup
  live : ∀ p ∈ a.held, h p ≠ none

def live (h : Heap) (p : Ptr) : Prop := h p ≠ none

structure Changed (a a' : AES) (h h' : Heap) : Prop where
  exchange : Exchange a.held a'.held (live h) (live h')
  others : ∀ p, p ∉ a.held → p ∉ a'.held → h' p = h p

theorem heldEncrypt {a : AES} {p : Ptr} (here : a.encryptCtx = some p) : p ∈ a.held := by
  simp [AES.held,here]

theorem heldDecrypt {a : AES} {p : Ptr} (here : a.decryptCtx = some p) : p ∈ a.held := by
  simp [AES.held,here]

theorem heldCases {a : AES} {p : Ptr} (held : p ∈ a.held) : a.encryptCtx = some p ∨ a.decryptCtx = some p := by
  simpa [AES.held] using held

theorem heldReleased (a : AES) : (released a).held = [] := rfl

theorem cleanupFrees {a : AES} {h : Heap} (sound : Sound a h) :
    cleanupContexts a h = some (released a,freed a.held h) := by
  obtain ⟨encrypt,decrypt,initialized,key⟩ := a
  have live (p : Ptr) (held : encrypt = some p ∨ decrypt = some p) : ∃ c, h p = some c := by
    apply Option.ne_none_iff_exists'.mp
    apply sound.live p
    rcases held with rfl | rfl
    · exact heldEncrypt rfl
    · exact heldDecrypt rfl
  have result {a : AES} (h' : Heap) (cleans : cleanupContexts a h = some (released a,h'))
      (cleaned : ∀ p, h' p = freed a.held h p) : cleanupContexts a h = some (released a,freed a.held h) := by
    rw [cleans,funext cleaned]
  cases encrypt with
  | none =>
    cases decrypt with
    | none => exact result h rfl (by simp [freed,AES.held])
    | some d =>
      obtain ⟨c,there⟩ := live d (.inr rfl)
      exact result (update h d none) (by simp [cleanupContexts,freeUnlessNull,evpCipherCtxFree,there])
        (fun p => by simp [freed,AES.held,update_apply])
  | some e =>
    obtain ⟨c,there⟩ := live e (.inl rfl)
    cases decrypt with
    | none =>
      exact result (update h e none) (by simp [cleanupContexts,freeUnlessNull,evpCipherCtxFree,there])
        (fun p => by simp [freed,AES.held,update_apply])
    | some d =>
      have distinct := sound.distinct
      have apart : d ≠ e := by
        rintro rfl
        simp [AES.held] at distinct
      obtain ⟨c',there'⟩ := live d (.inr rfl)
      apply result (update (update h e none) d none)
      · simp [cleanupContexts,freeUnlessNull,evpCipherCtxFree,there,there',update_of_ne apart]
      · intro p
        by_cases first : p = d <;> by_cases second : p = e <;> simp [freed,AES.held,update_apply,first,second]

theorem changedFrom {a a' : AES} {h h' : Heap} (sound : Sound a' h') (unused : ∀ p ∈ a'.held, freed a.held h p = none)
    (others : ∀ p, p ∉ a'.held → h' p = freed a.held h p) : Changed a a' h h' := by
  have same (p : Ptr) (before : p ∉ a.held) (after : p ∉ a'.held) : h' p = h p := by
    rw [others p after,freed,if_neg before]
  refine ⟨⟨sound.distinct,?_,sound.live,?_,?_⟩,same⟩
  · intro p held
    have free := unused p held
    rw [freed] at free
    by_cases before : p ∈ a.held
    · exact .inl before
    · rw [if_neg before] at free
      exact .inr (not_not_intro free)
  · intro p before held
    exact not_not_intro (by rw [others p held,freed,if_pos before])
  · intro p before after
    rw [live,live,same p before after]

theorem newCases (o : Allocator) (h : Heap) :
    evpCipherCtxNew o h = (none,h) ∨
      ∃ p, h p = none ∧ evpCipherCtxNew o h = (some p,update h p (some none)) := by
  unfold evpCipherCtxNew
  cases answer : o.answer h with
  | none => exact .inl rfl
  | some p => exact .inr ⟨p,o.unused h p answer,rfl⟩

theorem releasedSound (a : AES) (h : Heap) : Sound (released a) h := ⟨by simp [heldReleased],by simp [heldReleased]⟩

theorem halfSound {p : Ptr} {h : Heap} {c : Context} {a : AES} (held : a.held = [p]) :
    Sound a (update h p (some c)) := by
  refine ⟨by simp [held],?_⟩
  intro q inside
  rw [held,List.mem_singleton] at inside
  simp [inside]

theorem initRuns {p : Ptr} {h : Heap} (succeeds : Bool) (key : Block) (live : h p ≠ none) :
    evpInit succeeds p key h = some (if succeeds then update h p (some (some key)) else h) := by
  obtain ⟨c,there⟩ := Option.ne_none_iff_exists'.mp live
  rw [evpInit,there]
  cases succeeds <;> rfl

theorem createdThenFreed {a : AES} {h₁ h₂ : Heap} {e d : Ptr} (held : a.held = [e,d]) (apart : d ≠ e)
    (freeE : h₁ e = none) (freeD : h₁ d = none) (live : h₂ e ≠ none ∧ h₂ d ≠ none)
    (others : ∀ p, p ≠ e → p ≠ d → h₂ p = h₁ p) : cleanupContexts a h₂ = some (released a,h₁) := by
  have sound : Sound a h₂ := by
    refine ⟨by simp [held,Ne.symm apart],?_⟩
    intro p inside
    rw [held] at inside
    rcases List.mem_pair.mp inside with rfl | rfl
    · exact live.1
    · exact live.2
  have same : freed a.held h₂ = h₁ := by
    funext p
    rw [freed,held]
    by_cases first : p = e
    · simp [first,freeE]
    · by_cases second : p = d
      · simp [second,freeD]
      · simp [first,second,others p first second]
  rw [cleanupFrees sound,same]

structure KeySet (o : Calls) (key : Block) (a : AES) (h : Heap) (r : Except String Unit) (a' : AES) (h' : Heap)
    (o' : Answers) : Prop where
  runs : setKey o key a h = some (r,a',h')
  changed : Changed a a' h h'
  value : AesContext.setKey o' key (view h a) = (r,view h' a')
  left : r ≠ .ok () → a'.held.length = if o'.newEncrypt = o'.newDecrypt then 0 else 1
  whole : r = .ok () → o'.newEncrypt = o'.newDecrypt

theorem setKeyRuns {a : AES} {h : Heap} (sound : Sound a h) (o : Calls) (key : Block) :
    ∃ r a' h', KeySet o key a h r a' h' (answersOf o (freed a.held h)) := by
  have cleans := cleanupFrees (a := { a with key := key }) ⟨sound.distinct,sound.live⟩
  change cleanupContexts { a with key := key } h = some (released { a with key := key },freed a.held h) at cleans
  have start : setKey o key a h = initContexts o { a with key := key } h := rfl
  rw [initContexts,cleans] at start
  simp only [Option.bind_eq_bind,Option.bind_some] at start
  rcases newCases o.newEncrypt (freed a.held h) with noEncrypt | ⟨e,freeE,newEncrypt⟩
  · rcases newCases o.newDecrypt (freed a.held h) with noDecrypt | ⟨d,freeD,newDecrypt⟩
    · simp only [noEncrypt,noDecrypt] at start
      have answered : answersOf o (freed a.held h) = ⟨false,false,o.encryptInit,o.decryptInit⟩ := by
        simp [answersOf,noEncrypt,noDecrypt]
      rw [answered]
      refine ⟨_,_,_,start,?_,rfl,fun _ => rfl,fun _ => rfl⟩
      exact changedFrom (releasedSound _ _) (by simp [AES.held]) (fun _ _ => rfl)
    · simp only [noEncrypt,newDecrypt] at start
      have answered : answersOf o (freed a.held h) = ⟨false,true,o.encryptInit,o.decryptInit⟩ := by
        simp [answersOf,noEncrypt,newDecrypt]
      rw [answered]
      refine ⟨_,_,_,start,?_,?_,fun _ => rfl,?_⟩
      · exact changedFrom (halfSound rfl) (fun p inside => by rwa [List.mem_singleton.mp inside])
          (by simp +contextual [AES.held])
      · simp [AesContext.setKey,AesContext.initContexts,AesContext.cleanupContexts,view,released]
      · intro ok
        cases ok
  · rcases newCases o.newDecrypt (update (freed a.held h) e (some none)) with noDecrypt | ⟨d,freeD,newDecrypt⟩
    · simp only [newEncrypt,noDecrypt] at start
      have answered : answersOf o (freed a.held h) = ⟨true,false,o.encryptInit,o.decryptInit⟩ := by
        simp [answersOf,newEncrypt,noDecrypt]
      rw [answered]
      refine ⟨_,_,_,start,?_,?_,fun _ => rfl,?_⟩
      · exact changedFrom (halfSound rfl) (fun p inside => by rwa [List.mem_singleton.mp inside])
          (by simp +contextual [AES.held])
      · simp [AesContext.setKey,AesContext.initContexts,AesContext.cleanupContexts,view,released]
      · intro ok
        cases ok
    · have answered : answersOf o (freed a.held h) = ⟨true,true,o.encryptInit,o.decryptInit⟩ := by
        simp [answersOf,newEncrypt,newDecrypt]
      rw [answered]
      have apart : d ≠ e := by
        rintro rfl
        simp at freeD
      rw [update_of_ne apart] at freeD
      have fresh : update (update (freed a.held h) e (some none)) d (some none) e ≠ none := by
        simp [update_of_ne (Ne.symm apart)]
      simp only [newEncrypt,newDecrypt,initRuns o.encryptInit _ fresh,Option.bind_some] at start
      cases encryptInit : o.encryptInit with
      | false =>
        simp only [encryptInit,if_true,Bool.false_eq_true,if_false] at start
        rw [createdThenFreed rfl apart freeE freeD ⟨fresh,by simp⟩
          (fun p first second => by rw [update_of_ne second,update_of_ne first])] at start
        refine ⟨_,_,_,start,?_,?_,fun _ => rfl,fun _ => rfl⟩
        · exact changedFrom (releasedSound _ _) (by simp [heldReleased]) (fun _ _ => rfl)
        · simp [AesContext.setKey,AesContext.initContexts,AesContext.cleanupContexts,view,released]
      | true =>
        have live (c : Context) :
            update (update (update (freed a.held h) e (some none)) d (some none)) e (some c) d ≠ none := by
          simp [update_of_ne apart]
        simp only [encryptInit,if_true,Bool.true_eq_false,if_false,initRuns o.decryptInit _ (live _),
          Option.bind_some] at start
        cases decryptInit : o.decryptInit with
        | false =>
          simp only [decryptInit,if_true,Bool.false_eq_true,if_false] at start
          rw [createdThenFreed rfl apart freeE freeD ⟨by simp,live _⟩
            (fun p first second => by rw [update_of_ne first,update_of_ne second,update_of_ne first])] at start
          refine ⟨_,_,_,start,?_,?_,fun _ => rfl,fun _ => rfl⟩
          · exact changedFrom (releasedSound _ _) (by simp [heldReleased]) (fun _ _ => rfl)
          · simp [AesContext.setKey,AesContext.initContexts,AesContext.cleanupContexts,view,released]
        | true =>
          simp only [decryptInit,if_true,Bool.true_eq_false,if_false] at start
          refine ⟨_,_,_,start,?_,?_,?_,fun _ => rfl⟩
          · apply changedFrom
            · refine ⟨by simp [AES.held,Ne.symm apart],?_⟩
              intro p inside
              rcases List.mem_pair.mp inside with rfl | rfl
              · simp [update_of_ne (Ne.symm apart)]
              · simp
            · intro p inside
              rcases List.mem_pair.mp inside with rfl | rfl
              · exact freeE
              · exact freeD
            · intro p outside
              obtain ⟨first,second⟩ := not_or.mp (fun inside => outside (List.mem_pair.mpr inside))
              rw [update_of_ne second,update_of_ne first,update_of_ne second,update_of_ne first]
          · simp [AesContext.setKey,AesContext.initContexts,AesContext.cleanupContexts,view,released,
              update_of_ne (Ne.symm apart)]
          · intro failed
            exact absurd rfl failed

theorem cleanupChanges {a : AES} {h : Heap} (sound : Sound a h) :
    ∃ h', cleanupContexts a h = some (released a,h') ∧ Changed a (released a) h h' :=
  ⟨_,cleanupFrees sound,changedFrom (releasedSound a _) (by simp [heldReleased]) (fun _ _ => rfl)⟩

def heldBy (w : World) : Option Name → List Ptr
  | none => w.lost
  | some x => heldOf (w.objects x)

def Keyed (a : AesContext.AES) : Prop :=
  a.initialized = true → a.encryptCtx = some (some a.key) ∧ a.decryptCtx = some (some a.key)

structure Good (w : World) : Prop where
  owned : Owned (heldBy w) (live w.heap)
  keyed : ∀ x a, w.objects x = some a → Keyed (view w.heap a)

theorem startGood : Good AesOwnership.start where
  owned := by
    have nothing : heldBy AesOwnership.start = fun _ => [] := by
      funext s
      cases s <;> rfl
    have dead : live AesOwnership.start.heap = fun _ => False := by
      funext p
      exact eq_false (not_not_intro rfl)
    rw [nothing,dead]
    exact ownedNothing
  keyed := fun _ _ here => by cases here

theorem objectSound {w : World} (good : Good w) {x : Name} {a : AES} (here : w.objects x = some a) :
    Sound a w.heap := by
  have held : heldBy w (some x) = a.held := by rw [heldBy,here]; rfl
  refine ⟨held ▸ good.owned.distinct (some x),?_⟩
  intro p inside
  exact (good.owned.covers p).mpr ⟨some x,held ▸ inside⟩

theorem heldUpdated (w : World) (heap : Heap) (x : Name) (o : Option AES) :
    heldBy { w with heap := heap,objects := update w.objects x o } = update (heldBy w) (some x) (heldOf o) := by
  funext s
  cases s with
  | none => rfl
  | some y =>
    show heldOf (update w.objects x o y) = update (heldBy w) (some x) (heldOf o) (some y)
    rcases eq_or_ne y x with rfl | other
    · rw [update_self,update_self]
    · rw [update_of_ne other,update_of_ne (fun is => other (Option.some.inj is))]
      rfl

theorem viewSame {a : AES} {h h' : Heap} (same : ∀ p ∈ a.held, h' p = h p) : view h' a = view h a := by
  have point (o : Option Ptr) (inside : ∀ p, o = some p → p ∈ a.held) : o.bind h' = o.bind h := by
    cases o with
    | none => rfl
    | some p => exact same p (inside p rfl)
  simp only [view]
  rw [point a.encryptCtx (fun _ => heldEncrypt),point a.decryptCtx (fun _ => heldDecrypt)]

theorem othersSame {w : World} (good : Good w) {s : Option Name} {l : List Ptr} {heap : Heap}
    (exchange : Exchange (heldBy w s) l (live w.heap) (live heap))
    (others : ∀ p, p ∉ heldBy w s → p ∉ l → heap p = w.heap p)
    {y : Name} {b : AES} (other : some y ≠ s) (here : w.objects y = some b) : view heap b = view w.heap b := by
  apply viewSame
  intro p inside
  have held : p ∈ heldBy w (some y) := by
    rw [heldBy,here]
    exact inside
  obtain ⟨before,after⟩ := exchangeApart good.owned exchange other held
  exact others p before after

theorem objectChanged {w : World} (good : Good w) {x : Name} {a a' : AES} {heap : Heap}
    (place : heldBy w (some x) = a.held) (changed : Changed a a' w.heap heap) (keyed : Keyed (view heap a')) :
    Good { w with heap := heap,objects := update w.objects x (some a') } ∧
    worldValues { w with heap := heap,objects := update w.objects x (some a') } =
      update (worldValues w) x (some (view heap a')) := by
  have exchange : Exchange (heldBy w (some x)) a'.held (live w.heap) (live heap) := place ▸ changed.exchange
  have others : ∀ p, p ∉ heldBy w (some x) → p ∉ a'.held → heap p = w.heap p := place ▸ changed.others
  have same {y : Name} {b : AES} (other : y ≠ x) (here : w.objects y = some b) : view heap b = view w.heap b :=
    othersSame good exchange others (fun is => other (Option.some.inj is)) here
  refine ⟨⟨?_,?_⟩,?_⟩
  · rw [heldUpdated]
    exact ownedExchange good.owned exchange
  · intro y b here
    change update w.objects x (some a') y = some b at here
    rcases eq_or_ne y x with rfl | other
    · rw [update_self] at here
      cases here
      exact keyed
    · rw [update_of_ne other] at here
      show Keyed (view heap b)
      rw [same other here]
      exact good.keyed y b here
  · funext y
    show (update w.objects x (some a') y).map (view heap) = _
    rcases eq_or_ne y x with rfl | other
    · rw [update_self,update_self]
      rfl
    · rw [update_of_ne other,update_of_ne other]
      cases here : w.objects y with
      | none => simp [worldValues,here]
      | some b => simp [worldValues,here,same other here]

theorem objectLost {w : World} (good : Good w) {a' : AES} {heap : Heap}
    (changed : Changed unkeyed a' w.heap heap) :
    Good { w with heap := heap,lost := w.lost ++ a'.held } ∧
    worldValues { w with heap := heap,lost := w.lost ++ a'.held } = worldValues w := by
  have unused : ∀ p ∈ a'.held, w.heap p = none := by
    intro p inside
    rcases changed.exchange.taken p inside with before | dead
    · cases before
    · exact not_not.mp dead
  have notLost : ∀ p ∈ w.lost, live w.heap p := fun p inside => (good.owned.covers p).mpr ⟨none,inside⟩
  have exchange : Exchange (heldBy w none) (w.lost ++ a'.held) (live w.heap) (live heap) := by
    have fresh : ∀ p ∈ w.lost, p ∉ a'.held := fun p inside after => notLost p inside (unused p after)
    refine ⟨?_,?_,?_,?_,?_⟩
    · exact List.Nodup.append (good.owned.distinct none) changed.exchange.distinct fresh
    · intro p inside
      rcases List.mem_append.mp inside with old | new
      · exact .inl old
      · exact .inr (not_not_intro (unused p new))
    · intro p inside
      rcases List.mem_append.mp inside with old | new
      · have same := changed.others p (by simp [unkeyed,AES.held]) (fresh p old)
        rw [live,same]
        exact notLost p old
      · exact changed.exchange.lives p new
    · exact fun p old gone => absurd (List.mem_append_left _ old) gone
    · intro p _ gone
      exact changed.exchange.others p (by simp [unkeyed,AES.held]) (fun new => gone (List.mem_append_right _ new))
  have others : ∀ p, p ∉ heldBy w none → p ∉ w.lost ++ a'.held → heap p = w.heap p := fun p _ gone =>
    changed.others p (by simp [unkeyed,AES.held]) (fun new => gone (List.mem_append_right _ new))
  have same {y : Name} {b : AES} (here : w.objects y = some b) : view heap b = view w.heap b :=
    othersSame good exchange others (by simp) here
  have slots : heldBy { w with heap := heap,lost := w.lost ++ a'.held } =
      update (heldBy w) none (w.lost ++ a'.held) := by
    funext s
    cases s with
    | none => rw [update_self]; rfl
    | some y => rw [update_of_ne (by simp)]; rfl
  refine ⟨⟨slots ▸ ownedExchange good.owned exchange,?_⟩,?_⟩
  · intro y b here
    show Keyed (view heap b)
    rw [same here]
    exact good.keyed y b here
  · funext y
    show (w.objects y).map (view heap) = (w.objects y).map (view w.heap)
    cases here : w.objects y with
    | none => rfl
    | some b => rw [Option.map_some,Option.map_some,same here]

theorem objectMoved {w : World} (good : Good w) {x y : Name} {b : AES} (apart : x ≠ y)
    (empty : heldBy w (some x) = []) (here : w.objects y = some b) :
    Good { w with objects := update (update w.objects x (some b)) y (some (released b)) } ∧
    worldValues { w with objects := update (update w.objects x (some b)) y (some (released b)) } =
      update (update (worldValues w) x (worldValues w y)) y ((worldValues w y).map AesContext.released) := by
  refine ⟨⟨?_,?_⟩,?_⟩
  · have slots := heldUpdated { w with objects := update w.objects x (some b) } w.heap y (some (released b))
    rw [heldUpdated w w.heap x (some b)] at slots
    have held : heldOf (some b) = heldBy w (some y) := by rw [heldBy,here]
    rw [held] at slots
    exact slots ▸ ownedPassed good.owned empty
  · intro z c there
    change update (update w.objects x (some b)) y (some (released b)) z = some c at there
    show Keyed (view w.heap c)
    rcases eq_or_ne z y with rfl | notY
    · rw [update_self] at there
      cases there
      intro ready
      cases ready
    · rw [update_of_ne notY] at there
      rcases eq_or_ne z x with rfl | notX
      · rw [update_self] at there
        cases there
        exact good.keyed y _ here
      · rw [update_of_ne notX] at there
        exact good.keyed z c there
  · funext z
    have value : worldValues w y = some (view w.heap b) := by simp [worldValues,here]
    show (update (update w.objects x (some b)) y (some (released b)) z).map (view w.heap) = _
    rcases eq_or_ne z y with rfl | notY
    · rw [update_self,update_self,value]
      rfl
    · rw [update_of_ne notY,update_of_ne notY]
      rcases eq_or_ne z x with rfl | notX
      · rw [update_self,update_self,value]
        rfl
      · rw [update_of_ne notX,update_of_ne notX]
        rfl

theorem objectGone {w : World} (good : Good w) {x : Name} (empty : heldBy w (some x) = []) :
    Good { w with objects := update w.objects x none } ∧
    worldValues { w with objects := update w.objects x none } = update (worldValues w) x none := by
  refine ⟨⟨?_,?_⟩,?_⟩
  · have slots := heldUpdated w w.heap x none
    have same : update (heldBy w) (some x) (heldOf none) = heldBy w := by
      show update (heldBy w) (some x) [] = heldBy w
      rw [← empty,update_eq_self]
    rw [same] at slots
    exact slots ▸ good.owned
  · intro y b here
    change update w.objects x none y = some b at here
    rcases eq_or_ne y x with rfl | other
    · rw [update_self] at here
      cases here
    · rw [update_of_ne other] at here
      exact good.keyed y b here
  · funext y
    show (update w.objects x none y).map (view w.heap) = _
    rcases eq_or_ne y x with rfl | other
    · rw [update_self,update_self]
      rfl
    · rw [update_of_ne other,update_of_ne other]
      rfl

theorem setKeyKeyed (o : Answers) (key : Block) (a : AesContext.AES) : Keyed (AesContext.setKey o key a).2 := by
  obtain ⟨newEncrypt,newDecrypt,encryptInit,decryptInit⟩ := o
  intro ready
  cases newEncrypt <;> cases newDecrypt <;> cases encryptInit <;> cases decryptInit <;>
    first | exact ⟨rfl,rfl⟩ | cases ready

def halfCreated : Op Answers → Bool
  | .construct _ _ o => o.newEncrypt != o.newDecrypt
  | _ => false

structure Refined (w : World) (op : Op Calls) (r : Except String Unit) (w' : World) : Prop where
  runs : exec w op = some (r,w')
  good : Good w'
  value : valueExec (worldValues w) (answeredOp w op) = (r,worldValues w')
  lost : w'.lost.length = w.lost.length + if halfCreated (answeredOp w op) then 1 else 0

theorem freedNothing (h : Heap) : freed [] h = h := by
  funext p
  simp [freed]

theorem constructRefined {w : World} (good : Good w) {x : Name} (key : Block) (o : Calls) (new : w.objects x = none) :
    ∃ r w', Refined w (.construct x key o) r w' := by
  have place : heldBy w (some x) = unkeyed.held := by rw [heldBy,new]; rfl
  obtain ⟨r,a',heap,spec⟩ := setKeyRuns (a := unkeyed) (h := w.heap)
    ⟨by simp [unkeyed,AES.held],by simp [unkeyed,AES.held]⟩ o key
  rw [show unkeyed.held = [] from rfl,freedNothing] at spec
  have value : AesContext.setKey (answersOf o w.heap) key AesContext.unkeyed = (r,view heap a') := spec.value
  have keyed : Keyed (view heap a') := by
    have keeps := setKeyKeyed (answersOf o w.heap) key AesContext.unkeyed
    rwa [value] at keeps
  cases r with
  | ok u =>
    obtain ⟨good',values⟩ := objectChanged good place spec.changed keyed
    refine ⟨_,_,by simp only [exec,spec.runs,Option.bind_eq_bind,Option.bind_some]; rfl,good',?_,?_⟩
    · rw [values]
      simp only [answeredOp,valueExec,value]
    · simp [answeredOp,halfCreated,spec.whole rfl]
  | error e =>
    obtain ⟨good',values⟩ := objectLost good spec.changed
    refine ⟨_,_,by simp only [exec,spec.runs,Option.bind_eq_bind,Option.bind_some]; rfl,good',?_,?_⟩
    · rw [values]
      simp only [answeredOp,valueExec,value]
    · have left := spec.left (by simp)
      simp only [List.length_append,left,answeredOp,halfCreated]
      by_cases half : (answersOf o w.heap).newEncrypt = (answersOf o w.heap).newDecrypt <;> simp [half]

theorem setKeyRefined {w : World} (good : Good w) {x : Name} {a : AES} (key : Block) (o : Calls)
    (here : w.objects x = some a) : ∃ r w', Refined w (.setKey x key o) r w' := by
  have held : heldOf (w.objects x) = a.held := by rw [here]; rfl
  obtain ⟨r,a',heap,spec⟩ := setKeyRuns (objectSound good here) o key
  have keyed : Keyed (view heap a') := by
    have keeps := setKeyKeyed (answersOf o (freed a.held w.heap)) key (view w.heap a)
    rwa [spec.value] at keeps
  obtain ⟨good',values⟩ := objectChanged good held spec.changed keyed
  refine ⟨r,_,by simp only [exec,here,spec.runs,Option.bind_eq_bind,Option.bind_some],good',?_,rfl⟩
  have value : worldValues w x = some (view w.heap a) := by simp [worldValues,here]
  rw [values]
  simp only [answeredOp,held,valueExec,value,spec.value]

theorem objectCleaned {w : World} (good : Good w) {x : Name} {a : AES} (here : w.objects x = some a) :
    ∃ heap, cleanupContexts a w.heap = some (released a,heap) ∧
      Good { w with heap := heap,objects := update w.objects x (some (released a)) } ∧
      worldValues { w with heap := heap,objects := update w.objects x (some (released a)) } =
        update (worldValues w) x (some (view heap (released a))) := by
  have place : heldBy w (some x) = a.held := by rw [heldBy,here]; rfl
  obtain ⟨heap,cleans,changed⟩ := cleanupChanges (objectSound good here)
  refine ⟨heap,cleans,objectChanged good place changed ?_⟩
  intro ready
  cases ready

theorem destroyRefined {w : World} (good : Good w) {x : Name} {a : AES} (here : w.objects x = some a) :
    ∃ r w', Refined w (.destroy x) r w' := by
  obtain ⟨heap,cleans,cleaned,cleanValues⟩ := objectCleaned good here
  obtain ⟨good',values⟩ := objectGone (x := x) cleaned (by simp [heldBy,heldOf,released,AES.held])
  simp only [update_idem] at good' values
  refine ⟨.ok (),_,by simp only [exec,here,cleans,Option.bind_eq_bind,Option.bind_some],good',?_,rfl⟩
  rw [values,cleanValues,update_idem]
  rfl

theorem moveConstructRefined {w : World} (good : Good w) {x y : Name} {b : AES} (new : w.objects x = none)
    (here : w.objects y = some b) : ∃ r w', Refined w (.moveConstruct x y) r w' := by
  have apart : x ≠ y := by
    rintro rfl
    rw [new] at here
    cases here
  obtain ⟨good',values⟩ := objectMoved good apart (by rw [heldBy,new]; rfl) here
  refine ⟨.ok (),_,by simp only [exec,here,Option.bind_eq_bind,Option.bind_some],good',?_,rfl⟩
  rw [values]
  rfl

theorem moveAssignRefined {w : World} (good : Good w) {x y : Name} {a b : AES} (target : w.objects x = some a)
    (source : w.objects y = some b) : ∃ r w', Refined w (.moveAssign x y) r w' := by
  rcases eq_or_ne x y with rfl | apart
  · refine ⟨.ok (),w,?_,good,?_,rfl⟩
    · simp only [exec,target,Option.bind_eq_bind,Option.bind_some,if_true]
    · simp only [answeredOp,valueExec,if_true]
  · obtain ⟨heap,cleans,cleaned,cleanValues⟩ := objectCleaned good target
    have still : update w.objects x (some (released a)) y = some b := by rw [update_of_ne (Ne.symm apart),source]
    obtain ⟨good',values⟩ := objectMoved (x := x) cleaned apart (by simp [heldBy,heldOf,released,AES.held]) still
    simp only [update_idem] at good' values
    refine ⟨.ok (),_,
      by simp only [exec,target,source,cleans,Option.bind_eq_bind,Option.bind_some,if_neg apart],good',?_,rfl⟩
    rw [values,cleanValues,update_idem,update_of_ne (Ne.symm apart)]
    simp only [answeredOp,valueExec,if_neg apart]

theorem execRefined {w : World} (good : Good w) {op : Op Calls} (allowed : Allowed w op) :
    ∃ r w', Refined w op r w' := by
  cases op with
  | construct x key o => exact constructRefined good key o allowed
  | destroy x =>
    obtain ⟨a,here⟩ := Option.ne_none_iff_exists'.mp allowed
    exact destroyRefined good here
  | moveConstruct x y =>
    obtain ⟨b,here⟩ := Option.ne_none_iff_exists'.mp allowed.2
    exact moveConstructRefined good allowed.1 here
  | moveAssign x y =>
    obtain ⟨a,target⟩ := Option.ne_none_iff_exists'.mp allowed.1
    obtain ⟨b,source⟩ := Option.ne_none_iff_exists'.mp allowed.2
    exact moveAssignRefined good target source
  | setKey x key o =>
    obtain ⟨a,here⟩ := Option.ne_none_iff_exists'.mp allowed
    exact setKeyRefined good key o here

theorem runGood {hist : List Event} {w : World} (run : Run hist w) :
    Good w ∧ ValueRun (hist.map (fun e => (e.answered,e.outcome))) (worldValues w) ∧
      w.lost.length = hist.countP (fun e => halfCreated e.answered) := by
  induction run with
  | start => exact ⟨startGood,.start,rfl⟩
  | @step hist w w' op r before allowed runs ih =>
    obtain ⟨good,values,lost⟩ := ih
    obtain ⟨r',u,refined⟩ := execRefined good allowed
    rw [refined.runs] at runs
    cases runs
    refine ⟨refined.good,?_,?_⟩
    · have next := ValueRun.step (answeredOp w op) values
      rw [refined.value] at next
      rwa [List.map_append]
    · rw [List.countP_append,refined.lost,lost]
      simp [List.countP_cons]

/- Whatever the program does with its objects, no context is freed twice or used after it
was freed: every operation that the language allows runs, each live context belongs to one
object or was lost in a constructor that threw, and an object encrypts and decrypts under
its own key, or says that it cannot. -/
theorem contextsOwned {hist : List Event} {w : World} (run : Run hist w) :
    (∀ op, Allowed w op → ∃ r w', exec w op = some (r,w')) ∧
    (∀ p, w.heap p ≠ none ↔ p ∈ w.lost ∨ ∃ x a, w.objects x = some a ∧ p ∈ a.held) ∧
    (∀ x y a b p, w.objects x = some a → w.objects y = some b → p ∈ a.held → p ∈ b.held → x = y) ∧
    ∀ x a, w.objects x = some a →
      (∀ evpEncryptUpdate m, encryptECB evpEncryptUpdate a w.heap m = some (if a.initialized then
          oneBlock "Encryption failed" (evpEncryptUpdate (some (some a.key)) 16 [m] [ZeroBlock])
        else .error "AES context not initialized")) ∧
      (∀ evpDecryptUpdate m, decryptECB evpDecryptUpdate a w.heap m = some (if a.initialized then
          oneBlock "Decryption failed" (evpDecryptUpdate (some (some a.key)) 16 [m] [ZeroBlock])
        else .error "AES context not initialized")) ∧
      ∀ (aes : OpenSsl) m, a.initialized = true →
        encryptECB aes.evpEncryptUpdate a w.heap m = some (.ok (aes a.key m)) := by
  have good := (runGood run).1
  refine ⟨?_,?_,?_,?_⟩
  · intro op allowed
    obtain ⟨r,w',refined⟩ := execRefined good allowed
    exact ⟨r,w',refined.runs⟩
  · intro p
    refine (good.owned.covers p).trans ⟨?_,?_⟩
    · rintro ⟨s,inside⟩
      cases s with
      | none => exact .inl inside
      | some x =>
        cases here : w.objects x with
        | none =>
          rw [heldBy,here] at inside
          cases inside
        | some a =>
          rw [heldBy,here] at inside
          exact .inr ⟨x,a,here,inside⟩
    · rintro (lost | ⟨x,a,here,inside⟩)
      · exact ⟨none,lost⟩
      · exact ⟨some x,by rw [heldBy,here]; exact inside⟩
  · intro x y a b p first second inA inB
    have heldA : p ∈ heldBy w (some x) := by rw [heldBy,first]; exact inA
    have heldB : p ∈ heldBy w (some y) := by rw [heldBy,second]; exact inB
    exact Option.some.inj (good.owned.apart _ _ p heldA heldB)
  · intro x a here
    cases ready : a.initialized with
    | false => simp [encryptECB,decryptECB,ready]
    | true =>
      obtain ⟨encrypt,decrypt⟩ := good.keyed x a here ready
      obtain ⟨e,pointsE,contextE⟩ := Option.bind_eq_some_iff.mp encrypt
      obtain ⟨d,pointsD,contextD⟩ := Option.bind_eq_some_iff.mp decrypt
      change a.encryptCtx = some e at pointsE
      change a.decryptCtx = some d at pointsD
      change w.heap e = some (some a.key) at contextE
      change w.heap d = some (some a.key) at contextD
      refine ⟨?_,?_,?_⟩
      · simp [encryptECB,ready,pointsE,contextE]
      · simp [decryptECB,ready,pointsD,contextD]
      · simp [encryptECB,ready,pointsE,contextE,oneBlockOk]

/- The pointers do not show: the objects go through the same operations with the same
outcomes as values, each with its own contexts, and a context is lost exactly where the
allocator gave a constructor one of its two. -/
theorem worldRefines {hist : List Event} {w : World} (run : Run hist w) :
    ValueRun (hist.map (fun e => (e.answered,e.outcome))) (worldValues w) ∧
      w.lost.length = hist.countP (fun e => halfCreated e.answered) := (runGood run).2

def only (p : Ptr) : Allocator := ⟨fun h => if h p = none then some p else none,by
  intro h q same
  by_cases free : h p = none
  · rw [if_pos free] at same
    cases same
    exact free
  · rw [if_neg free] at same
    cases same⟩

def never : Allocator := ⟨fun _ => none,fun _ _ same => by cases same⟩

theorem movedRun : ∃ hist w, Run hist w ∧ w.objects 0 = none ∧ w.objects 1 = some ⟨some 7,some 8,true,ZeroBlock⟩ ∧
    w.lost = [9] ∧ hist.countP (fun e => halfCreated e.answered) = 1 := by
  have made : Run _ _ := @Run.step _ _ _ (.construct 0 ZeroBlock ⟨only 7,only 8,true,true⟩) _ .start rfl rfl
  have moved : Run _ _ := @Run.step _ _ _ (.moveConstruct 1 0) _ made ⟨rfl,Option.some_ne_none _⟩ rfl
  have gone : Run _ _ := @Run.step _ _ _ (.destroy 0) _ moved (Option.some_ne_none _) rfl
  have lost : Run _ _ := @Run.step _ _ _ (.construct 2 ZeroBlock ⟨only 9,never,true,true⟩) _ gone rfl rfl
  exact ⟨_,_,lost,rfl,rfl,rfl,rfl⟩

theorem contextsOwnedMoved : ∃ w : World, w.objects 0 = none ∧ w.heap 7 ≠ none ∧ w.heap 8 ≠ none ∧ w.heap 9 ≠ none ∧
    ∀ update m, encryptECB update ⟨some 7,some 8,true,ZeroBlock⟩ w.heap m =
      some (oneBlock "Encryption failed" (update (some (some ZeroBlock)) 16 [m] [ZeroBlock])) := by
  obtain ⟨hist,w,run,gone,here,lost,_⟩ := movedRun
  obtain ⟨_,live,_,uses⟩ := contextsOwned run
  exact ⟨w,gone,(live 7).mpr (.inr ⟨1,_,here,by decide⟩),(live 8).mpr (.inr ⟨1,_,here,by decide⟩),
    (live 9).mpr (.inl (by rw [lost]; decide)),fun update m => (uses 1 _ here).1 update m⟩

theorem worldRefinesMoved : ∃ (w : World) (hist : List Event), Run hist w ∧
    ValueRun (hist.map (fun e => (e.answered,e.outcome))) (worldValues w) ∧
    w.objects 1 = some ⟨some 7,some 8,true,ZeroBlock⟩ ∧ w.lost.length = 1 := by
  obtain ⟨hist,w,run,_,here,_,once⟩ := movedRun
  obtain ⟨values,lost⟩ := worldRefines run
  exact ⟨w,hist,run,values,here,lost.trans once⟩

end ImPir.AesOwnership
