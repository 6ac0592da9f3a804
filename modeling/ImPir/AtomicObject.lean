import Mathlib.Data.List.Basic
import Mathlib.Logic.Function.Basic

/-! Shared objects whose calls take effect at one moment between call and return. The
atomic object commits each call by a sequential specification; an implementation that
simulates it has no other traces, and each of its traces comes with a sequential history
that agrees with every thread's own calls and results. -/
namespace ImPir.AtomicObject
open Function

inductive Event (Op Res : Type) where
  | call (t : Nat) (op : Op)
  | ret (t : Nat) (r : Res)
  deriving DecidableEq, Repr

/- Runs of a labelled system, with the labels that show, oldest first. -/
inductive Trace {S E : Type} (step : S → Option E → S → Prop) : S → List E → S → Prop where
  | start (s : S) : Trace step s [] s
  | silent {s es t u} (run : Trace step s es t) (next : step t none u) : Trace step s es u
  | shown {s es t e u} (run : Trace step s es t) (next : step t (some e) u) : Trace step s (es ++ [e]) u

section
variable {S S' E : Type} {step : S → Option E → S → Prop} {step' : S' → Option E → S' → Prop}

theorem traceAppend {s t u : S} {es fs : List E} (first : Trace step s es t) (second : Trace step t fs u) :
    Trace step s (es ++ fs) u := by
  induction second with
  | start => rwa [List.append_nil]
  | silent _ next ih => exact .silent ih next
  | shown _ next ih =>
    rw [← List.append_assoc]
    exact .shown ih next

def Simulates (step : S → Option E → S → Prop) (step' : S' → Option E → S' → Prop) (R : S → S' → Prop) : Prop :=
  ∀ s l t s', R s s' → step s l t → ∃ t', Trace step' s' l.toList t' ∧ R t t'

theorem tracesIncluded {R : S → S' → Prop} (simulates : Simulates step step' R) {s t : S} {s' : S'} {es : List E}
    (first : R s s') (run : Trace step s es t) : ∃ t', Trace step' s' es t' ∧ R t t' := by
  induction run with
  | start => exact ⟨s',.start s',first⟩
  | silent _ next ih =>
    obtain ⟨t',run',related⟩ := ih
    obtain ⟨u',more,last⟩ := simulates _ none _ t' related next
    have whole := traceAppend run' more
    rw [Option.toList_none,List.append_nil] at whole
    exact ⟨u',whole,last⟩
  | shown _ next ih =>
    obtain ⟨t',run',related⟩ := ih
    obtain ⟨u',more,last⟩ := simulates _ _ _ t' related next
    exact ⟨u',traceAppend run' more,last⟩

theorem traceInvariant {inv : S → Prop} (keeps : ∀ s l t, inv s → step s l t → inv t) {s t : S} {es : List E}
    (first : inv s) (run : Trace step s es t) : inv t := by
  induction run with
  | start => exact first
  | silent _ next ih => exact keeps _ _ _ ih next
  | shown _ next ih => exact keeps _ _ _ ih next

end

inductive Client (Op Res : Type) where
  | idle
  | called (op : Op)
  | done (r : Res)
  deriving DecidableEq, Repr

structure Atomic (σ Op Res : Type) where
  state : σ
  clients : Nat → Client Op Res

section
variable {σ Op Res : Type} (applies : σ → Op → Res → σ → Prop)

inductive AtomicStep : Atomic σ Op Res → Option (Event Op Res) → Atomic σ Op Res → Prop
  | call {s t op} (idle : s.clients t = .idle) :
      AtomicStep s (some (.call t op)) { s with clients := update s.clients t (.called op) }
  | commit {s t op r after} (called : s.clients t = .called op) (does : applies s.state op r after) :
      AtomicStep s none ⟨after,update s.clients t (.done r)⟩
  | ret {s t r} (done : s.clients t = .done r) :
      AtomicStep s (some (.ret t r)) { s with clients := update s.clients t .idle }

inductive Sequential : σ → List (Nat × Op × Res) → σ → Prop where
  | start (s : σ) : Sequential s [] s
  | next {s h t op r u} {who : Nat} (before : Sequential s h t) (does : applies t op r u) :
      Sequential s (h ++ [(who,op,r)]) u

def calls (t : Nat) (es : List (Event Op Res)) : List Op :=
  es.filterMap (fun | .call t' op => if t' = t then some op else none | .ret _ _ => none)

def returns (t : Nat) (es : List (Event Op Res)) : List Res :=
  es.filterMap (fun | .ret t' r => if t' = t then some r else none | .call _ _ => none)

def pendingOp : Client Op Res → List Op
  | .called op => [op]
  | _ => []

def pendingRes : Client Op Res → List Res
  | .done r => [r]
  | _ => []

/- The history has each thread's calls in its own order, with the results it was told;
a call under way may be missing, one that is about to return is there. -/
def Agrees (h : List (Nat × Op × Res)) (es : List (Event Op Res)) (clients : Nat → Client Op Res) : Prop :=
  ∀ t, (h.filter (fun e => e.1 = t)).map (fun e => e.2.1) ++ pendingOp (clients t) = calls t es ∧
    (h.filter (fun e => e.1 = t)).map (fun e => e.2.2) = returns t es ++ pendingRes (clients t)

variable {applies}

theorem callsShown (t : Nat) (es : List (Event Op Res)) (e : Event Op Res) :
    calls t (es ++ [e]) = calls t es ++ calls t [e] := List.filterMap_append

theorem returnsShown (t : Nat) (es : List (Event Op Res)) (e : Event Op Res) :
    returns t (es ++ [e]) = returns t es ++ returns t [e] := List.filterMap_append

theorem sequentialAt {first last : σ} {h : List (Nat × Op × Res)} (run : Sequential applies first h last)
    {before after : List (Nat × Op × Res)} {who : Nat} {op : Op} {r : Res} (parts : h = before ++ (who,op,r) :: after) :
    ∃ s t, Sequential applies first before s ∧ applies s op r t := by
  induction run generalizing after with
  | start => simp at parts
  | @next h s' op' r' u who' earlier does ih =>
    rcases List.eq_nil_or_concat after with rfl | ⟨front,e,rfl⟩
    · obtain ⟨rfl,same⟩ := List.append_inj' parts rfl
      cases same
      exact ⟨s',u,earlier,does⟩
    · rw [List.concat_eq_append,← List.cons_append,← List.append_assoc] at parts
      obtain ⟨rfl,_⟩ := List.append_inj' parts rfl
      exact ih rfl

theorem atomicHistory {first : σ} {a : Atomic σ Op Res} {es : List (Event Op Res)}
    (run : Trace (AtomicStep applies) ⟨first,fun _ => .idle⟩ es a) :
    ∃ h, Sequential applies first h a.state ∧ Agrees h es a.clients := by
  induction run with
  | start => exact ⟨[],.start _,fun _ => ⟨rfl,rfl⟩⟩
  | silent _ next ih =>
    obtain ⟨h,legal,agrees⟩ := ih
    cases next with
    | @commit t op r after called does =>
      refine ⟨h ++ [(t,op,r)],.next legal does,?_⟩
      intro t'
      obtain ⟨asked,told⟩ := agrees t'
      rcases eq_or_ne t' t with rfl | other
      · rw [called] at asked told
        simp only [List.filter_append,List.map_append,update_self]
        simp only [pendingOp,pendingRes,List.append_nil] at asked told ⊢
        rw [told]
        simpa using asked
      · simp only [List.filter_append,List.map_append,update_of_ne other]
        simpa [Ne.symm other] using ⟨asked,told⟩
  | shown _ next ih =>
    obtain ⟨h,legal,agrees⟩ := ih
    refine ⟨h,?_,?_⟩
    · cases next <;> exact legal
    · intro t'
      obtain ⟨asked,told⟩ := agrees t'
      rw [callsShown,returnsShown]
      cases next with
      | @call t op idle =>
        rcases eq_or_ne t' t with rfl | other
        · rw [idle] at asked told
          simp only [update_self]
          simp only [pendingOp,pendingRes,List.append_nil] at asked told ⊢
          rw [asked,told]
          simp [calls,returns]
        · simp only [update_of_ne other]
          rw [asked,told]
          simp [calls,returns,Ne.symm other]
      | @ret t r done =>
        rcases eq_or_ne t' t with rfl | other
        · rw [done] at asked told
          simp only [update_self]
          simp only [pendingOp,pendingRes,List.append_nil] at asked told ⊢
          rw [asked,told]
          simp [calls,returns]
        · simp only [update_of_ne other]
          rw [asked,told]
          simp [calls,returns,Ne.symm other]

end
end ImPir.AtomicObject
