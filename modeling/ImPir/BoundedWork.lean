import Mathlib.Data.Nat.Init
import Mathlib.Logic.Relation

/-! Systems that wait by polling. Some steps are idle; the others do work, and a measure
that work lowers and idling leaves alone bounds how much work there is. If idling always
leads on to work until the system has ended, every state can reach an end. -/
namespace ImPir.BoundedWork
open Relation (ReflTransGen)

section
variable {σ : Type} (step idle : σ → σ → Prop)

/- A run that takes `n` steps of work and any number of idle ones. -/
inductive Worked : Nat → σ → σ → Prop where
  | done (s : σ) : Worked 0 s s
  | idle {n s t u} (run : Worked n s t) (next : step t u) (idles : idle t u) : Worked n s u
  | work {n s t u} (run : Worked n s t) (next : step t u) (works : ¬ idle t u) : Worked (n+1) s u

def Idles (s t : σ) : Prop := step s t ∧ idle s t

structure Measured (inv : σ → Prop) (measure : σ → Nat) : Prop where
  keeps : ∀ s t, inv s → step s t → inv t
  waits : ∀ s t, inv s → step s t → idle s t → measure t ≤ measure s
  lowers : ∀ s t, inv s → step s t → ¬ idle s t → measure t < measure s

variable {step idle} {inv : σ → Prop} {measure : σ → Nat}

theorem runKeeps (h : Measured step idle inv measure) {s t : σ} (here : inv s) (run : ReflTransGen step s t) :
    inv t := by
  induction run with
  | refl => exact here
  | tail _ next ih => exact h.keeps _ _ ih next

theorem idlesKeep (h : Measured step idle inv measure) {s t : σ} (here : inv s)
    (run : ReflTransGen (Idles step idle) s t) : inv t ∧ ReflTransGen step s t ∧ measure t ≤ measure s := by
  induction run with
  | refl => exact ⟨here,.refl,Nat.le_refl _⟩
  | tail _ next ih =>
    obtain ⟨there,steps,below⟩ := ih
    exact ⟨h.keeps _ _ there next.1,steps.tail next.1,Nat.le_trans (h.waits _ _ there next.1 next.2) below⟩

theorem workedBound (h : Measured step idle inv measure) {n : Nat} {s t : σ} (here : inv s)
    (run : Worked step idle n s t) : inv t ∧ n + measure t ≤ measure s := by
  induction run with
  | done => exact ⟨here,by omega⟩
  | idle _ next idles ih =>
    obtain ⟨there,bound⟩ := ih here
    have below := h.waits _ _ there next idles
    exact ⟨h.keeps _ _ there next,by omega⟩
  | work _ next works ih =>
    obtain ⟨there,bound⟩ := ih here
    have below := h.lowers _ _ there next works
    exact ⟨h.keeps _ _ there next,by omega⟩

theorem endInReach (h : Measured step idle inv measure) {ended : σ → Prop}
    (onward : ∀ s, inv s → ¬ ended s → ∃ t u, ReflTransGen (Idles step idle) s t ∧ step t u ∧ ¬ idle t u)
    {s : σ} (here : inv s) : ∃ t, ReflTransGen step s t ∧ ended t := by
  induction m : measure s using Nat.strong_induction_on generalizing s with
  | _ m ih =>
    by_cases last : ended s
    · exact ⟨s,.refl,last⟩
    · obtain ⟨t,u,idles,next,works⟩ := onward s here last
      obtain ⟨there,steps,below⟩ := idlesKeep h here idles
      have lower := h.lowers t u there next works
      obtain ⟨e,rest,last⟩ := ih (measure u) (by omega) (h.keeps t u there next) rfl
      exact ⟨e,(steps.tail next).trans rest,last⟩

/- A system of more detail, whose steps are those of the first as far as it is seen. -/
structure Detailed {ρ : Type} (step : σ → σ → Prop) (detail : ρ → ρ → Prop) (seen : ρ → σ) : Prop where
  shows : ∀ w w', detail w w' → step (seen w) (seen w')
  follows : ∀ w s, step (seen w) s → ∃ w', detail w w' ∧ seen w' = s

section
variable {ρ : Type} {detail : ρ → ρ → Prop} {seen : ρ → σ}

theorem detailedRun (h : Detailed step detail seen) {w : ρ} {s : σ} (run : ReflTransGen step (seen w) s) :
    ∃ w', ReflTransGen detail w w' ∧ seen w' = s := by
  induction run with
  | refl => exact ⟨w,.refl,rfl⟩
  | tail _ next ih =>
    obtain ⟨w',run,rfl⟩ := ih
    obtain ⟨last,step,same⟩ := h.follows w' _ next
    exact ⟨last,run.tail step,same⟩

theorem detailedWork (h : Detailed step detail seen) {n : Nat} {w w' : ρ}
    (run : Worked detail (fun x y => idle (seen x) (seen y)) n w w') : Worked step idle n (seen w) (seen w') := by
  induction run with
  | done => exact .done _
  | idle _ next idles ih => exact .idle ih (h.shows _ _ next) idles
  | work _ next works ih => exact .work ih (h.shows _ _ next) works

theorem detailedShows (h : Detailed step detail seen) {w w' : ρ} (run : ReflTransGen detail w w') :
    ReflTransGen step (seen w) (seen w') := run.lift seen h.shows

end

end
end ImPir.BoundedWork
