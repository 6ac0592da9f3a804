import Mathlib.Logic.Equiv.Basic
import Mathlib.Data.List.Nodup

/-! Resources that slots hold. Every live resource is held once, by one slot, and what is
held is live. A call on one slot keeps this if it takes only what nobody uses and frees
what it drops; so does passing everything from one slot to another. -/
namespace ImPir.Ownership
open Function

section
variable {S P : Type} [DecidableEq S] {held : S → List P} {live live' : P → Prop}

structure Owned (held : S → List P) (live : P → Prop) : Prop where
  distinct : ∀ s, (held s).Nodup
  apart : ∀ s t p, p ∈ held s → p ∈ held t → s = t
  covers : ∀ p, live p ↔ ∃ s, p ∈ held s

omit [DecidableEq S] in
theorem ownedNothing : Owned (fun _ : S => ([] : List P)) (fun _ => False) where
  distinct := fun _ => List.nodup_nil
  apart := fun _ _ _ inside => by cases inside
  covers := by simp

/- What a call on a slot may do to it and to the resources. -/
structure Exchange (before after : List P) (live live' : P → Prop) : Prop where
  distinct : after.Nodup
  taken : ∀ p ∈ after, p ∈ before ∨ ¬ live p
  lives : ∀ p ∈ after, live' p
  freed : ∀ p ∈ before, p ∉ after → ¬ live' p
  others : ∀ p, p ∉ before → p ∉ after → (live' p ↔ live p)

omit [DecidableEq S] in
/- The other slots do not notice. -/
theorem exchangeApart (owned : Owned held live) {s t : S} {l : List P} (exchange : Exchange (held s) l live live')
    (other : t ≠ s) {p : P} (inside : p ∈ held t) : p ∉ held s ∧ p ∉ l := by
  have notBefore : p ∉ held s := fun before => other (owned.apart t s p inside before)
  refine ⟨notBefore,fun after => ?_⟩
  rcases exchange.taken p after with before | dead
  · exact notBefore before
  · exact dead ((owned.covers p).mpr ⟨t,inside⟩)

theorem ownedExchange (owned : Owned held live) {s : S} {l : List P} (exchange : Exchange (held s) l live live') :
    Owned (update held s l) live' where
  distinct := by
    intro t
    rcases eq_or_ne t s with rfl | other
    · rw [update_self]
      exact exchange.distinct
    · rw [update_of_ne other]
      exact owned.distinct t
  apart := by
    intro t u p first second
    rcases eq_or_ne t s with rfl | notT
    · rcases eq_or_ne u t with rfl | notU
      · rfl
      · rw [update_self] at first
        rw [update_of_ne notU] at second
        exact absurd first (exchangeApart owned exchange notU second).2
    · rw [update_of_ne notT] at first
      rcases eq_or_ne u s with rfl | notU
      · rw [update_self] at second
        exact absurd second (exchangeApart owned exchange notT first).2
      · rw [update_of_ne notU] at second
        exact owned.apart t u p first second
  covers := by
    intro p
    constructor
    · intro alive
      by_cases after : p ∈ l
      · exact ⟨s,by rwa [update_self]⟩
      · have notBefore : p ∉ held s := fun before => exchange.freed p before after alive
        obtain ⟨t,inside⟩ := (owned.covers p).mp ((exchange.others p notBefore after).mp alive)
        have other : t ≠ s := by
          rintro rfl
          exact notBefore inside
        exact ⟨t,by rwa [update_of_ne other]⟩
    · rintro ⟨t,inside⟩
      rcases eq_or_ne t s with rfl | other
      · rw [update_self] at inside
        exact exchange.lives p inside
      · rw [update_of_ne other] at inside
        obtain ⟨notBefore,notAfter⟩ := exchangeApart owned exchange other inside
        exact (exchange.others p notBefore notAfter).mpr ((owned.covers p).mpr ⟨t,inside⟩)

/- A slot that holds nothing gets all that another one held. -/
theorem ownedPassed (owned : Owned held live) {s t : S} (empty : held s = []) :
    Owned (update (update held s (held t)) t []) live := by
  rcases eq_or_ne s t with rfl | other
  · rw [update_idem,← empty,update_eq_self]
    exact owned
  have swapped : update (update held s (held t)) t [] = held ∘ Equiv.swap s t := by
    funext u
    rcases eq_or_ne u t with rfl | notT
    · rw [update_self,comp_apply,Equiv.swap_apply_right,empty]
    · rw [update_of_ne notT]
      rcases eq_or_ne u s with rfl | notS
      · rw [update_self,comp_apply,Equiv.swap_apply_left]
      · rw [update_of_ne notS,comp_apply,Equiv.swap_apply_of_ne_of_ne notS notT]
  rw [swapped]
  refine ⟨fun u => owned.distinct _,?_,?_⟩
  · intro u v p first second
    exact (Equiv.swap s t).injective (owned.apart _ _ p first second)
  · intro p
    rw [owned.covers]
    exact ((Equiv.swap s t).surjective.exists (p := fun u => p ∈ held u))

end
end ImPir.Ownership
