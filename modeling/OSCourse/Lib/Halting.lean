import OSCourse.Lib.Run

/-!
# Systems whose runs end

* `Halts R s` — every run from `s` comes to an end, whatever steps are taken: the relation is
  accessible at `s`.
* `Halts.of_rank` — steps that keep an invariant and lower a rank.
* `not_halts_of_loop` — a step back to the same state.
* `Halts.run` — the end of a run is a place from which all runs end.
* `Halts.exists_final` — some run ends in a state without a step.
-/

set_option autoImplicit false

namespace Transition

variable {S A : Type*} {R : S → A → S → Prop} {s t : S} {h : List A}

/-- Every run from `s` comes to an end. -/
def Halts (R : S → A → S → Prop) (s : S) : Prop := Acc (fun t s => ∃ a, R s a t) s

/-- No step is possible in `s`. -/
def Final (R : S → A → S → Prop) (s : S) : Prop := ∀ a t, ¬R s a t

theorem Halts.step {a : A} (hs : Halts R s) (hst : R s a t) : Halts R t :=
  Acc.inv hs ⟨a, hst⟩

theorem Halts.run (hs : Halts R s) (hr : Run R s h t) : Halts R t :=
  hr.invariant (P := Halts R) hs fun _ _ _ hs hst => hs.step hst

/-- A system with fewer steps halts as well. -/
theorem Halts.mono {R' : S → A → S → Prop} (hsub : ∀ s a t, R' s a t → R s a t) (hs : Halts R s) :
    Halts R' s := by
  induction hs with
  | intro s _ ih =>
    constructor
    rintro t ⟨a, hst⟩
    exact ih t ⟨a, hsub s a t hst⟩

/-- Steps that keep an invariant and lower a rank. -/
theorem Halts.of_rank {P : S → Prop} (rank : S → Nat)
    (hstep : ∀ s a t, P s → R s a t → P t ∧ rank t < rank s) (hs : P s) : Halts R s := by
  induction hn : rank s using Nat.strong_induction_on generalizing s with
  | _ n ih =>
    constructor
    rintro t ⟨a, hst⟩
    obtain ⟨ht, hlt⟩ := hstep s a t hs hst
    exact ih (rank t) (hn ▸ hlt) ht rfl

/-- A step back to the same state can be taken for ever. -/
theorem not_halts_of_loop {a : A} (hloop : R s a s) : ¬Halts R s := by
  intro hs
  induction hs with
  | intro s _ ih => exact ih s ⟨a, hloop⟩ hloop

/-- A system that halts has a run to a state without a step. -/
theorem Halts.exists_final (hs : Halts R s) : ∃ h t, Run R s h t ∧ Final R t := by
  induction hs with
  | intro s _ ih =>
    by_cases hfin : Final R s
    · exact ⟨[], s, .nil, hfin⟩
    · simp only [Final, not_forall, not_not] at hfin
      obtain ⟨a, t, hst⟩ := hfin
      obtain ⟨h, u, hr, hu⟩ := ih t ⟨a, hst⟩
      exact ⟨h ++ [a], u, (Run.nil.step hst).trans hr, hu⟩

end Transition
