import Mathlib

/-!
# Runs of a labelled transition system

A transition system is a relation `R s a s'` between a state, an action and the next state.
A run is recorded by its history, the list of its actions with the **latest first**, so that a
function on histories that asks for "the last action such that …" is a plain recursion.

* `Run R s₀ h s` — the actions `h` lead from `s₀` to `s`.
* `Run.invariant` — what one step preserves, a whole run preserves.
* `Run.invariantOn` — the same for the steps of a kind, in a run of such steps.
* `Run.historyInvariant`, `Run.historyInvariantOn` — the same for a relation between the history
  and the state.
* `Run.length_add_rank_le` — steps that lower a rank bound the length of a run.
* `Run.exists_done` — runs that are bounded and go on until they are done do get done.
* `Run.always_iff` — over a system in which a state is determined by its history: if a step
  keeps `P` exactly when it meets `Q`, then `P` holds at every point of a run iff all its steps
  meet `Q`.
* `Run.exec`, `Run.execOn` — what a step function does with a history.
* `Reachable` — some run from an initial state ends here.
-/

set_option autoImplicit false

namespace Transition

variable {S A : Type*}

/-- The actions `h`, latest first, lead from `s₀` to `s`. -/
inductive Run (R : S → A → S → Prop) (s₀ : S) : List A → S → Prop
  | nil : Run R s₀ [] s₀
  | step {h : List A} {s s' : S} {a : A} : Run R s₀ h s → R s a s' → Run R s₀ (a :: h) s'

/-- Some run from an initial state ends in `s`. -/
def Reachable (R : S → A → S → Prop) (I : S → Prop) (s : S) : Prop :=
  ∃ s₀ h, I s₀ ∧ Run R s₀ h s

namespace Run

variable {R : S → A → S → Prop} {s₀ s s' : S} {h h' : List A} {a : A}

theorem historyInvariant {P : List A → S → Prop} (h0 : P [] s₀)
    (hstep : ∀ h s a s', P h s → R s a s' → P (a :: h) s') (hr : Run R s₀ h s) : P h s := by
  induction hr with
  | nil => exact h0
  | step _ hs ih => exact hstep _ _ _ _ ih hs

theorem invariant {P : S → Prop} (h0 : P s₀) (hstep : ∀ s a s', P s → R s a s' → P s')
    (hr : Run R s₀ h s) : P s :=
  hr.historyInvariant (P := fun _ s => P s) h0 (fun _ s a s' => hstep s a s')

/-- A run in which every step lowers a rank has at most as many steps as the rank of its start. -/
theorem length_add_rank_le {P : List A → S → Prop} {rank : S → Nat} (h0 : P [] s₀)
    (hstep : ∀ h s a s', P h s → R s a s' → P (a :: h) s')
    (hrank : ∀ h s a s', P h s → R s a s' → rank s' < rank s) (hr : Run R s₀ h s) :
    h.length + rank s ≤ rank s₀ := by
  induction hr with
  | nil => simp
  | step hr hs ih =>
    have hlt := hrank _ _ _ _ (hr.historyInvariant h0 hstep) hs
    rw [List.length_cons]
    omega

/-- Where runs are bounded and go on until they are done, some run gets done. -/
theorem exists_done {Done : S → Prop} {bound : Nat}
    (hbound : ∀ h s, Run R s₀ h s → h.length ≤ bound)
    (hprogress : ∀ h s, Run R s₀ h s → Done s ∨ ∃ a s', R s a s') :
    ∃ h s, Run R s₀ h s ∧ Done s := by
  by_contra hnone
  have hlong : ∀ k, ∃ h s, Run R s₀ h s ∧ h.length = k := by
    intro k
    induction k with
    | zero => exact ⟨[], s₀, .nil, rfl⟩
    | succ k ih =>
      obtain ⟨h, s, hr, rfl⟩ := ih
      rcases hprogress h s hr with hdone | ⟨a, s', hs⟩
      · exact absurd ⟨h, s, hr, hdone⟩ hnone
      · exact ⟨a :: h, s', hr.step hs, rfl⟩
  obtain ⟨h, s, hr, hlen⟩ := hlong (bound + 1)
  have hle := hbound h s hr
  omega

theorem trans {s₁ : S} (h₁ : Run R s₀ h s₁) (h₂ : Run R s₁ h' s) : Run R s₀ (h' ++ h) s := by
  induction h₂ with
  | nil => exact h₁
  | step _ hs ih => exact ih.step hs

theorem cons_iff : Run R s₀ (a :: h) s' ↔ ∃ s, Run R s₀ h s ∧ R s a s' := by
  constructor
  · intro hr; cases hr with | step hr hs => exact ⟨_, hr, hs⟩
  · rintro ⟨s, hr, hs⟩; exact hr.step hs

/-- A run of one system is a run of every system that has its steps. -/
theorem mono {R' : S → A → S → Prop} (hsub : ∀ s a s', R s a s' → R' s a s') (hr : Run R s₀ h s) :
    Run R' s₀ h s := by
  induction hr with
  | nil => exact .nil
  | step _ hs ih => exact ih.step (hsub _ _ _ hs)

/-- Every earlier point of a run is a run of its own. -/
theorem suffix (hr : Run R s₀ h s) (hsuf : h' <:+ h) : ∃ t, Run R s₀ h' t := by
  induction hr with
  | nil => exact ⟨s₀, by rw [List.suffix_nil.1 hsuf]; exact .nil⟩
  | step hr hs ih =>
    rcases List.suffix_cons_iff.1 hsuf with rfl | hsuf
    · exact ⟨_, hr.step hs⟩
    · exact ih hsuf

/-- In a deterministic system a history determines the state it leads to. -/
theorem det (hdet : ∀ s a t u, R s a t → R s a u → t = u) (h₁ : Run R s₀ h s)
    (h₂ : Run R s₀ h s') : s = s' := by
  induction h₁ generalizing s' with
  | nil => cases h₂; rfl
  | step _ hs ih =>
    obtain ⟨t, hr, hs'⟩ := cons_iff.1 h₂
    cases ih hr
    exact hdet _ _ _ _ hs hs'

/-- `P` holds at every point of the run that the history `h` describes. -/
def Always (R : S → A → S → Prop) (s₀ : S) (P : S → Prop) (h : List A) : Prop :=
  ∀ h', h' <:+ h → ∀ t, Run R s₀ h' t → P t

/-- Every step of the run that the history `h` describes meets `Q`. -/
def EachStep (R : S → A → S → Prop) (s₀ : S) (Q : S → A → Prop) (h : List A) : Prop :=
  ∀ a h', (a :: h') <:+ h → ∀ t, Run R s₀ h' t → Q t a

theorem always_cons {P : S → Prop} :
    Always R s₀ P (a :: h) ↔ (∀ t, Run R s₀ (a :: h) t → P t) ∧ Always R s₀ P h := by
  constructor
  · exact fun hp => ⟨hp _ (List.suffix_refl _), fun h' hs => hp h' (hs.trans (List.suffix_cons a h))⟩
  · rintro ⟨ha, hp⟩ h' hs
    rcases List.suffix_cons_iff.1 hs with rfl | hs
    · exact ha
    · exact hp h' hs

theorem eachStep_cons {Q : S → A → Prop} :
    EachStep R s₀ Q (a :: h) ↔ (∀ t, Run R s₀ h t → Q t a) ∧ EachStep R s₀ Q h := by
  constructor
  · exact fun hq => ⟨hq a h (List.suffix_refl _),
      fun b h' hs => hq b h' (hs.trans (List.suffix_cons a h))⟩
  · rintro ⟨ha, hq⟩ b h' hs
    rcases List.suffix_cons_iff.1 hs with heq | hs
    · cases heq; exact ha
    · exact hq b h' hs

theorem eachStep_of_forall {Q : A → Prop} (hq : ∀ a ∈ h, Q a) : EachStep R s₀ (fun _ a => Q a) h :=
  fun a _ hs _ _ => hq a (hs.subset (List.mem_cons_self ..))

/-- A run whose steps all meet `Q` is a run of the system that is restricted to them. -/
theorem restrict {Q : S → A → Prop} (hr : Run R s₀ h s) (hq : EachStep R s₀ Q h) :
    Run (fun s a s' => R s a s' ∧ Q s a) s₀ h s := by
  induction hr with
  | nil => exact .nil
  | step hr hs ih =>
    obtain ⟨ha, hq⟩ := eachStep_cons.1 hq
    exact (ih hq).step ⟨hs, ha _ hr⟩

/-- The steps before a step of the run. -/
theorem EachStep.before {Q : S → A → Prop} (hq : EachStep R s₀ Q h) (hsuf : (a :: h') <:+ h) :
    EachStep R s₀ Q h' :=
  fun b k hk => hq b k (hk.trans ((List.suffix_cons a h').trans hsuf))

/-- Two conditions that agree wherever a run can get are the same condition on its steps. -/
theorem eachStep_congr {Q Q' : S → A → Prop} (hq : ∀ h' t a, Run R s₀ h' t → (Q t a ↔ Q' t a)) :
    EachStep R s₀ Q h ↔ EachStep R s₀ Q' h := by
  constructor
  · intro hall a h' hsuf t ht
    exact (hq h' t a ht).1 (hall a h' hsuf t ht)
  · intro hall a h' hsuf t ht
    exact (hq h' t a ht).2 (hall a h' hsuf t ht)

/-- What a step that meets `Q` preserves of history and state, a run of such steps preserves. -/
theorem historyInvariantOn {P : List A → S → Prop} {Q : S → A → Prop} (h0 : P [] s₀)
    (hstep : ∀ h s a s', P h s → Q s a → R s a s' → P (a :: h) s') (hr : Run R s₀ h s)
    (hq : EachStep R s₀ Q h) : P h s := by
  induction hr with
  | nil => exact h0
  | step hr hs ih =>
    obtain ⟨ha, hq⟩ := eachStep_cons.1 hq
    exact hstep _ _ _ _ (ih hq) (ha _ hr) hs

/-- What a step that meets `Q` preserves, a run whose steps all meet `Q` preserves. -/
theorem invariantOn {P : S → Prop} {Q : S → A → Prop} (h0 : P s₀)
    (hstep : ∀ s a s', P s → Q s a → R s a s' → P s') (hr : Run R s₀ h s)
    (hq : EachStep R s₀ Q h) : P s :=
  hr.historyInvariantOn (P := fun _ s => P s) h0 (fun _ s a s' => hstep s a s') hq

theorem eachStep_nil {Q : S → A → Prop} : EachStep R s₀ Q [] := by
  intro a h' hs; simp at hs

/-- **A step condition that is exact for one step is exact for a run.**  `J` is what every run
keeps whether or not `P` holds. -/
theorem always_iff {P J : S → Prop} {Q : S → A → Prop}
    (hdet : ∀ s a t u, R s a t → R s a u → t = u) (hJ0 : J s₀) (hP0 : P s₀)
    (hJ : ∀ s a s', J s → R s a s' → J s')
    (hstep : ∀ s a s', J s → P s → R s a s' → (P s' ↔ Q s a)) (hr : Run R s₀ h s) :
    Always R s₀ P h ↔ EachStep R s₀ Q h := by
  induction hr with
  | nil =>
    refine iff_of_true (fun h' hs t ht => ?_) eachStep_nil
    rw [List.suffix_nil.1 hs] at ht
    cases ht; exact hP0
  | step hr hs ih =>
    rw [always_cons, eachStep_cons, ← ih]
    apply and_congr_left
    intro hp
    have hJs := hr.invariant hJ0 hJ
    have hPs := hp _ (List.suffix_refl _) _ hr
    constructor
    · intro ha t ht
      cases hr.det hdet ht
      exact (hstep _ _ _ hJs hPs hs).1 (ha _ (hr.step hs))
    · intro hq t ht
      cases (hr.step hs).det hdet ht
      exact (hstep _ _ _ hJs hPs hs).2 (hq _ hr)

/-- What a step function does with a history. -/
def exec (next : S → A → Option S) (s₀ : S) : List A → Option S
  | [] => some s₀
  | a :: h => (exec next s₀ h).bind fun s => next s a

theorem of_exec {next : S → A → Option S} (hsub : ∀ s a s', next s a = some s' → R s a s')
    (he : exec next s₀ h = some s) : Run R s₀ h s := by
  induction h generalizing s with
  | nil => cases he; exact .nil
  | cons a h ih =>
    obtain ⟨s₁, hs₁, hs⟩ := Option.bind_eq_some_iff.1 he
    exact (ih hs₁).step (hsub _ _ _ hs)

/-- A state with a given property, at the end of a history. -/
theorem of_exec_any {next : S → A → Option S} (hsub : ∀ s a s', next s a = some s' → R s a s')
    {p : S → Bool} (he : (exec next s₀ h).any p = true) : ∃ s, Run R s₀ h s ∧ p s = true := by
  obtain ⟨s, hs, hp⟩ := (Option.any_eq_true ..).1 he
  exact ⟨s, of_exec hsub hs, hp⟩

/-- What a step function does with a history, as long as the steps meet `Q`. -/
def execOn (next : S → A → Option S) (Q : S → A → Prop) [∀ s a, Decidable (Q s a)] (s₀ : S) :
    List A → Option S
  | [] => some s₀
  | a :: h => (execOn next Q s₀ h).bind fun s => if Q s a then next s a else none

theorem of_execOn {next : S → A → Option S} {Q : S → A → Prop} [∀ s a, Decidable (Q s a)]
    (hsub : ∀ s a s', next s a = some s' → R s a s')
    (hdet : ∀ s a t u, R s a t → R s a u → t = u) (he : execOn next Q s₀ h = some s) :
    Run R s₀ h s ∧ EachStep R s₀ Q h := by
  induction h generalizing s with
  | nil => cases he; exact ⟨.nil, eachStep_nil⟩
  | cons a h ih =>
    obtain ⟨s₁, hs₁, hs⟩ := Option.bind_eq_some_iff.1 he
    obtain ⟨ha, hs⟩ := Option.ite_none_right_eq_some.1 hs
    obtain ⟨hr, hq⟩ := ih hs₁
    refine ⟨hr.step (hsub _ _ _ hs), eachStep_cons.2 ⟨fun t ht => ?_, hq⟩⟩
    rwa [ht.det hdet hr]

/-- A state with a given property, at the end of a history whose steps all meet `Q`. -/
theorem of_execOn_any {next : S → A → Option S} {Q : S → A → Prop} [∀ s a, Decidable (Q s a)]
    (hsub : ∀ s a s', next s a = some s' → R s a s')
    (hdet : ∀ s a t u, R s a t → R s a u → t = u) {p : S → Bool}
    (he : (execOn next Q s₀ h).any p = true) :
    ∃ s, Run R s₀ h s ∧ EachStep R s₀ Q h ∧ p s = true := by
  obtain ⟨s, hs, hp⟩ := (Option.any_eq_true ..).1 he
  obtain ⟨hr, hq⟩ := of_execOn hsub hdet hs
  exact ⟨s, hr, hq, hp⟩

end Run

namespace Reachable

variable {R : S → A → S → Prop} {I : S → Prop} {s s' : S} {a : A}

theorem init (h : I s) : Reachable R I s := ⟨s, [], h, .nil⟩

theorem step (h : Reachable R I s) (hs : R s a s') : Reachable R I s' := by
  obtain ⟨s₀, l, h0, hr⟩ := h
  exact ⟨s₀, a :: l, h0, hr.step hs⟩

theorem invariant {P : S → Prop} (h0 : ∀ s, I s → P s) (hstep : ∀ s a s', P s → R s a s' → P s')
    (h : Reachable R I s) : P s := by
  obtain ⟨s₀, l, hi, hr⟩ := h
  exact hr.invariant (h0 s₀ hi) hstep

end Reachable

end Transition
