import Mathlib

/-!
# Mutexes, waiting lists and sums over parties

* `Owns m holds` — the mutex `m` names the party that is at a point where it holds it, if any.
  `Owns.change` is for every step of one party that is a `Change`.
* `sum_change` — a sum over parties when one of them changes.
* `card_change` — a number of parties when one of them changes.
* `covered_of_card`, `lt_of_uncovered` — a list of distinct parties and a disjoint set of them: if
  their sizes add up to the number of parties, every party is in one of the two.
-/

set_option autoImplicit false

namespace Mutex

/-! ## Ownership -/

section

variable {P : Type*}

/-- `m` is the party at a point where it holds the mutex. -/
def Owns (m : Option P) (holds : P → Bool) : Prop := ∀ p, m = some p ↔ holds p = true

variable {m : Option P} {holds holds' : P → Bool} {p : P}

theorem Owns.eq_some (h : Owns m holds) (hp : holds p = true) : m = some p := (h p).2 hp

theorem Owns.unique {q : P} (h : Owns m holds) (hp : holds p = true) (hq : holds q = true) : p = q :=
  Option.some.inj ((h.eq_some hp).symm.trans (h.eq_some hq))

/-- A mutex that nobody holds is free. -/
theorem Owns.eq_none (h : Owns m holds) (hnone : ∀ p, ¬holds p = true) : m = none := by
  cases hm : m with
  | none => rfl
  | some p => exact absurd ((h p).1 hm) (hnone p)

/-- A step of parties that does not touch the mutex. -/
theorem Owns.congr (h : Owns m holds) (hsame : ∀ q, holds' q = holds q) : Owns m holds' :=
  fun q => by rw [hsame]; exact h q

/-- `p` takes a free mutex. -/
theorem Owns.acquire (h : Owns none holds) (hp : holds' p = true)
    (hsame : ∀ q, q ≠ p → holds' q = holds q) : Owns (some p) holds' := by
  intro q
  by_cases hq : q = p
  · subst hq; exact ⟨fun _ => hp, fun _ => rfl⟩
  · rw [hsame q hq]
    refine ⟨fun heq => absurd (Option.some.inj heq).symm hq, fun hholds => ?_⟩
    have := (h q).2 hholds
    cases this

/-- `p` gives the mutex back. -/
theorem Owns.release (h : Owns m holds) (hp : holds p = true) (hp' : holds' p = false)
    (hsame : ∀ q, q ≠ p → holds' q = holds q) : Owns none holds' := by
  intro q
  refine ⟨fun heq => (nomatch heq), fun hq' => ?_⟩
  by_cases hq : q = p
  · subst hq; rw [hp'] at hq'; cases hq'
  · rw [hsame q hq] at hq'
    exact absurd (h.unique hq' hp) hq

/-- What a step of `p` can do to a mutex, with the flags that tell whether `p` holds it. -/
def Change (p : P) (m m' : Option P) (b b' : Bool) : Prop :=
  (m' = m ∧ b' = b) ∨ (m = none ∧ m' = some p ∧ b' = true) ∨ (m' = none ∧ b = true ∧ b' = false)

theorem Change.same {b b' : Bool} (hb : b' = b) : Change p m m b b' := .inl ⟨rfl, hb⟩

theorem Change.take {b b' : Bool} (hm : m = none) (hb' : b' = true) : Change p m (some p) b b' :=
  .inr (.inl ⟨hm, rfl, hb'⟩)

theorem Change.drop {b b' : Bool} (hb : b = true) (hb' : b' = false) : Change p m none b b' :=
  .inr (.inr ⟨rfl, hb, hb'⟩)

/-- **A step of one party keeps the ownership.** -/
theorem Owns.change {m' : Option P} (h : Owns m holds) (hc : Change p m m' (holds p) (holds' p))
    (hsame : ∀ q, q ≠ p → holds' q = holds q) : Owns m' holds' := by
  rcases hc with ⟨rfl, hp⟩ | ⟨rfl, rfl, hp⟩ | ⟨rfl, hp, hp'⟩
  · apply h.congr
    intro q
    by_cases hq : q = p
    · subst hq; exact hp
    · exact hsame q hq
  · exact h.acquire hp hsame
  · exact h.release hp hp' hsame

end

/-! ## Sums and numbers of parties -/

section

variable {n : Nat}

/-- A sum over parties when only `t` changes. -/
theorem sum_change {M : Type*} [AddCommMonoid M] {f f' : Fin n → M} {t : Fin n}
    (hsame : ∀ u, u ≠ t → f' u = f u) : (∑ u, f' u) + f t = (∑ u, f u) + f' t := by
  have hrest : ∑ u ∈ Finset.univ.erase t, f' u = ∑ u ∈ Finset.univ.erase t, f u :=
    Finset.sum_congr rfl fun u hu => hsame u (Finset.ne_of_mem_erase hu)
  rw [← Finset.add_sum_erase _ f' (Finset.mem_univ t), ← Finset.add_sum_erase _ f (Finset.mem_univ t),
    hrest, add_right_comm, add_comm (f' t), add_right_comm (f t)]

/-- A number of parties when only `t` changes, and joins. -/
theorem card_change {P P' : Fin n → Prop} [DecidablePred P] [DecidablePred P'] {t : Fin n}
    (hsame : ∀ u, u ≠ t → (P' u ↔ P u)) (ht : ¬P t) (ht' : P' t) :
    (Finset.univ.filter P').card = (Finset.univ.filter P).card + 1 := by
  have hnot : t ∉ Finset.univ.filter P := by simp [ht]
  rw [← Finset.card_insert_of_notMem hnot]
  congr 1
  ext u
  simp only [Finset.mem_filter, Finset.mem_univ, true_and, Finset.mem_insert]
  by_cases hu : u = t
  · subst hu; simp [ht']
  · simp [hu, hsame u hu]

variable {l : List (Fin n)} {P : Fin n → Prop} [DecidablePred P]

theorem length_add_card (hl : l.Nodup) (hdisj : ∀ t ∈ l, ¬P t) :
    l.length + (Finset.univ.filter P).card =
      (l.toFinset ∪ Finset.univ.filter P).card := by
  rw [Finset.card_union_of_disjoint, List.toFinset_card_of_nodup hl]
  rw [Finset.disjoint_left]
  intro t ht hP
  exact hdisj t (List.mem_toFinset.1 ht) (Finset.mem_filter.1 hP).2

/-- If the sizes add up to `n`, every party is in the list or in the set. -/
theorem covered_of_card (hl : l.Nodup) (hdisj : ∀ t ∈ l, ¬P t)
    (hcard : l.length + (Finset.univ.filter P).card = n) (t : Fin n) : t ∈ l ∨ P t := by
  rw [length_add_card hl hdisj] at hcard
  have huniv := Finset.eq_univ_of_card _ (hcard.trans (Fintype.card_fin n).symm)
  have ht := huniv ▸ Finset.mem_univ t
  rcases Finset.mem_union.1 ht with ht | ht
  · exact .inl (List.mem_toFinset.1 ht)
  · exact .inr (Finset.mem_filter.1 ht).2

/-- If every party is in the list or in the set, the sizes add up to `n`. -/
theorem card_of_covered (hl : l.Nodup) (hdisj : ∀ t ∈ l, ¬P t) (hcov : ∀ t, t ∈ l ∨ P t) :
    l.length + (Finset.univ.filter P).card = n := by
  rw [length_add_card hl hdisj]
  have huniv : l.toFinset ∪ Finset.univ.filter P = Finset.univ := by
    ext t
    simpa using hcov t
  rw [huniv, Finset.card_univ, Fintype.card_fin]

/-- A party outside both leaves the sizes below `n`. -/
theorem lt_of_uncovered (hl : l.Nodup) (hdisj : ∀ t ∈ l, ¬P t) {t : Fin n} (ht : t ∉ l) (hP : ¬P t) :
    l.length + (Finset.univ.filter P).card < n := by
  have hle : l.length + (Finset.univ.filter P).card ≤ n := by
    rw [length_add_card hl hdisj]
    exact (Finset.card_le_univ _).trans_eq (Fintype.card_fin n)
  apply Nat.lt_of_le_of_ne hle
  intro heq
  rcases covered_of_card hl hdisj heq t with h | h
  · exact ht h
  · exact hP h

end

end Mutex
