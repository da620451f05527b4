import Mathlib

/-!
# Labelled forests spread over a store

A store of nodes holds edges `edge f i = some g` (the `i`-th child of `f` is `g`).  A labelling
gives each node in use its root and the word of indices that leads from that root to it.
`Forest label edge` says that edges and labels fit each other and that no two nodes share a
label: the store then holds disjoint trees, and a node is found by following its label.

* `Forest.ancestor`, `Forest.no_descendant` — labels are closed under prefixes, and nothing lies
  below a missing edge.
* `Forest.card_eq` — there are as many nodes as labels.
* `Forest.addRoot`, `Forest.addChild` — taking a fresh node as a root, or as the child at a
  missing edge, keeps the forest.
-/

set_option autoImplicit false

variable {ν ρ σ : Type*}

/-- The nodes in use (`label f ≠ none`) form disjoint trees, each node at its label. -/
structure Forest (label : ν → Option (ρ × List σ)) (edge : ν → σ → Option ν) : Prop where
  inj : ∀ {f g l}, label f = some l → label g = some l → f = g
  edge_label : ∀ {f i g r p}, label f = some (r, p) → edge f i = some g →
    label g = some (r, p ++ [i])
  parent : ∀ {g r p i}, label g = some (r, p ++ [i]) → ∃ f, label f = some (r, p) ∧ edge f i = some g

namespace Forest

variable {label : ν → Option (ρ × List σ)} {edge edge' : ν → σ → Option ν}

theorem empty : Forest (fun _ : ν => (none : Option (ρ × List σ))) edge :=
  ⟨fun h _ => by simp at h, fun h _ => by simp at h, fun h => by simp at h⟩

/-- Every prefix of a label in use is in use. -/
theorem ancestor (F : Forest label edge) {g : ν} {r : ρ} (p : List σ) :
    ∀ q : List σ, label g = some (r, p ++ q) → ∃ f, label f = some (r, p) := by
  intro q
  induction q using List.reverseRecOn generalizing g with
  | nil => intro h; exact ⟨g, by simpa using h⟩
  | append_singleton q i ih =>
    intro h
    rw [← List.append_assoc] at h
    obtain ⟨f, hf, _⟩ := F.parent h
    exact ih hf

/-- Below a missing edge there is no node. -/
theorem no_descendant (F : Forest label edge) {f : ν} {r : ρ} {p : List σ} {i : σ}
    (hf : label f = some (r, p)) (hi : edge f i = none) (g : ν) (q : List σ) :
    label g ≠ some (r, p ++ i :: q) := by
  intro hg
  obtain ⟨c, hc⟩ := F.ancestor (p ++ [i]) q (by simpa using hg)
  obtain ⟨f', hf', hi'⟩ := F.parent hc
  cases F.inj hf hf'
  rw [hi] at hi'; cases hi'

/-- Only the edges of nodes in use matter. -/
theorem edge_congr (F : Forest label edge) (h : ∀ f l, label f = some l → edge' f = edge f) :
    Forest label edge' := by
  refine ⟨F.inj, fun hf hi => ?_, fun hg => ?_⟩
  · rw [h _ _ hf] at hi; exact F.edge_label hf hi
  · obtain ⟨f, hf, hi⟩ := F.parent hg
    exact ⟨f, hf, by rw [h _ _ hf]; exact hi⟩

/-- There are as many nodes in use as labels. -/
theorem card_eq (F : Forest label edge) (nodes : Finset ν) (labels : Finset (ρ × List σ))
    (hnodes : ∀ f, f ∈ nodes ↔ ∃ l, label f = some l)
    (hlabels : ∀ l, l ∈ labels ↔ ∃ f, label f = some l) : nodes.card = labels.card := by
  have used : ∀ {f}, f ∈ nodes → (label f).isSome = true := fun hf =>
    Option.isSome_iff_exists.2 ((hnodes _).1 hf)
  refine Finset.card_bij (fun f hf => (label f).get (used hf)) ?_ ?_ ?_
  · intro f hf
    exact (hlabels _).2 ⟨f, (Option.some_get _).symm⟩
  · intro f hf g hg heq
    apply F.inj (Option.some_get (used hf)).symm
    rw [heq, Option.some_get]
  · intro l hl
    obtain ⟨f, hf⟩ := (hlabels l).1 hl
    exact ⟨f, (hnodes f).2 ⟨l, hf⟩, by simp [hf]⟩

variable [DecidableEq ν]

/-- A fresh node without children becomes the root of a new tree. -/
theorem addRoot (F : Forest label edge) {g : ν} {r : ρ} (hg : label g = none)
    (hr : ∀ f p, label f ≠ some (r, p)) (hchild : ∀ i, edge' g i = none)
    (hold : ∀ f l, label f = some l → edge' f = edge f) :
    Forest (Function.update label g (some (r, []))) edge' := by
  have old : ∀ {f l}, label f = some l → Function.update label g (some (r, [])) f = some l := by
    intro f l hf
    rw [Function.update_of_ne (by rintro rfl; rw [hg] at hf; cases hf), hf]
  have new : ∀ {f l}, Function.update label g (some (r, [])) f = some l →
      (f = g ∧ l = (r, [])) ∨ label f = some l := by
    intro f l hf
    by_cases hfg : f = g
    · subst hfg; rw [Function.update_self] at hf; cases hf; exact .inl ⟨rfl, rfl⟩
    · rw [Function.update_of_ne hfg] at hf; exact .inr hf
  refine ⟨fun ha hb => ?_, fun ha hi => ?_, fun ha => ?_⟩
  · rcases new ha with ⟨ha, hl⟩ | ha <;> rcases new hb with ⟨hb, hl'⟩ | hb
    · rw [ha, hb]
    · subst hl; exact absurd hb (hr _ _)
    · subst hl'; exact absurd ha (hr _ _)
    · exact F.inj ha hb
  · rcases new ha with ⟨ha, _⟩ | ha
    · subst ha; rw [hchild] at hi; cases hi
    · rw [hold _ _ ha] at hi; exact old (F.edge_label ha hi)
  · rcases new ha with ⟨_, hl⟩ | hf
    · simp at hl
    · obtain ⟨f, hp, hi⟩ := F.parent hf
      exact ⟨f, old hp, by rw [hold _ _ hp]; exact hi⟩

/-- A fresh node without children is hung at a missing edge. -/
theorem addChild [DecidableEq σ] (F : Forest label edge) {f g : ν} {r : ρ} {p : List σ} {i : σ}
    (hf : label f = some (r, p)) (hi : edge f i = none) (hg : label g = none)
    (hchild : ∀ j, edge' g j = none) (hnew : edge' f i = some g)
    (hold : ∀ f' l j, label f' = some l → (f' = f → j ≠ i) → edge' f' j = edge f' j) :
    Forest (Function.update label g (some (r, p ++ [i]))) edge' := by
  have old : ∀ {f l}, label f = some l →
      Function.update label g (some (r, p ++ [i])) f = some l := by
    intro f l hf
    rw [Function.update_of_ne (by rintro rfl; rw [hg] at hf; cases hf), hf]
  have new : ∀ {f l}, Function.update label g (some (r, p ++ [i])) f = some l →
      (f = g ∧ l = (r, p ++ [i])) ∨ label f = some l := by
    intro f l hf
    by_cases hfg : f = g
    · subst hfg; rw [Function.update_self] at hf; cases hf; exact .inl ⟨rfl, rfl⟩
    · rw [Function.update_of_ne hfg] at hf; exact .inr hf
  have free : ∀ c, label c ≠ some (r, p ++ [i]) := fun c => F.no_descendant hf hi c []
  refine ⟨fun ha hb => ?_, fun ha hj => ?_, fun ha => ?_⟩
  · rcases new ha with ⟨ha, hl⟩ | ha <;> rcases new hb with ⟨hb, hl'⟩ | hb
    · rw [ha, hb]
    · subst hl; exact absurd hb (free _)
    · subst hl'; exact absurd ha (free _)
    · exact F.inj ha hb
  · rename_i a j c r' q
    rcases new ha with ⟨hag, _⟩ | hla
    · subst hag; rw [hchild] at hj; cases hj
    · by_cases haf : a = f ∧ j = i
      · obtain ⟨rfl, rfl⟩ := haf
        rw [hnew] at hj; cases hj
        rw [hf] at hla; cases hla
        rw [Function.update_self]
      · rw [hold _ _ _ hla (fun h1 h2 => haf ⟨h1, h2⟩)] at hj
        exact old (F.edge_label hla hj)
  · rcases new ha with ⟨hag, hl⟩ | ha
    · obtain ⟨hr, hl⟩ := Prod.mk.inj hl
      obtain ⟨hp, hl⟩ := List.append_inj' hl rfl
      cases hl; subst hag hr hp
      exact ⟨f, old hf, hnew⟩
    · obtain ⟨b, hb, hj⟩ := F.parent ha
      refine ⟨b, old hb, ?_⟩
      rw [hold _ _ _ hb, hj]
      rintro rfl rfl
      rw [hi] at hj; cases hj

end Forest
