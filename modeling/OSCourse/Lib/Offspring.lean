import Mathlib

/-!
# Multisets that are a root and the children of their members

A traversal that gives out the root once, and the children of everything that it finishes, gives
out a multiset `G` with `G = root ::ₘ G.bind children`.

* `Offspring.mem_iff` — its members are what is reached from the root.
* `Offspring.nodup` — if the children form trees, each of them is in it once.
* `nodup_bind_of_parent` — what distinct members have on their own is distinct.
-/

set_option autoImplicit false

variable {α β : Type*}

/-- `G` is the root and the children of its members. -/
def Offspring (children : α → Multiset α) (root : α) (G : Multiset α) : Prop :=
  G = root ::ₘ G.bind children

namespace Offspring

variable {children : α → Multiset α} {root : α} {G : Multiset α}

theorem mem_root (h : Offspring children root G) : root ∈ G := by
  rw [h]; exact Multiset.mem_cons_self ..

theorem mem_child (h : Offspring children root G) {a b : α} (ha : a ∈ G) (hb : b ∈ children a) :
    b ∈ G := by
  rw [h]; exact Multiset.mem_cons_of_mem (Multiset.mem_bind.2 ⟨a, ha, hb⟩)

theorem mem_cases (h : Offspring children root G) {b : α} (hb : b ∈ G) :
    b = root ∨ ∃ a ∈ G, b ∈ children a := by
  rw [h, Multiset.mem_cons, Multiset.mem_bind] at hb
  exact hb

/-- **The members are what is reached from the root.** -/
theorem mem_iff (h : Offspring children root G) (rank : α → Nat)
    (hrank : ∀ a, ∀ b ∈ children a, rank a < rank b) (b : α) :
    b ∈ G ↔ Relation.ReflTransGen (fun a b => b ∈ children a) root b := by
  constructor
  · intro hb
    -- by induction on the rank, which grows from a member to its children
    generalize hr : rank b = r
    induction r using Nat.strong_induction_on generalizing b with
    | h r ih =>
      subst hr
      rcases h.mem_cases hb with rfl | ⟨a, ha, hab⟩
      · exact .refl
      · exact (ih (rank a) (hrank a b hab) a ha rfl).tail hab
  · intro hb
    induction hb with
    | refl => exact h.mem_root
    | tail _ hab ih => exact h.mem_child ih hab

theorem rank_root_le {rank : α → Nat} (hrank : ∀ a, ∀ b ∈ children a, rank a < rank b) {b : α}
    (hb : Relation.ReflTransGen (fun a b => b ∈ children a) root b) : rank root ≤ rank b := by
  induction hb with
  | refl => exact Nat.le_refl _
  | tail _ hab ih => exact ih.trans (hrank _ _ hab).le

/-- **Every member is there once**, if its children are and nothing is a child of two. -/
theorem nodup (h : Offspring children root G) (rank : α → Nat)
    (hrank : ∀ a, ∀ b ∈ children a, rank a < rank b) (hnodup : ∀ a, (children a).Nodup)
    (hparent : ∀ a b c, c ∈ children a → c ∈ children b → a = b) : G.Nodup := by
  classical
  rw [Multiset.nodup_iff_count_le_one]
  intro b
  generalize hr : rank b = r
  induction r using Nat.strong_induction_on generalizing b with
  | h r ih =>
    subst hr
    have hcount : G.count b = (G.bind children).count b + if b = root then 1 else 0 := by
      conv_lhs => rw [h]
      exact Multiset.count_cons ..
    rw [Multiset.count_bind] at hcount
    by_cases hb : ∃ a ∈ G, b ∈ children a
    · obtain ⟨a, ha, hab⟩ := hb
      have hne : b ≠ root := by
        rintro rfl
        have hle := rank_root_le hrank ((h.mem_iff rank hrank a).1 ha)
        exact absurd (hrank a b hab) (Nat.not_lt.2 hle)
      have hsum : (G.map fun c => (children c).count b).sum = G.count a • (children a).count b := by
        refine Multiset.sum_map_eq_nsmul_single a fun c hca _ => Multiset.count_eq_zero.2 fun hbc => ?_
        exact hca (hparent c a b hbc hab)
      have hone := ih (rank a) (hrank a b hab) a rfl
      have hchild := Multiset.nodup_iff_count_le_one.1 (hnodup a) b
      rw [hsum, if_neg hne, smul_eq_mul, Nat.add_zero] at hcount
      exact hcount.trans_le (Nat.mul_le_mul hone hchild)
    · have hsum : (G.map fun c => (children c).count b).sum = 0 := by
        apply Multiset.sum_eq_zero
        intro k hk
        obtain ⟨c, hc, rfl⟩ := Multiset.mem_map.1 hk
        exact Multiset.count_eq_zero.2 fun hbc => hb ⟨c, hc, hbc⟩
      rw [hcount, hsum]
      split <;> omega

end Offspring

/-- What distinct members have on their own is distinct. -/
theorem nodup_bind_of_parent {G : Multiset α} (hG : G.Nodup) {f : α → Multiset β}
    (hnodup : ∀ a, (f a).Nodup) (hparent : ∀ a b c, c ∈ f a → c ∈ f b → a = b) :
    (G.bind f).Nodup := by
  rw [Multiset.nodup_bind]
  refine ⟨fun a _ => hnodup a, hG.pairwise fun a _ b _ hab => ?_⟩
  exact Multiset.disjoint_left.2 fun hca hcb => hab (hparent a b _ hca hcb)
