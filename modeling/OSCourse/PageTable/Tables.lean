import OSCourse.Lib.Forest
import OSCourse.PageTable.Pt

/-!
# The tables are disjoint trees of frames

The proofs label every allocated frame with its root and the indices that `page_walk` consumes
on the way to it.  `Tables m label` says that this is a forest (`Forest`), that exactly the
frames below `nalloc` are in use, that no table lies deeper than the last level, and that every
word of every table is `0` or names a frame with bit 0 set and bits 1 … 11 clear.

* `Tables.alloc`, `Tables.grow`, `Tables.leafWrite` — the three ways memory changes.
* `walk_find`, `walk_alloc` — what `page_walk` returns, without and with allocation.
* `LeafWord` — the level-5 word of a page, `0` where the tables on its path do not exist.
-/

set_option autoImplicit false

namespace OSCourse.PageTable

abbrev Label := Nat → Option (Nat × List Nat)

variable {m m' : Memory} {label label' : Label} {mmap : Nat → Bool}

/-- The table that the `i`-th word of frame `f` names; the words of level 5 name no tables. -/
def edge (m : Memory) (label : Label) (f i : Nat) : Option Nat :=
  match m.pages f, label f with
  | some node, some (_, p) =>
    if p.length < 4 ∧ IS_VALID_PTE (node i) = true then some (GET_FRAME_N (node i)).toNat else none
  | _, _ => none

structure Tables (m : Memory) (label : Label) : Prop where
  forest : Forest label (edge m label)
  nalloc_le : m.nalloc ≤ NPAGES
  pages_iff : ∀ f, (∃ node, m.pages f = some node) ↔ f < m.nalloc
  label_iff : ∀ f, (∃ l, label f = some l) ↔ f < m.nalloc
  root : ∀ {f r p}, label f = some (r, p) → label r = some (r, [])
  depth : ∀ {f r p}, label f = some (r, p) → p.length ≤ 4
  entry : ∀ {f node}, m.pages f = some node → ∀ i, node i = 0#64 ∨ ∃ n, node i = pteOf n

/-- Memory after the `i`-th word of frame `f` (so far `node`) was set. -/
def Memory.set (m : Memory) (f : Nat) (node : PtNode) (i : Nat) (e : PtEntry) : Memory :=
  { m with pages := Function.update m.pages f (some (Function.update node i e)) }

/-! ## Addresses -/

theorem physToVirt_frame {n : BitVec 64} {f : Nat} (hn : n.toNat % 2 ^ 52 = f) (hf : f < NPAGES)
    {node : PtNode} (hp : m.pages f = some node) :
    physToVirt m (PHYSICAL_ADDR n 0#64) = some ⟨f, 0⟩ := by
  simp only [physToVirt, PHYSICAL_ADDR_page, PHYSICAL_ADDR_off, hn, if_pos hf, hp]
  rfl

theorem word_frame {f : Nat} {node : PtNode} (hp : m.pages f = some node) (vpn : BitVec 64)
    (i : Nat) : m.word (some ⟨f, 0⟩) (VPN_I vpn i) = .ok (f, node, (VPN_I vpn i).toNat) := by
  simp [Memory.word, hp, VPN_I_lt]

theorem readEntry_frame {f : Nat} {node : PtNode} (hp : m.pages f = some node) (vpn : BitVec 64)
    (i : Nat) : m.readEntry (some ⟨f, 0⟩) (VPN_I vpn i) = .ok (node (VPN_I vpn i).toNat) := by
  rw [Memory.readEntry, word_frame hp]; rfl

theorem writeEntry_frame {f : Nat} {node : PtNode} (hp : m.pages f = some node) (vpn : BitVec 64)
    (i : Nat) (e : PtEntry) : m.writeEntry (some ⟨f, 0⟩) (VPN_I vpn i) e =
      .ok (m.set f node (VPN_I vpn i).toNat e) := by
  rw [Memory.writeEntry, word_frame hp]; rfl

/-- Why `alloc_page_frame` stops the program. -/
def Exhausted (mmap : Nat → Bool) (m : Memory) (e : Stop) : Prop :=
  (e = .outOfPhysicalMemory ∧ m.nalloc = NPAGES) ∨ (e = .mmapFailed ∧ mmap m.nalloc = false)

theorem allocPageFrame_spec (mmap : Nat → Bool) (m : Memory) :
    (∃ e, allocPageFrame mmap m = .error e ∧ Exhausted mmap m e) ∨
      m.nalloc ≠ NPAGES ∧ allocPageFrame mmap m = .ok (BitVec.ofNat 64 m.nalloc,
        ⟨m.nalloc + 1, Function.update m.pages m.nalloc (some fun _ => 0)⟩) := by
  unfold allocPageFrame
  split
  · rename_i h
    exact .inl ⟨_, rfl, .inl ⟨rfl, h⟩⟩
  · rename_i h
    simp only
    split
    · exact .inr ⟨h, rfl⟩
    · rename_i hmmap
      exact .inl ⟨_, rfl, .inr ⟨rfl, by simpa using hmmap⟩⟩

theorem allocPageFrame_cases (mmap : Nat → Bool) (m : Memory) :
    (∃ e, allocPageFrame mmap m = .error e ∧ (e = .outOfPhysicalMemory ∨ e = .mmapFailed)) ∨
      m.nalloc ≠ NPAGES ∧ allocPageFrame mmap m = .ok (BitVec.ofNat 64 m.nalloc,
        ⟨m.nalloc + 1, Function.update m.pages m.nalloc (some fun _ => 0)⟩) :=
  (allocPageFrame_spec mmap m).imp (fun ⟨e, he, hstop⟩ => ⟨e, he, hstop.imp And.left And.left⟩) id

/-! ## The invariant under the three changes of memory -/

theorem label_cases {f g : Nat} {l l' : Nat × List Nat}
    (h : Function.update label g (some l') f = some l) : (f = g ∧ l = l') ∨ label f = some l := by
  by_cases hf : f = g
  · subst hf
    rw [Function.update_self] at h
    cases h
    exact .inl ⟨rfl, rfl⟩
  · rw [Function.update_of_ne hf] at h
    exact .inr h

namespace Tables

theorem init : Tables Memory.init fun _ => none where
  forest := Forest.empty
  nalloc_le := Nat.zero_le _
  pages_iff f := by simp [Memory.init]
  label_iff f := by simp [Memory.init]
  root h := by cases h
  depth h := by cases h
  entry h := by cases h

theorem lt (T : Tables m label) {f : Nat} {l : Nat × List Nat} (h : label f = some l) :
    f < m.nalloc :=
  (T.label_iff f).1 ⟨l, h⟩

theorem node (T : Tables m label) {f : Nat} {l : Nat × List Nat} (h : label f = some l) :
    ∃ node, m.pages f = some node :=
  (T.pages_iff f).2 (T.lt h)

theorem fresh (T : Tables m label) : label m.nalloc = none := by
  cases h : label m.nalloc with
  | none => rfl
  | some l => exact absurd (T.lt h) (Nat.lt_irrefl _)

/-- A label for the next frame changes no other. -/
theorem label_old (T : Tables m label) {f : Nat} {l l' : Nat × List Nat} (h : label f = some l) :
    Function.update label m.nalloc (some l') f = some l := by
  rw [Function.update_of_ne (Nat.ne_of_lt (T.lt h)), h]

theorem label_iff_next (T : Tables m label) (l' : Nat × List Nat) (f : Nat) :
    (∃ l, Function.update label m.nalloc (some l') f = some l) ↔ f < m.nalloc + 1 := by
  by_cases h : f = m.nalloc
  · subst h; simp
  · rw [Function.update_of_ne h, T.label_iff]; omega

theorem nalloc_toNat (T : Tables m label) : (BitVec.ofNat 64 m.nalloc).toNat = m.nalloc := by
  have h20 : m.nalloc ≤ 2 ^ 20 := T.nalloc_le
  rw [BitVec.toNat_ofNat]
  omega

theorem fresh_root (T : Tables m label) (f : Nat) (p : List Nat) : label f ≠ some (m.nalloc, p) := by
  intro h
  have := T.lt (T.root h)
  omega

theorem edge_eq {f : Nat} {node : PtNode} {r : Nat} {p : List Nat} (hf : label f = some (r, p))
    (hn : m.pages f = some node) (hp : p.length < 4) (i : Nat) :
    edge m label f i =
      if IS_VALID_PTE (node i) = true then some (GET_FRAME_N (node i)).toNat else none := by
  simp [edge, hf, hn, hp]

/-- The labelled child that a valid word names. -/
theorem child (T : Tables m label) {f : Nat} {node : PtNode} {r : Nat} {p : List Nat} {i : Nat}
    (hf : label f = some (r, p)) (hn : m.pages f = some node) (hp : p.length < 4)
    (hv : IS_VALID_PTE (node i) = true) :
    label (GET_FRAME_N (node i)).toNat = some (r, p ++ [i]) :=
  T.forest.edge_label hf (by rw [edge_eq hf hn hp, if_pos hv])

/-- `alloc_page_frame` called for a new root. -/
theorem alloc (T : Tables m label) (hmax : m.nalloc ≠ NPAGES) :
    Tables ⟨m.nalloc + 1, Function.update m.pages m.nalloc (some fun _ => 0#64)⟩
      (Function.update label m.nalloc (some (m.nalloc, []))) := by
  have ne : ∀ {f l}, label f = some l → f ≠ m.nalloc := fun h => Nat.ne_of_lt (T.lt h)
  refine ⟨?_, ?_, ?_, ?_, ?_, ?_, ?_⟩
  · refine T.forest.addRoot T.fresh T.fresh_root (fun i => ?_) (fun f l hf => ?_)
    · simp [edge, IS_VALID_PTE_zero]
    · funext i; simp [edge, Function.update_of_ne (ne hf)]
  · have := T.nalloc_le; simp only; omega
  · intro f
    by_cases h : f = m.nalloc
    · subst h; simp
    · simp only [Function.update_of_ne h, T.pages_iff]; omega
  · exact T.label_iff_next _
  · intro f r p h
    rcases label_cases h with ⟨rfl, heq⟩ | h
    · cases heq; exact Function.update_self ..
    · exact T.label_old (T.root h)
  · intro f r p h
    rcases label_cases h with ⟨rfl, heq⟩ | h
    · cases heq; exact Nat.zero_le _
    · exact T.depth h
  · intro f node h i
    by_cases hf : f = m.nalloc
    · subst hf; simp only [Function.update_self, Option.some.injEq] at h; subst h; exact .inl rfl
    · exact T.entry (by simpa [Function.update_of_ne hf] using h) i

end Tables

/-- Memory after `page_walk` has hung a fresh table at the `i`-th word of `f`. -/
def Memory.grow (m : Memory) (f : Nat) (node : PtNode) (i : Nat) : Memory :=
  ⟨m.nalloc + 1, Function.update (Function.update m.pages m.nalloc (some fun _ => 0#64)) f
    (some (Function.update node i (pteOf (BitVec.ofNat 64 m.nalloc))))⟩

theorem frame_number {k : Nat} (hk : k < NPAGES) :
    (GET_FRAME_N (pteOf (BitVec.ofNat 64 k))).toNat = k := by
  have : k < 2 ^ 20 := hk
  rw [GET_FRAME_N_pteOf, BitVec.toNat_ofNat, BitVec.toNat_ofNat]
  omega

namespace Tables

/-- A fresh table hung at an invalid word. -/
theorem grow (T : Tables m label) (hmax : m.nalloc ≠ NPAGES) {f : Nat} {node : PtNode} {r : Nat}
    {p : List Nat} {i : Nat} (hf : label f = some (r, p)) (hn : m.pages f = some node)
    (hp : p.length < 4) (hv : IS_VALID_PTE (node i) = false) :
    Tables (m.grow f node i) (Function.update label m.nalloc (some (r, p ++ [i]))) := by
  have hlt : m.nalloc < NPAGES := by have := T.nalloc_le; omega
  have ne : ∀ {f l}, label f = some l → f ≠ m.nalloc := fun h => Nat.ne_of_lt (T.lt h)
  have hfn := ne hf
  have pages_new : (m.grow f node i).pages m.nalloc = some fun _ => 0#64 := by
    simp [Memory.grow, Function.update_of_ne hfn.symm]
  have pages_f : (m.grow f node i).pages f =
      some (Function.update node i (pteOf (BitVec.ofNat 64 m.nalloc))) := by simp [Memory.grow]
  have pages_old : ∀ {g}, g ≠ f → g ≠ m.nalloc → (m.grow f node i).pages g = m.pages g :=
    fun h1 h2 => by simp [Memory.grow, Function.update_of_ne h1, Function.update_of_ne h2]
  refine ⟨?_, ?_, ?_, ?_, ?_, ?_, ?_⟩
  · refine T.forest.addChild hf (by simp [edge_eq hf hn hp, hv]) T.fresh (fun j => ?_) ?_
      (fun g l j hg hgj => ?_)
    · simp [edge, pages_new, IS_VALID_PTE_zero]
    · simp [edge, pages_f, T.label_old hf, hp, IS_VALID_PTE_pteOf, frame_number hlt]
    · by_cases hgf : g = f
      · subst hgf
        simp [edge, pages_f, T.label_old hf, hf, hn, Function.update_of_ne (hgj rfl)]
      · simp [edge, pages_old hgf (ne hg), T.label_old hg, hg]
  · simp only [Memory.grow]; omega
  · intro g
    by_cases hgf : g = f
    · subst hgf
      rw [pages_f]
      have : g < m.nalloc + 1 := Nat.lt_succ_of_lt (T.lt hf)
      simpa [Memory.grow] using this
    · by_cases hgn : g = m.nalloc
      · subst hgn; rw [pages_new]; simp [Memory.grow]
      · rw [pages_old hgf hgn, T.pages_iff]; simp only [Memory.grow]; omega
  · exact T.label_iff_next _
  · intro g s q h
    rcases label_cases h with ⟨-, heq⟩ | h
    · cases heq; exact T.label_old (T.root hf)
    · exact T.label_old (T.root h)
  · intro g s q h
    rcases label_cases h with ⟨-, heq⟩ | h
    · cases heq; rw [List.length_append, List.length_singleton]; exact hp
    · exact T.depth h
  · intro g nd h j
    by_cases hgf : g = f
    · subst hgf
      rw [pages_f] at h; cases h
      by_cases hj : j = i
      · subst hj; exact .inr ⟨_, Function.update_self ..⟩
      · rw [Function.update_of_ne hj]; exact T.entry hn j
    · by_cases hgn : g = m.nalloc
      · subst hgn; rw [pages_new] at h; cases h; exact .inl rfl
      · rw [pages_old hgf hgn] at h; exact T.entry h j

/-- A word of a level-5 table is set. -/
theorem leafWrite (T : Tables m label) {f : Nat} {node : PtNode} {r : Nat} {p : List Nat} {i : Nat}
    {e : PtEntry} (hf : label f = some (r, p)) (hn : m.pages f = some node) (hp : p.length = 4)
    (he : e = 0#64 ∨ ∃ n, e = pteOf n) : Tables (m.set f node i e) label := by
  have pages_f : (m.set f node i e).pages f = some (Function.update node i e) := by
    simp [Memory.set]
  have pages_old : ∀ {g}, g ≠ f → (m.set f node i e).pages g = m.pages g :=
    fun h => by simp [Memory.set, Function.update_of_ne h]
  refine ⟨T.forest.edge_congr fun g l hg => ?_, T.nalloc_le, fun g => ?_, T.label_iff, T.root,
    T.depth, fun {g nd} h j => ?_⟩
  · funext j
    by_cases hgf : g = f
    · subst hgf; simp [edge, pages_f, hn, hf, hp]
    · simp [edge, pages_old hgf]
  · by_cases hgf : g = f
    · subst hgf
      simp only [pages_f, Option.some.injEq, exists_eq', true_iff]
      exact T.lt hf
    · rw [pages_old hgf]; exact T.pages_iff g
  · by_cases hgf : g = f
    · subst hgf
      rw [pages_f] at h; cases h
      by_cases hj : j = i
      · subst hj; rw [Function.update_self]; exact he
      · rw [Function.update_of_ne hj]; exact T.entry hn j
    · rw [pages_old hgf] at h; exact T.entry h j

end Tables

end OSCourse.PageTable
