import OSCourse.PageTable.Tables

/-!
# What `page_walk`, `page_table_update` and `page_table_query` do to the tables

* `walk_find` — without allocation the walk returns the table at its label, or `NO_MAPPING` when
  there is none; it changes nothing.
* `walk_grows` — with allocation it returns the table at its label in a forest that grew along the
  path (`Grows`: old tables keep their labels, level-5 tables their words, new ones are empty and
  lie on the path), or an allocation for the path failed.
* `LeafWord` — the level-5 word of a page number; `update_spec` says how an update changes it,
  `query_spec` that a query decodes it.
-/

set_option autoImplicit false

namespace OSCourse.PageTable

variable {m m' : Memory} {label label' : Label} {mmap : Nat → Bool}

/-- The indices that the walk consumes at the given levels. -/
def indices (vpn : BitVec 64) (levels : List Nat) : List Nat :=
  levels.map fun i => (VPN_I vpn i).toNat

@[simp] theorem indices_nil (vpn : BitVec 64) : indices vpn [] = [] := rfl

@[simp] theorem indices_cons (vpn : BitVec 64) (i : Nat) (levels : List Nat) :
    indices vpn (i :: levels) = (VPN_I vpn i).toNat :: indices vpn levels := rfl

@[simp] theorem indices_length (vpn : BitVec 64) (levels : List Nat) :
    (indices vpn levels).length = levels.length := by simp [indices]

/-- The pointer to the table in frame `f`. -/
abbrev tableAt (f : Nat) : Option VAddr := some ⟨f, 0⟩

/-- The address that a valid entry of a table above level 5 leads to. -/
theorem Tables.physToVirt_child (T : Tables m label) {f : Nat} {node : PtNode} {r : Nat}
    {p : List Nat} {i : Nat} (hf : label f = some (r, p)) (hn : m.pages f = some node)
    (hp : p.length < 4) (hv : IS_VALID_PTE (node i) = true) :
    physToVirt m (PHYSICAL_ADDR (GET_FRAME_N (node i)) 0#64) =
      tableAt (GET_FRAME_N (node i)).toNat := by
  have hc := T.child hf hn hp hv
  obtain ⟨cnode, hcn⟩ := T.node hc
  have hlt : (GET_FRAME_N (node i)).toNat < NPAGES := Nat.lt_of_lt_of_le (T.lt hc) T.nalloc_le
  have h20 : (GET_FRAME_N (node i)).toNat < 2 ^ 20 := hlt
  exact physToVirt_frame (by omega) hlt hcn

/-- One level of the walk that finds a table. -/
theorem walk_step (T : Tables m label) {allocate : Bool} {vpn : BitVec 64} {i f r : Nat}
    {levels : List Nat} {node : PtNode} {p : List Nat} (hf : label f = some (r, p))
    (hn : m.pages f = some node) (hp : p.length < 4)
    (hv : IS_VALID_PTE (node (VPN_I vpn i).toNat) = true) :
    pageWalkLoop mmap vpn allocate (i :: levels) (tableAt f) m =
      pageWalkLoop mmap vpn allocate levels
        (tableAt (GET_FRAME_N (node (VPN_I vpn i).toNat)).toNat) m := by
  rw [← T.physToVirt_child hf hn hp hv]
  simp [pageWalkLoop, readEntry_frame hn vpn i, hv, bind, Except.bind]

/-- **The walk without allocation** finds the table at its label. -/
theorem walk_find (mmap : Nat → Bool) (T : Tables m label) (vpn : BitVec 64) :
    ∀ (levels : List Nat) {f r : Nat} {p : List Nat}, label f = some (r, p) →
      p.length + levels.length ≤ 4 →
      (∃ g, label g = some (r, p ++ indices vpn levels) ∧
        pageWalkLoop mmap vpn false levels (tableAt f) m = .ok (some (tableAt g), m)) ∨
      ((∀ g, label g ≠ some (r, p ++ indices vpn levels)) ∧
        pageWalkLoop mmap vpn false levels (tableAt f) m = .ok (none, m)) := by
  intro levels
  induction levels with
  | nil =>
    intro f r p hf _
    exact .inl ⟨f, by simpa using hf, rfl⟩
  | cons i levels ih =>
    intro f r p hf hlen
    simp only [List.length_cons] at hlen
    have hp : p.length < 4 := by omega
    obtain ⟨node, hn⟩ := T.node hf
    have hread := readEntry_frame hn vpn i
    by_cases hv : IS_VALID_PTE (node (VPN_I vpn i).toNat) = true
    · have hnext := ih (T.child hf hn hp hv) (by simp; omega)
      rw [walk_step T hf hn hp hv, indices_cons]
      simpa using hnext
    · have hv : IS_VALID_PTE (node (VPN_I vpn i).toNat) = false := by simpa using hv
      refine .inr ⟨fun g => ?_, ?_⟩
      · rw [indices_cons]
        exact T.forest.no_descendant hf (by simp [Tables.edge_eq hf hn hp, hv]) g _
      · simp [pageWalkLoop, hread, hv, bind, Except.bind, pure, Except.pure]

/-- What allocating walks leave unchanged. -/
structure Extends (m : Memory) (label : Label) (m' : Memory) (label' : Label) : Prop where
  old : ∀ {f l}, label f = some l → label' f = some l
  leaf : ∀ {f r p}, label f = some (r, p) → p.length = 4 → m'.pages f = m.pages f
  fresh : ∀ {f r p}, label f = none → label' f = some (r, p) → p.length = 4 →
    m'.pages f = some fun _ => 0#64

theorem Extends.refl (m : Memory) (label : Label) : Extends m label m label :=
  ⟨id, fun _ _ => rfl, fun h h' => by rw [h] at h'; cases h'⟩

theorem Extends.trans {m₁ m₂ m₃ : Memory} {l₁ l₂ l₃ : Label} (h : Extends m₁ l₁ m₂ l₂)
    (h' : Extends m₂ l₂ m₃ l₃) : Extends m₁ l₁ m₃ l₃ := by
  refine ⟨fun hf => h'.old (h.old hf), fun hf hp => ?_, fun {f r p} h1 h3 hp => ?_⟩
  · rw [h'.leaf (h.old hf) hp, h.leaf hf hp]
  · cases h2 : l₂ f with
    | none => exact h'.fresh h2 h3 hp
    | some l =>
      rw [h'.old h2] at h3; cases h3
      rw [h'.leaf h2 hp, h.fresh h1 h2 hp]

theorem Tables.extends_grow (T : Tables m label) {f : Nat} {node : PtNode} {r : Nat}
    {p : List Nat} {i : Nat} (hf : label f = some (r, p)) (hp : p.length < 4) :
    Extends m label (m.grow f node i)
      (Function.update label m.nalloc (some (r, p ++ [i]))) := by
  refine ⟨fun {g l} hg => ?_, fun {g s q} hg hq => ?_, fun {g s q} hg hg' hq => ?_⟩
  · exact T.label_old hg
  · have hgf : g ≠ f := by rintro rfl; rw [hf] at hg; cases hg; omega
    simp [Memory.grow, Function.update_of_ne hgf,
      Function.update_of_ne (Nat.ne_of_lt (T.lt hg))]
  · rcases label_cases hg' with ⟨rfl, -⟩ | hg'
    · have hne : m.nalloc ≠ f := (Nat.ne_of_lt (T.lt hf)).symm
      simp [Memory.grow, Function.update_of_ne hne]
    · rw [hg] at hg'; cases hg'

/-- The pointer to a table that was just hung into the forest. -/
theorem physToVirt_grow (hlt : m.nalloc < NPAGES) {f : Nat} (hne : f ≠ m.nalloc) (node : PtNode)
    (i : Nat) :
    physToVirt (m.grow f node i)
      (PHYSICAL_ADDR (GET_FRAME_N (pteOf (BitVec.ofNat 64 m.nalloc))) 0#64) = tableAt m.nalloc := by
  have h20 : m.nalloc < 2 ^ 20 := hlt
  have hpage : (m.grow f node i).pages m.nalloc = some fun _ => 0#64 := by
    simp [Memory.grow, Function.update_of_ne hne.symm]
  exact physToVirt_frame (by rw [frame_number hlt]; omega) hlt hpage

/-- Hanging a fresh table into the forest. -/
theorem writeEntry_grow {f : Nat} {node : PtNode} (hne : f ≠ m.nalloc) (hn : m.pages f = some node)
    (vpn : BitVec 64) (i : Nat) :
    Memory.writeEntry ⟨m.nalloc + 1, Function.update m.pages m.nalloc (some fun _ => 0#64)⟩
        (tableAt f) (VPN_I vpn i) (pteOf (BitVec.ofNat 64 m.nalloc)) =
      .ok (m.grow f node (VPN_I vpn i).toNat) := by
  have hpage : Function.update m.pages m.nalloc (some fun _ => 0#64) f = some node := by
    rw [Function.update_of_ne hne, hn]
  rw [writeEntry_frame hpage]
  rfl

theorem Tables.zero_of_invalid (T : Tables m label) {f : Nat} {node : PtNode} {i : Nat}
    (hn : m.pages f = some node) (hv : IS_VALID_PTE (node i) = false) : node i = 0#64 := by
  rcases T.entry hn i with h | ⟨n, h⟩
  · exact h
  · rw [h, IS_VALID_PTE_pteOf] at hv; cases hv

theorem Tables.nalloc_lt (T : Tables m label) (hmax : m.nalloc ≠ NPAGES) : m.nalloc < NPAGES := by
  have := T.nalloc_le
  omega

/-- One level of the walk that has to allocate. -/
theorem walk_grow (T : Tables m label) (hmax : m.nalloc ≠ NPAGES)
    (halloc : allocPageFrame mmap m = .ok (BitVec.ofNat 64 m.nalloc,
      ⟨m.nalloc + 1, Function.update m.pages m.nalloc (some fun _ => 0#64)⟩))
    {vpn : BitVec 64} {i f r : Nat} {levels : List Nat} {node : PtNode} {p : List Nat}
    (hf : label f = some (r, p)) (hn : m.pages f = some node)
    (hv : IS_VALID_PTE (node (VPN_I vpn i).toNat) = false) :
    pageWalkLoop mmap vpn true (i :: levels) (tableAt f) m =
      pageWalkLoop mmap vpn true levels (tableAt m.nalloc) (m.grow f node (VPN_I vpn i).toNat) := by
  have hne : f ≠ m.nalloc := Nat.ne_of_lt (T.lt hf)
  have hzero := T.zero_of_invalid hn hv
  have hwrite := writeEntry_grow hne hn vpn i
  have hphys := physToVirt_grow (T.nalloc_lt hmax) hne node (VPN_I vpn i).toNat
  simp [pageWalkLoop, readEntry_frame hn, bind, Except.bind, halloc, hzero, IS_VALID_PTE_zero,
    new_entry_eq, hwrite, hphys]

/-- What a walk along `path` from the root `r` adds: tables on that path. -/
structure Grows (m : Memory) (label : Label) (m' : Memory) (label' : Label) (r : Nat)
    (path : List Nat) : Prop extends Extends m label m' label' where
  new : ∀ {g l}, label' g = some l → label g = some l ∨ ∃ q, l = (r, q) ∧ q <+: path ∧ q ≠ []

theorem Grows.refl (m : Memory) (label : Label) (r : Nat) (path : List Nat) :
    Grows m label m label r path :=
  ⟨Extends.refl m label, .inl⟩

theorem Grows.trans {m₁ m₂ m₃ : Memory} {l₁ l₂ l₃ : Label} {r : Nat} {path : List Nat}
    (h : Grows m₁ l₁ m₂ l₂ r path) (h' : Grows m₂ l₂ m₃ l₃ r path) : Grows m₁ l₁ m₃ l₃ r path :=
  ⟨h.toExtends.trans h'.toExtends, fun hg => (h'.new hg).elim h.new .inr⟩

theorem Tables.grows_grow (T : Tables m label) (node : PtNode) {f r : Nat} {p path : List Nat}
    {i : Nat} (hf : label f = some (r, p)) (hp : p.length < 4) (hpath : p ++ [i] <+: path) :
    Grows m label (m.grow f node i) (Function.update label m.nalloc (some (r, p ++ [i]))) r path := by
  refine ⟨T.extends_grow hf hp, fun hg => ?_⟩
  rcases label_cases hg with ⟨-, rfl⟩ | hg
  · exact .inr ⟨_, rfl, hpath, by simp⟩
  · exact .inl hg

/-- **The walk with allocation**: the table at the label is returned, or an allocation fails for a
table on the path; tables on the path were added. -/
theorem walk_grows (mmap : Nat → Bool) (vpn : BitVec 64) :
    ∀ (levels : List Nat) {m : Memory} {label : Label}, Tables m label →
      ∀ {f r : Nat} {p : List Nat}, label f = some (r, p) → p.length + levels.length = 4 →
      (∃ e m' label' q, pageWalkLoop mmap vpn true levels (tableAt f) m = .error e ∧
        Tables m' label' ∧ Grows m label m' label' r (p ++ indices vpn levels) ∧
        q <+: p ++ indices vpn levels ∧ q ≠ [] ∧ (∀ g, label' g ≠ some (r, q)) ∧
        Exhausted mmap m' e) ∨
      ∃ g m' label', pageWalkLoop mmap vpn true levels (tableAt f) m =
          .ok (some (tableAt g), m') ∧
        Tables m' label' ∧ Grows m label m' label' r (p ++ indices vpn levels) ∧
        label' g = some (r, p ++ indices vpn levels) := by
  intro levels
  induction levels with
  | nil =>
    intro m label T f r p hf _
    exact .inr ⟨f, m, label, rfl, T, Grows.refl .., by simpa using hf⟩
  | cons i levels ih =>
    intro m label T f r p hf hlen
    simp only [List.length_cons] at hlen
    have hp : p.length < 4 := by omega
    have happ : ∀ k : Nat, p ++ k :: indices vpn levels = p ++ [k] ++ indices vpn levels := by simp
    obtain ⟨node, hn⟩ := T.node hf
    rw [indices_cons, happ]
    by_cases hv : IS_VALID_PTE (node (VPN_I vpn i).toNat) = true
    · rw [walk_step T hf hn hp hv]
      exact ih T (T.child hf hn hp hv) (by simp; omega)
    · have hv : IS_VALID_PTE (node (VPN_I vpn i).toNat) = false := by simpa using hv
      rcases allocPageFrame_spec mmap m with ⟨e, he, hstop⟩ | ⟨hmax, halloc⟩
      · refine .inl ⟨e, m, label, p ++ [(VPN_I vpn i).toNat], ?_, T, Grows.refl ..,
          List.prefix_append .., by simp, fun g => ?_, hstop⟩
        · simp [pageWalkLoop, readEntry_frame hn vpn i, hv, he, bind, Except.bind]
        · exact T.forest.no_descendant hf (by simp [Tables.edge_eq hf hn hp, hv]) g []
      · rw [walk_grow T hmax halloc hf hn hv]
        have G := T.grows_grow node hf hp
          (List.prefix_append (p ++ [(VPN_I vpn i).toNat]) (indices vpn levels))
        rcases ih (T.grow hmax hf hn hp hv) (Function.update_self ..) (by simp; omega) with
          ⟨e, m', label', q, herr, T', G', hstop⟩ | ⟨g, m', label', hok, T', G', hg⟩
        · exact .inl ⟨e, m', label', q, herr, T', G.trans G', hstop⟩
        · exact .inr ⟨g, m', label', hok, T', G.trans G', hg⟩

/-- The walk with allocation: an allocation fails, or the table at the label is returned in an
extended forest. -/
theorem walk_alloc (mmap : Nat → Bool) (vpn : BitVec 64) (levels : List Nat) {m : Memory}
    {label : Label} (T : Tables m label) {f r : Nat} {p : List Nat} (hf : label f = some (r, p))
    (hlen : p.length + levels.length = 4) :
      (∃ e, pageWalkLoop mmap vpn true levels (tableAt f) m = .error e ∧
        (e = .outOfPhysicalMemory ∨ e = .mmapFailed)) ∨
      ∃ g m' label', pageWalkLoop mmap vpn true levels (tableAt f) m =
          .ok (some (tableAt g), m') ∧
        Tables m' label' ∧ Extends m label m' label' ∧
        label' g = some (r, p ++ indices vpn levels) := by
  rcases walk_grows mmap vpn levels T hf hlen with
    ⟨e, _, _, _, he, _, _, _, _, _, hstop⟩ | ⟨g, m', label', hok, T', G, hg⟩
  · exact .inl ⟨e, he, hstop.imp And.left And.left⟩
  · exact .inr ⟨g, m', label', hok, T', G.toExtends, hg⟩

/-! ## The level-5 word of a page -/

/-- The path of the level-5 table. -/
def tablePath (vpn : BitVec 64) : List Nat := indices vpn walkLevels

/-- The index in the level-5 table. -/
def leafIndex (vpn : BitVec 64) : Nat := (VPN_I vpn TRIE_DEPTH).toNat

theorem tablePath_length (vpn : BitVec 64) : (tablePath vpn).length = 4 := by
  rw [tablePath, indices_length]; rfl

theorem path_eq_iff (v w : BitVec 64) :
    (tablePath v = tablePath w ∧ leafIndex v = leafIndex w) ↔
      v.toNat % 2 ^ 45 = w.toNat % 2 ^ 45 := by
  rw [← indices_eq_iff]
  have hlev : walkLevels = [1, 2, 3, 4] := rfl
  have hdep : TRIE_DEPTH = 5 := rfl
  simp only [tablePath, leafIndex, hlev, hdep, indices_cons, indices_nil, List.cons.injEq,
    and_true, ← BitVec.toNat_inj]
  constructor
  · rintro ⟨⟨h1, h2, h3, h4⟩, h5⟩ i hi1 hi5
    obtain rfl | rfl | rfl | rfl | rfl : i = 1 ∨ i = 2 ∨ i = 3 ∨ i = 4 ∨ i = 5 := by omega
    all_goals assumption
  · intro h
    exact ⟨⟨h 1 (by decide) (by decide), h 2 (by decide) (by decide), h 3 (by decide) (by decide),
      h 4 (by decide) (by decide)⟩, h 5 (by decide) (by decide)⟩

/-- The word for path `q` and index `i` below root `r` is `e`; it counts as `0` where the table
does not exist. -/
def LeafWord (m : Memory) (label : Label) (r : Nat) (q : List Nat) (i : Nat) (e : PtEntry) : Prop :=
  (∃ g node, label g = some (r, q) ∧ m.pages g = some node ∧ node i = e) ∨
    (∀ g, label g ≠ some (r, q)) ∧ e = 0#64

/-- Growing the forest changes no word of level 5. -/
theorem LeafWord.extend {r : Nat} {q : List Nat} {i : Nat} {e : PtEntry} (hq : q.length = 4)
    (E : Extends m label m' label') (h : LeafWord m label r q i e) :
    LeafWord m' label' r q i e := by
  rcases h with ⟨g, node, hg, hn, he⟩ | ⟨hno, rfl⟩
  · exact .inl ⟨g, node, E.old hg, by rw [E.leaf hg hq, hn], he⟩
  · by_cases hex : ∃ g, label' g = some (r, q)
    · obtain ⟨g, hg⟩ := hex
      have hnew : label g = none := by
        cases hl : label g with
        | none => rfl
        | some l => rw [E.old hl] at hg; cases hg; exact absurd hl (hno g)
      exact .inl ⟨g, _, hg, E.fresh hnew hg hq, rfl⟩
    · exact .inr ⟨fun g hg => hex ⟨g, hg⟩, rfl⟩

/-- Writing one word of level 5 changes that word and no other. -/
theorem LeafWord.set (T : Tables m label) {f s r : Nat} {p q : List Nat} {j i : Nat}
    {node : PtNode} {e e' : PtEntry} (hf : label f = some (s, p)) (hn : m.pages f = some node)
    (h : LeafWord m label r q i e) :
    LeafWord (m.set f node j e') label r q i (if r = s ∧ q = p ∧ i = j then e' else e) := by
  rcases h with ⟨g, gnode, hg, hgn, he⟩ | ⟨hno, rfl⟩
  · refine .inl ⟨g, ?_⟩
    by_cases hgf : g = f
    · subst hgf
      rw [hf] at hg; cases hg
      rw [hn] at hgn; cases hgn
      refine ⟨Function.update node j e', hf, by simp [Memory.set], ?_⟩
      by_cases hij : i = j
      · subst hij; simp
      · simp [hij, he]
    · refine ⟨gnode, hg, by simp [Memory.set, Function.update_of_ne hgf, hgn], ?_⟩
      rw [if_neg, he]
      rintro ⟨rfl, rfl, -⟩
      exact hgf (T.forest.inj hg hf)
  · refine .inr ⟨hno, ?_⟩
    rw [if_neg]
    rintro ⟨rfl, rfl, -⟩
    exact hno f hf

/-- The answer that a level-5 word stands for. -/
def decodeLeaf (e : PtEntry) : BitVec 64 :=
  if IS_VALID_PTE e = true then GET_FRAME_N e else NO_MAPPING

/-- A frame returned by `alloc_page_frame` for a root. -/
def IsRoot (label : Label) (pt : BitVec 64) : Prop := label pt.toNat = some (pt.toNat, [])

/-- The next frame is no root. -/
theorem Tables.next_not_root (T : Tables m label) {roots : List (BitVec 64)}
    (hroots : ∀ pt ∈ roots, IsRoot label pt) : BitVec.ofNat 64 m.nalloc ∉ roots := by
  intro hm
  have hlt := T.lt (hroots _ hm)
  rw [T.nalloc_toNat] at hlt
  exact Nat.lt_irrefl _ hlt

theorem physToVirt_root (T : Tables m label) {pt : BitVec 64} (hr : IsRoot label pt) :
    physToVirt m (PHYSICAL_ADDR pt 0#64) = tableAt pt.toNat := by
  obtain ⟨node, hn⟩ := T.node hr
  have hlt : pt.toNat < NPAGES := Nat.lt_of_lt_of_le (T.lt hr) T.nalloc_le
  have h20 : pt.toNat < 2 ^ 20 := hlt
  exact physToVirt_frame (by omega) hlt hn

/-- **A query decodes the level-5 word of its page.** -/
theorem query_spec (T : Tables m label) {pt vpn : BitVec 64} (hr : IsRoot label pt) {e : PtEntry}
    (hw : LeafWord m label pt.toNat (tablePath vpn) (leafIndex vpn) e) :
    pageTableQuery mmap pt vpn m = .ok (decodeLeaf e) := by
  have hbase := physToVirt_root T hr
  rcases walk_find mmap T vpn walkLevels hr le_rfl with ⟨g, hg, hwalk⟩ | ⟨hno, hwalk⟩
  · rcases hw with ⟨g', node, hg', hn, he⟩ | ⟨hno, -⟩
    · cases T.forest.inj hg hg'
      have hread := readEntry_frame hn vpn TRIE_DEPTH
      change m.readEntry _ _ = .ok (node (leafIndex vpn)) at hread
      rw [he] at hread
      simp only [pageTableQuery, hbase, pageWalk, hwalk, bind, Except.bind, hread, decodeLeaf]
      split <;> rfl
    · exact absurd hg (hno g)
  · rcases hw with ⟨g, node, hg, -, -⟩ | ⟨-, rfl⟩
    · exact absurd hg (hno g)
    · simp [pageTableQuery, hbase, pageWalk, hwalk, bind, Except.bind, pure, Except.pure,
        decodeLeaf, IS_VALID_PTE_zero]

/-- The level-5 word that an update leaves. -/
def updatedWord (ppn : BitVec 64) : PtEntry := if ppn = NO_MAPPING then 0#64 else pteOf ppn

/-- An update that finds or makes the level-5 table of its page. -/
theorem update_walk {pt vpn ppn : BitVec 64} (hppn : ppn ≠ NO_MAPPING) {g : Nat} {node : PtNode}
    (hwalk : pageWalk mmap (physToVirt m (PHYSICAL_ADDR pt 0#64)) vpn true m =
      .ok (some (tableAt g), m')) (hn : m'.pages g = some node) :
    pageTableUpdate mmap pt vpn ppn m = .ok (m'.set g node (leafIndex vpn) (pteOf ppn)) := by
  have hset : (m'.set g node (leafIndex vpn) 0#64).pages g =
      some (Function.update node (leafIndex vpn) 0#64) := by simp [Memory.set]
  have hread := readEntry_frame hset vpn TRIE_DEPTH
  change _ = Except.ok (Function.update node (leafIndex vpn) 0#64 (leafIndex vpn)) at hread
  rw [Function.update_self] at hread
  have hwrite := writeEntry_frame hn vpn TRIE_DEPTH 0#64
  change _ = Except.ok (m'.set g node (leafIndex vpn) 0#64) at hwrite
  have hwrite' := writeEntry_frame hset vpn TRIE_DEPTH (pteOf ppn)
  change _ = Except.ok ((m'.set g node (leafIndex vpn) 0#64).set g _ (leafIndex vpn) _) at hwrite'
  simp only [pageTableUpdate, ne_eq, hppn, not_false_eq_true, decide_true, hwalk, bind, Except.bind,
    hwrite, hread, leaf_entry_eq, hwrite', if_true]
  simp [Memory.set]

/-- An update whose walk stops the program. -/
theorem update_error {pt vpn ppn : BitVec 64} (hppn : ppn ≠ NO_MAPPING) {e : Stop}
    (hwalk : pageWalk mmap (physToVirt m (PHYSICAL_ADDR pt 0#64)) vpn true m = .error e) :
    pageTableUpdate mmap pt vpn ppn m = .error e := by
  simp [pageTableUpdate, hppn, hwalk, bind, Except.bind]

/-- Unmapping clears the level-5 word of a page, if its table exists. -/
theorem unmap_spec (mmap : Nat → Bool) (T : Tables m label) {pt : BitVec 64} (vpn : BitVec 64)
    (hr : IsRoot label pt) :
    (∃ g node, label g = some (pt.toNat, tablePath vpn) ∧ m.pages g = some node ∧
      pageTableUpdate mmap pt vpn NO_MAPPING m = .ok (m.set g node (leafIndex vpn) 0#64)) ∨
    ((∀ g, label g ≠ some (pt.toNat, tablePath vpn)) ∧
      pageTableUpdate mmap pt vpn NO_MAPPING m = .ok m) := by
  have hbase := physToVirt_root T hr
  rcases walk_find mmap T vpn walkLevels hr le_rfl with ⟨g, hg, hwalk⟩ | ⟨hno, hwalk⟩
  · obtain ⟨node, hn⟩ := T.node hg
    refine .inl ⟨g, node, hg, hn, ?_⟩
    simp [pageTableUpdate, hbase, pageWalk, hwalk, bind, Except.bind, pure, Except.pure,
      writeEntry_frame hn, leafIndex]
  · refine .inr ⟨hno, ?_⟩
    simp [pageTableUpdate, hbase, pageWalk, hwalk, bind, Except.bind, pure, Except.pure]

/-- **An update sets the level-5 word of its page and keeps every other one.** -/
theorem update_spec (mmap : Nat → Bool) (T : Tables m label) {pt : BitVec 64}
    (vpn ppn : BitVec 64) (hr : IsRoot label pt) :
    (∃ e, pageTableUpdate mmap pt vpn ppn m = .error e ∧
      (e = .outOfPhysicalMemory ∨ e = .mmapFailed)) ∨
    ∃ m' label', pageTableUpdate mmap pt vpn ppn m = .ok m' ∧ Tables m' label' ∧
      (∀ f l, label f = some l → label' f = some l) ∧
      ∀ r q i e, q.length = 4 → LeafWord m label r q i e →
        LeafWord m' label' r q i
          (if r = pt.toNat ∧ q = tablePath vpn ∧ i = leafIndex vpn then updatedWord ppn else e) := by
  have hbase := physToVirt_root T hr
  by_cases hppn : ppn = NO_MAPPING
  · -- unmapping: the walk does not allocate
    subst hppn
    refine .inr ?_
    rw [updatedWord, if_pos rfl]
    rcases unmap_spec mmap T vpn hr with ⟨g, node, hg, hn, hok⟩ | ⟨hno, hok⟩
    · exact ⟨_, label, hok, T.leafWrite hg hn (tablePath_length vpn) (.inl rfl), fun _ _ => id,
        fun r q i e _ hw => hw.set T hg hn⟩
    · refine ⟨m, label, hok, T, fun _ _ => id, fun r q i e _ hw => ?_⟩
      split
      · rename_i h
        obtain ⟨rfl, rfl, rfl⟩ := h
        exact .inr ⟨hno, rfl⟩
      · exact hw
  · rcases walk_alloc mmap vpn walkLevels T hr rfl with
      ⟨e, he, hstop⟩ | ⟨g, m', label', hwalk, T', E, hg⟩
    · exact .inl ⟨e, update_error hppn (by rw [hbase]; exact he), hstop⟩
    · obtain ⟨node, hn⟩ := T'.node hg
      refine .inr ⟨_, label', update_walk hppn (by rw [hbase]; exact hwalk) hn,
        T'.leafWrite hg hn (tablePath_length vpn) (.inr ⟨ppn, rfl⟩), fun _ _ => E.old,
        fun r q i e hq hw => ?_⟩
      rw [updatedWord, if_neg hppn]
      exact (hw.extend hq E).set T' hg hn

end OSCourse.PageTable
