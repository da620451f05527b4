import OSCourse.PageTable.Growth

/-!
# The tables are disjoint trees

Here the trees are read off memory alone: from a root along words that are not `0`, down to level 5.

* `Reaches` — the table that the words at some indices lead to; the labels are exactly these
  (`Client.Covers.reaches_iff`).
* `DisjointTrees` — well-formed words, allocated tables, and one parent for each table that is no root.
* `Logged` — a computation with the addresses it asked `phys_to_virt` for; `pageTableUpdateAsking`
  and `pageTableQueryAsking` are the two table functions in it.
* `tables_disjoint` — **in every run the tables are disjoint trees, two walks meet only where they
  came the same way, and `phys_to_virt` is asked for allocated frames only**.
-/

set_option autoImplicit false

namespace OSCourse.PageTable

open Transition

variable {m m' : Memory} {label label' : Label} {mmap : Nat → Bool} {h : List Call} {c : Client}

/-! ## The trees in memory -/

/-- The `i`-th word of the table in frame `f` names frame `g`. -/
def Names (m : Memory) (f i g : Nat) : Prop :=
  i < PT_ENTRIES_NUM ∧ ∃ node, m.pages f = some node ∧ node i ≠ 0#64 ∧
    (GET_FRAME_N (node i)).toNat = g

/-- The words at the indices `p` lead from the table in frame `r` to the one in frame `f`, which is
at level `p.length + 1`; the words of level 5 lead to no table. -/
inductive Reaches (m : Memory) (r : Nat) : List Nat → Nat → Prop
  | root : Reaches m r [] r
  | step {p : List Nat} {f i g : Nat} : Reaches m r p f → p.length < 4 → Names m f i g →
      Reaches m r (p ++ [i]) g

/-- The table in frame `f` is at one of the levels 1 to 4. -/
def IsUpper (m : Memory) (roots : List (BitVec 64)) (f : Nat) : Prop :=
  ∃ pt ∈ roots, ∃ p, p.length < 4 ∧ Reaches m pt.toNat p f

def Memory.Allocated (m : Memory) (f : Nat) : Prop := f < m.nalloc ∧ ∃ node, m.pages f = some node

structure DisjointTrees (m : Memory) (roots : List (BitVec 64)) : Prop where
  entry : ∀ {f node}, m.pages f = some node → ∀ i, node i = 0#64 ∨
    ((node i).getLsbD 0 = true ∧ ∀ j, 1 ≤ j → j ≤ 11 → (node i).getLsbD j = false)
  allocated : ∀ {f}, IsUpper m roots f → ∀ i g, Names m f i g → m.Allocated g
  parent : ∀ {g}, m.Allocated g →
    ((∃ pt ∈ roots, pt.toNat = g) ∧ ∀ f i, IsUpper m roots f → ¬Names m f i g) ∨
      ((∀ pt ∈ roots, pt.toNat ≠ g) ∧ ∃! x : Nat × Nat, IsUpper m roots x.1 ∧ Names m x.1 x.2 g)
  meet : ∀ {pt pt' p p' f}, pt ∈ roots → pt' ∈ roots → Reaches m pt.toNat p f →
    Reaches m pt'.toNat p' f → pt = pt' ∧ p = p'

theorem pteOf_bits (n : BitVec 64) :
    (pteOf n).getLsbD 0 = true ∧ ∀ j, 1 ≤ j → j ≤ 11 → (pteOf n).getLsbD j = false := by
  refine ⟨by simp [pteOf], fun j h1 h11 => ?_⟩
  have h12 : j < 12 := by omega
  have h0 : j ≠ 0 := by omega
  simp [pteOf, h12, h0]

namespace Tables

theorem valid_of_ne_zero (T : Tables m label) {f : Nat} {node : PtNode} {i : Nat}
    (hn : m.pages f = some node) (h0 : node i ≠ 0#64) : IS_VALID_PTE (node i) = true := by
  rcases T.entry hn i with h | ⟨n, h⟩
  · exact absurd h h0
  · rw [h, IS_VALID_PTE_pteOf]

theorem allocated (T : Tables m label) {f : Nat} {l : Nat × List Nat} (hf : label f = some l) :
    m.Allocated f :=
  ⟨T.lt hf, T.node hf⟩

theorem label_of_names (T : Tables m label) {f i g r : Nat} {p : List Nat}
    (hf : label f = some (r, p)) (hp : p.length < 4) (hg : Names m f i g) :
    label g = some (r, p ++ [i]) := by
  obtain ⟨-, node, hn, h0, rfl⟩ := hg
  exact T.child hf hn hp (T.valid_of_ne_zero hn h0)

theorem label_of_reaches (T : Tables m label) {r f : Nat} {p : List Nat}
    (hr : label r = some (r, [])) (hf : Reaches m r p f) : label f = some (r, p) := by
  induction hf with
  | root => exact hr
  | step _ hp hg ih => exact T.label_of_names ih hp hg

/-- The word that names a table below a root. -/
theorem names_of_label (T : Tables m label) {g r i : Nat} {p : List Nat}
    (hg : label g = some (r, p ++ [i])) (hi : i < PT_ENTRIES_NUM) :
    p.length < 4 ∧ ∃ f, label f = some (r, p) ∧ Names m f i g := by
  have hp : p.length < 4 := by
    have hlen := T.depth hg
    rw [List.length_append, List.length_singleton] at hlen
    omega
  obtain ⟨f, hf, hedge⟩ := T.forest.parent hg
  obtain ⟨node, hn⟩ := T.node hf
  rw [edge_eq hf hn hp] at hedge
  split at hedge <;> cases hedge
  rename_i hv
  refine ⟨hp, f, hf, hi, node, hn, fun h0 => ?_, rfl⟩
  rw [h0, IS_VALID_PTE_zero] at hv
  cases hv

end Tables

theorem tablePath_lt (vpn : BitVec 64) {i : Nat} (hi : i ∈ tablePath vpn) : i < PT_ENTRIES_NUM := by
  obtain ⟨level, -, rfl⟩ := List.mem_map.1 hi
  exact VPN_I_lt vpn level

namespace Client.Covers

theorem root_mem (C : c.Covers h label) {f r : Nat} {p : List Nat} (hf : label f = some (r, p)) :
    ∃ pt ∈ c.roots, pt.toNat = r := by
  rcases mem_tableSet.1 ((C.used r p).1 ⟨f, hf⟩) with ⟨pt, hpt, hr, -⟩ | hq
  · exact ⟨pt, hpt, hr⟩
  · obtain ⟨pt, vpn, hm, hr, -⟩ := mem_lowerTables.1 hq
    exact ⟨pt, C.known _ hm, hr⟩

theorem index_lt (C : c.Covers h label) {f r i : Nat} {p : List Nat} (hf : label f = some (r, p))
    (hi : i ∈ p) : i < PT_ENTRIES_NUM := by
  rcases mem_tableSet.1 ((C.used r p).1 ⟨f, hf⟩) with ⟨_, _, _, rfl⟩ | hq
  · cases hi
  · obtain ⟨_, vpn, -, -, hpath, -⟩ := mem_lowerTables.1 hq
    exact tablePath_lt vpn (hpath.subset hi)

theorem reaches_of_label (C : c.Covers h label) {r : Nat} {p : List Nat} :
    ∀ {f}, label f = some (r, p) → Reaches c.mem r p f := by
  induction p using List.reverseRecOn with
  | nil =>
    intro f hf
    cases C.tables.forest.inj hf (C.tables.root hf)
    exact .root
  | append_singleton p i ih =>
    intro g hg
    obtain ⟨hp, f, hf, hnames⟩ := C.tables.names_of_label hg (C.index_lt hg (by simp))
    exact (ih hf).step hp hnames

/-- **What memory shows below a root is what the labels say.** -/
theorem reaches_iff (C : c.Covers h label) {pt : BitVec 64} (hpt : pt ∈ c.roots) {p : List Nat}
    {f : Nat} : Reaches c.mem pt.toNat p f ↔ label f = some (pt.toNat, p) :=
  ⟨C.tables.label_of_reaches (C.roots pt hpt), C.reaches_of_label⟩

theorem isUpper_iff (C : c.Covers h label) {f : Nat} :
    IsUpper c.mem c.roots f ↔ ∃ r p, label f = some (r, p) ∧ p.length < 4 := by
  constructor
  · rintro ⟨pt, hpt, p, hp, hf⟩
    exact ⟨_, p, (C.reaches_iff hpt).1 hf, hp⟩
  · rintro ⟨r, p, hf, hp⟩
    obtain ⟨pt, hpt, rfl⟩ := C.root_mem hf
    exact ⟨pt, hpt, p, hp, (C.reaches_iff hpt).2 hf⟩

theorem disjointTrees (C : c.Covers h label) : DisjointTrees c.mem c.roots := by
  have T := C.tables
  refine ⟨fun hn i => ?_, fun hf i g hg => ?_, fun {g} hg => ?_, fun {pt pt' p p' f} hpt hpt' hf hf' => ?_⟩
  · rcases T.entry hn i with h0 | ⟨n, hn⟩
    · exact .inl h0
    · rw [hn]; exact .inr (pteOf_bits n)
  · obtain ⟨r, p, hf, hp⟩ := C.isUpper_iff.1 hf
    exact T.allocated (T.label_of_names hf hp hg)
  · obtain ⟨⟨r, q⟩, hl⟩ := (T.label_iff g).2 hg.1
    cases q using List.reverseRecOn with
    | nil =>
      cases T.forest.inj hl (T.root hl)
      refine .inl ⟨C.root_mem hl, fun f i hf hnames => ?_⟩
      obtain ⟨r, p, hf, hp⟩ := C.isUpper_iff.1 hf
      have h := hl.symm.trans (T.label_of_names hf hp hnames)
      simp at h
    | append_singleton p i =>
      refine .inr ⟨fun pt hpt heq => ?_, ?_⟩
      · have h := C.roots pt hpt
        rw [IsRoot, heq, hl] at h
        simp at h
      · obtain ⟨hp, f, hf, hnames⟩ := T.names_of_label hl (C.index_lt hl (by simp))
        refine ⟨(f, i), ⟨C.isUpper_iff.2 ⟨r, p, hf, hp⟩, hnames⟩, ?_⟩
        rintro ⟨f', i'⟩ ⟨hf', hnames'⟩
        obtain ⟨r', p', hf', hp'⟩ := C.isUpper_iff.1 hf'
        have h := hl.symm.trans (T.label_of_names hf' hp' hnames')
        simp only [Option.some.injEq, Prod.mk.injEq] at h
        obtain ⟨rfl, h⟩ := h
        obtain ⟨rfl, hi⟩ := List.append_inj' h rfl
        cases hi
        cases T.forest.inj hf hf'
        rfl
  · have h := ((C.reaches_iff hpt).1 hf).symm.trans ((C.reaches_iff hpt').1 hf')
    simp only [Option.some.injEq, Prod.mk.injEq] at h
    exact ⟨BitVec.eq_of_toNat_eq h.1, h.2⟩

end Client.Covers

/-! ## The addresses asked of `phys_to_virt` -/

/-- A computation that may stop, with the memory and the address of each call of `phys_to_virt`. -/
structure Logged (α : Type) where
  asked : List (Memory × BitVec 64)
  result : Except Stop α

namespace Logged

variable {α β : Type}

instance : Monad Logged where
  pure a := ⟨[], .ok a⟩
  bind x f :=
    match x.result with
    | .ok a => ⟨x.asked ++ (f a).asked, (f a).result⟩
    | .error e => ⟨x.asked, .error e⟩

instance : MonadLift (Except Stop) Logged := ⟨fun x => ⟨[], x⟩⟩

@[simp] theorem pure_result (a : α) : (pure a : Logged α).result = .ok a := rfl

@[simp] theorem lift_result (x : Except Stop α) :
    (liftM x : Logged α).result = x := rfl

@[simp] theorem bind_result (x : Logged α) (f : α → Logged β) :
    (x >>= f).result = x.result >>= fun a => (f a).result := by
  simp only [bind]
  cases x.result <;> rfl

/-- Every call asked for an allocated frame. -/
def InBounds (x : Logged α) : Prop := ∀ q ∈ x.asked, q.1.Allocated (q.2 >>> 12).toNat

theorem inBounds_pure (a : α) : (pure a : Logged α).InBounds := nofun

theorem inBounds_lift (x : Except Stop α) : (liftM x : Logged α).InBounds := nofun

theorem InBounds.bind {x : Logged α} {f : α → Logged β} (hx : x.InBounds)
    (hf : ∀ a, x.result = .ok a → (f a).InBounds) : (x >>= f).InBounds := by
  intro q hq
  simp only [Bind.bind] at hq
  cases hres : x.result with
  | error e =>
    rw [hres] at hq
    exact hx q hq
  | ok a =>
    rw [hres] at hq
    exact (List.mem_append.1 hq).elim (hx q) (hf a hres q)

end Logged

/-- `phys_to_virt`, on record. -/
def askPhysToVirt (m : Memory) (phys_addr : BitVec 64) : Logged (Option VAddr) :=
  ⟨[(m, phys_addr)], .ok (physToVirt m phys_addr)⟩

@[simp] theorem askPhysToVirt_result (m : Memory) (phys_addr : BitVec 64) :
    (askPhysToVirt m phys_addr).result = pure (physToVirt m phys_addr) := rfl

/-- The loop of `page_walk`, on record. -/
def pageWalkLoopAsking (mmap : Nat → Bool) (vpn : BitVec 64) (allocate : Bool) :
    List Nat → Option VAddr → Memory → Logged (Option (Option VAddr) × Memory)
  | [], curr_pt, m => pure (some curr_pt, m)
  | i :: levels, curr_pt, m => do
    let vpn_i := VPN_I vpn i
    let curr_entry ← m.readEntry curr_pt vpn_i
    if IS_VALID_PTE curr_entry then
      let curr_pt ← askPhysToVirt m (PHYSICAL_ADDR (GET_FRAME_N curr_entry) 0#64)
      pageWalkLoopAsking mmap vpn allocate levels curr_pt m
    else if allocate then
      let (frame_n, m) ← allocPageFrame mmap m
      let curr_entry := SET_VALID (SET_FRAME_N curr_entry frame_n)
      let m ← m.writeEntry curr_pt vpn_i curr_entry
      let curr_pt ← askPhysToVirt m (PHYSICAL_ADDR (GET_FRAME_N curr_entry) 0#64)
      pageWalkLoopAsking mmap vpn allocate levels curr_pt m
    else
      return (none, m)

/-- `page_table_update`, on record. -/
def pageTableUpdateAsking (mmap : Nat → Bool) (pt vpn ppn : BitVec 64) (m : Memory) :
    Logged Memory := do
  let base_pt ← askPhysToVirt m (PHYSICAL_ADDR pt 0#64)
  let allocate := decide (ppn ≠ NO_MAPPING)
  let (target_pt, m) ← pageWalkLoopAsking mmap vpn allocate walkLevels base_pt m
  match target_pt with
  | none => return m
  | some target_pt =>
    let m ← m.writeEntry target_pt (VPN_I vpn TRIE_DEPTH) 0#64
    if allocate then
      let target_entry ← m.readEntry target_pt (VPN_I vpn TRIE_DEPTH)
      m.writeEntry target_pt (VPN_I vpn TRIE_DEPTH) (SET_FRAME_N (SET_VALID target_entry) ppn)
    else return m

/-- `page_table_query`, on record. -/
def pageTableQueryAsking (mmap : Nat → Bool) (pt vpn : BitVec 64) (m : Memory) :
    Logged (BitVec 64) := do
  let base_pt ← askPhysToVirt m (PHYSICAL_ADDR pt 0#64)
  let (target_pt, m) ← pageWalkLoopAsking mmap vpn false walkLevels base_pt m
  match target_pt with
  | none => return NO_MAPPING
  | some target_pt =>
    let target_entry ← m.readEntry target_pt (VPN_I vpn TRIE_DEPTH)
    if IS_VALID_PTE target_entry then return GET_FRAME_N target_entry
    else return NO_MAPPING

theorem pageWalkLoopAsking_result (vpn : BitVec 64) (allocate : Bool) (levels : List Nat)
    (p : Option VAddr) (m : Memory) :
    (pageWalkLoopAsking mmap vpn allocate levels p m).result =
      pageWalkLoop mmap vpn allocate levels p m := by
  induction levels generalizing p m with
  | nil => rfl
  | cons i levels ih =>
    simp only [pageWalkLoopAsking, pageWalkLoop, Logged.bind_result, Logged.lift_result]
    refine bind_congr fun curr_entry => ?_
    split
    · exact ih ..
    · split
      · simp only [Logged.bind_result, Logged.lift_result]
        exact bind_congr fun x => bind_congr fun m => ih ..
      · rfl

/-- **The recorded functions are the functions.** -/
theorem pageTableUpdateAsking_result (pt vpn ppn : BitVec 64) (m : Memory) :
    (pageTableUpdateAsking mmap pt vpn ppn m).result = pageTableUpdate mmap pt vpn ppn m := by
  simp only [pageTableUpdateAsking, pageTableUpdate, pageWalk, Logged.bind_result,
    askPhysToVirt_result, pageWalkLoopAsking_result, pure_bind]
  apply bind_congr
  rintro ⟨target_pt, m⟩
  cases target_pt with
  | none => rfl
  | some target_pt =>
    simp only [Logged.bind_result, Logged.lift_result]
    apply bind_congr
    intro m
    split
    · simp only [Logged.bind_result, Logged.lift_result]
    · rfl

theorem pageTableQueryAsking_result (pt vpn : BitVec 64) (m : Memory) :
    (pageTableQueryAsking mmap pt vpn m).result = pageTableQuery mmap pt vpn m := by
  simp only [pageTableQueryAsking, pageTableQuery, pageWalk, Logged.bind_result,
    askPhysToVirt_result, pageWalkLoopAsking_result, pure_bind]
  apply bind_congr
  rintro ⟨target_pt, m⟩
  cases target_pt with
  | none => rfl
  | some target_pt =>
    simp only [Logged.bind_result, Logged.lift_result]
    refine bind_congr fun target_entry => ?_
    split <;> rfl

theorem inBounds_ask {n : BitVec 64} {f : Nat} (hn : n.toNat % 2 ^ 52 = f) (hf : m.Allocated f) :
    (askPhysToVirt m (PHYSICAL_ADDR n 0#64)).InBounds := by
  intro q hq
  cases List.mem_singleton.1 hq
  rw [PHYSICAL_ADDR_page, hn]
  exact hf

theorem Tables.allocated_mod (T : Tables m label) {f : Nat} (hf : m.Allocated f) :
    f % 2 ^ 52 = f := by
  have h20 : m.nalloc ≤ 2 ^ 20 := T.nalloc_le
  have hlt := hf.1
  omega

/-- **Every step of a walk asks for an allocated frame.** -/
theorem inBounds_walk (mmap : Nat → Bool) (vpn : BitVec 64) (allocate : Bool) :
    ∀ (levels : List Nat) {m : Memory} {label : Label}, Tables m label →
      ∀ {f r : Nat} {p : List Nat}, label f = some (r, p) → p.length + levels.length ≤ 4 →
      (pageWalkLoopAsking mmap vpn allocate levels (tableAt f) m).InBounds := by
  intro levels
  induction levels with
  | nil => exact fun _ _ _ _ _ _ => Logged.inBounds_pure _
  | cons i levels ih =>
    intro m label T f r p hf hlen
    simp only [List.length_cons] at hlen
    have hp : p.length < 4 := by omega
    obtain ⟨node, hn⟩ := T.node hf
    refine (Logged.inBounds_lift _).bind fun curr_entry hread => ?_
    rw [Logged.lift_result, readEntry_frame hn vpn i] at hread
    cases hread
    split
    · rename_i hv
      have hchild := T.child hf hn hp hv
      have hchild' := T.allocated hchild
      refine (inBounds_ask (T.allocated_mod hchild') hchild').bind fun curr_pt hcurr => ?_
      have hcurr : physToVirt m _ = curr_pt := Except.ok.inj hcurr
      rw [← hcurr, T.physToVirt_child hf hn hp hv]
      exact ih T hchild (by simp; omega)
    · rename_i hv
      have hv : IS_VALID_PTE (node (VPN_I vpn i).toNat) = false := by simpa using hv
      split
      · refine (Logged.inBounds_lift _).bind fun x halloc => ?_
        rw [Logged.lift_result] at halloc
        rcases allocPageFrame_spec mmap m with ⟨e, he, -⟩ | ⟨hmax, hok⟩
        · rw [he] at halloc; cases halloc
        rw [hok] at halloc
        cases halloc
        have hne : f ≠ m.nalloc := Nat.ne_of_lt (T.lt hf)
        have T' := T.grow hmax hf hn hp hv
        have hnew : Function.update label m.nalloc (some (r, p ++ [(VPN_I vpn i).toNat])) m.nalloc =
            some (r, p ++ [(VPN_I vpn i).toNat]) := Function.update_self ..
        refine (Logged.inBounds_lift _).bind fun m' hwrite => ?_
        rw [Logged.lift_result, T.zero_of_invalid hn hv, new_entry_eq] at hwrite
        cases (writeEntry_grow hne hn vpn i).symm.trans hwrite
        rw [T.zero_of_invalid hn hv, new_entry_eq]
        have hframe := frame_number (T.nalloc_lt hmax)
        refine (inBounds_ask ?_ (T'.allocated hnew)).bind fun curr_pt hcurr => ?_
        · rw [hframe]
          exact T'.allocated_mod (T'.allocated hnew)
        · have hcurr : physToVirt (m.grow f node (VPN_I vpn i).toNat) _ = curr_pt :=
            Except.ok.inj hcurr
          rw [← hcurr, physToVirt_grow (T.nalloc_lt hmax) hne]
          exact ih T' hnew (by simp; omega)
      · exact Logged.inBounds_pure _

/-- The address of a root, and the walk from it. -/
theorem inBounds_root (T : Tables m label) {pt : BitVec 64} (hr : IsRoot label pt) {α : Type}
    {f : Option (Option VAddr) × Memory → Logged α} (hf : ∀ x, (f x).InBounds) (vpn : BitVec 64)
    (allocate : Bool) : (do
      let base_pt ← askPhysToVirt m (PHYSICAL_ADDR pt 0#64)
      let x ← pageWalkLoopAsking mmap vpn allocate walkLevels base_pt m
      f x).InBounds := by
  have hroot := T.allocated hr
  refine (inBounds_ask (T.allocated_mod hroot) hroot).bind fun base_pt hbase => ?_
  have hbase : physToVirt m _ = base_pt := Except.ok.inj hbase
  rw [← hbase, physToVirt_root T hr]
  exact (inBounds_walk mmap vpn allocate walkLevels T hr le_rfl).bind fun x _ => hf x

theorem inBounds_update (T : Tables m label) {pt : BitVec 64} (hr : IsRoot label pt)
    (vpn ppn : BitVec 64) : (pageTableUpdateAsking mmap pt vpn ppn m).InBounds := by
  refine inBounds_root T hr (fun ⟨target_pt, m⟩ => ?_) vpn (decide (ppn ≠ NO_MAPPING))
  cases target_pt with
  | none => exact Logged.inBounds_pure _
  | some target_pt =>
    refine (Logged.inBounds_lift _).bind fun m _ => ?_
    split
    · exact (Logged.inBounds_lift _).bind fun _ _ => Logged.inBounds_lift _
    · exact Logged.inBounds_pure _

theorem inBounds_query (T : Tables m label) {pt : BitVec 64} (hr : IsRoot label pt)
    (vpn : BitVec 64) : (pageTableQueryAsking mmap pt vpn m).InBounds := by
  refine inBounds_root T hr (fun ⟨target_pt, m⟩ => ?_) vpn false
  cases target_pt with
  | none => exact Logged.inBounds_pure _
  | some target_pt =>
    refine (Logged.inBounds_lift _).bind fun target_entry _ => ?_
    split <;> exact Logged.inBounds_pure _

/-! ## Runs -/

/-- The first `k` levels of a walk from a root end at the table that the first `k` indices of the
page lead to. -/
theorem reaches_of_walk (C : c.Covers h label) {pt : BitVec 64} (hpt : pt ∈ c.roots) {k : Nat}
    (hk : k ≤ 4) {vpn : BitVec 64} {a : Option VAddr} {m' : Memory}
    (hwalk : pageWalkLoop mmap vpn false (walkLevels.take k)
      (physToVirt c.mem (PHYSICAL_ADDR pt 0#64)) c.mem = .ok (some a, m')) :
    ∃ g, a = tableAt g ∧ Reaches c.mem pt.toNat (indices vpn (walkLevels.take k)) g := by
  have hlen : (walkLevels.take k).length = k := List.length_take_of_le hk
  rw [physToVirt_root C.tables (C.roots pt hpt)] at hwalk
  rcases walk_find mmap C.tables vpn (walkLevels.take k) (C.roots pt hpt) (by simp [hlen, hk]) with
    ⟨g, hg, hok⟩ | ⟨-, hok⟩
  · rw [hok] at hwalk
    cases hwalk
    exact ⟨g, rfl, C.reaches_of_label hg⟩
  · rw [hok] at hwalk
    cases hwalk

/-- **The page tables are disjoint trees of allocated frames** in every run without a failing
allocation; two walks reach the same table only from the same root, with the same indices; and
`phys_to_virt` is asked for allocated frames only, by computations that have the results of the two
table functions. -/
theorem tables_disjoint (hr : Run (ClientStep mmap) Client.init h c) :
    DisjointTrees c.mem c.roots ∧
    (∀ pt ∈ c.roots, ∀ pt' ∈ c.roots, ∀ vpn vpn' k k' a m m', k ≤ 4 → k' ≤ 4 →
      pageWalkLoop mmap vpn false (walkLevels.take k)
        (physToVirt c.mem (PHYSICAL_ADDR pt 0#64)) c.mem = .ok (some a, m) →
      pageWalkLoop mmap vpn' false (walkLevels.take k')
        (physToVirt c.mem (PHYSICAL_ADDR pt' 0#64)) c.mem = .ok (some a, m') →
      pt = pt' ∧ k = k' ∧ ∀ i, 1 ≤ i → i ≤ k → VPN_I vpn i = VPN_I vpn' i) ∧
    ∀ pt ∈ c.roots, ∀ vpn ppn,
      ((pageTableUpdateAsking mmap pt vpn ppn c.mem).result = pageTableUpdate mmap pt vpn ppn c.mem ∧
        (pageTableUpdateAsking mmap pt vpn ppn c.mem).InBounds) ∧
      (pageTableQueryAsking mmap pt vpn c.mem).result = pageTableQuery mmap pt vpn c.mem ∧
        (pageTableQueryAsking mmap pt vpn c.mem).InBounds := by
  obtain ⟨label, C⟩ := covers_run hr
  refine ⟨C.disjointTrees, ?_, fun pt hpt vpn ppn =>
    ⟨⟨pageTableUpdateAsking_result .., inBounds_update C.tables (C.roots pt hpt) vpn ppn⟩,
      pageTableQueryAsking_result .., inBounds_query C.tables (C.roots pt hpt) vpn⟩⟩
  intro pt hpt pt' hpt' vpn vpn' k k' a m m' hk hk' hwalk hwalk'
  obtain ⟨g, rfl, hreach⟩ := reaches_of_walk C hpt hk hwalk
  obtain ⟨g', heq, hreach'⟩ := reaches_of_walk C hpt' hk' hwalk'
  cases heq
  obtain ⟨hroot, hpath⟩ := C.disjointTrees.meet hpt hpt' hreach hreach'
  have hkk : k = k' := by
    have hlen := congrArg List.length hpath
    rwa [indices_length, indices_length, List.length_take_of_le hk, List.length_take_of_le hk']
      at hlen
  subst hkk
  refine ⟨hroot, rfl, fun i h1 hik => BitVec.eq_of_toNat_eq ?_⟩
  refine List.map_eq_map_iff.1 hpath i (List.mem_iff_getElem.2 ⟨i - 1, ?_, ?_⟩)
  · rw [List.length_take_of_le hk]; omega
  · simp [walkLevels]; omega

/-- The run of `main` in `os.c` up to its second assertion: five tables. -/
theorem tables_disjoint_main : ∃ c, Run (ClientStep fun _ => true) Client.init
    [.update 0#64 0xcafe#64 0xf00d#64, .allocPageFrame] c ∧ c.mem.nalloc = 5 ∧
      DisjointTrees c.mem c.roots := by
  have hr : Run (ClientStep fun _ => true) Client.init
      [.update 0#64 0xcafe#64 0xf00d#64, .allocPageFrame] _ :=
    .step (.step .nil ⟨trivial, rfl⟩) ⟨List.mem_singleton_self _, rfl⟩
  exact ⟨_, hr, rfl, (tables_disjoint hr).1⟩

end OSCourse.PageTable
