import OSCourse.PageTable.Refine

/-!
# Which tables exist

A history of calls fixes the tables: one for each root, and below it one for each non-empty prefix
of the path of a page that some update mapped.  Unmapping and queries add none.

* `mapped` — the pages that the updates of a history mapped.
* `tableSet` — the labels that a history calls for.
* `Client.Covers` — the forest has exactly these labels; `covers_run`.
* `update_grows` — what an update adds, and what is missing where one fails.
-/

set_option autoImplicit false

namespace OSCourse.PageTable

open Transition

variable {m m' : Memory} {label label' : Label} {mmap : Nat → Bool} {h : List Call} {c c' : Client}

/-- The pages, with their roots, of the updates that map. -/
def mapped : List Call → Finset (BitVec 64 × BitVec 64)
  | [] => ∅
  | .update pt vpn ppn :: h => if ppn = NO_MAPPING then mapped h else insert (pt, vpn) (mapped h)
  | .allocPageFrame :: h => mapped h
  | .query _ _ :: h => mapped h

/-- The labels below the roots: the first `k` indices of a mapped page. -/
def lowerTables (h : List Call) : Finset (Nat × List Nat) :=
  (mapped h ×ˢ Finset.Icc 1 4).image fun x => (x.1.1.toNat, (tablePath x.1.2).take x.2)

/-- The labels of all tables. -/
def tableSet (roots : List (BitVec 64)) (h : List Call) : Finset (Nat × List Nat) :=
  roots.toFinset.image (fun pt => (pt.toNat, [])) ∪ lowerTables h

theorem mem_lowerTables {r : Nat} {q : List Nat} : (r, q) ∈ lowerTables h ↔
    ∃ pt vpn, (pt, vpn) ∈ mapped h ∧ pt.toNat = r ∧ q <+: tablePath vpn ∧ q ≠ [] := by
  simp only [lowerTables, Finset.mem_image, Finset.mem_product, Finset.mem_Icc, Prod.exists,
    Prod.mk.injEq]
  constructor
  · rintro ⟨pt, vpn, k, ⟨hm, h1, h4⟩, hr, rfl⟩
    refine ⟨pt, vpn, hm, hr, List.take_prefix .., fun hnil => ?_⟩
    have hlen := congrArg List.length hnil
    rw [List.length_take, tablePath_length, List.length_nil] at hlen
    omega
  · rintro ⟨pt, vpn, hm, hr, hq, hne⟩
    have hlen := hq.length_le
    rw [tablePath_length] at hlen
    exact ⟨pt, vpn, q.length, ⟨hm, List.length_pos_iff.2 hne, hlen⟩, hr,
      (List.prefix_iff_eq_take.1 hq).symm⟩

theorem mem_tableSet {roots : List (BitVec 64)} {r : Nat} {q : List Nat} :
    (r, q) ∈ tableSet roots h ↔ (∃ pt ∈ roots, pt.toNat = r ∧ q = []) ∨ (r, q) ∈ lowerTables h := by
  simp only [tableSet, Finset.mem_union, Finset.mem_image, List.mem_toFinset, Prod.mk.injEq]
  exact or_congr_left ⟨fun ⟨pt, hpt, hr, hq⟩ => ⟨pt, hpt, hr, hq.symm⟩,
    fun ⟨pt, hpt, hr, hq⟩ => ⟨pt, hpt, hr, hq.symm⟩⟩

/-- A mapping update calls for the tables on its path. -/
theorem mem_lowerTables_update {pt vpn ppn : BitVec 64} (hppn : ppn ≠ NO_MAPPING) {r : Nat}
    {q : List Nat} : (r, q) ∈ lowerTables (.update pt vpn ppn :: h) ↔
      (r = pt.toNat ∧ q <+: tablePath vpn ∧ q ≠ []) ∨ (r, q) ∈ lowerTables h := by
  simp only [mem_lowerTables, mapped, if_neg hppn, Finset.mem_insert, Prod.mk.injEq]
  constructor
  · rintro ⟨pt', vpn', ⟨rfl, rfl⟩ | hm, rfl, hq⟩
    · exact .inl ⟨rfl, hq⟩
    · exact .inr ⟨pt', vpn', hm, rfl, hq⟩
  · rintro (⟨rfl, hq⟩ | ⟨pt', vpn', hm, hr, hq⟩)
    · exact ⟨pt, vpn, .inl ⟨rfl, rfl⟩, rfl, hq⟩
    · exact ⟨pt', vpn', .inr hm, hr, hq⟩

/-! ## What an update adds -/

/-- **An update that maps** adds the missing tables on its path, or an allocation for one of them
fails. -/
theorem update_grows (mmap : Nat → Bool) (T : Tables m label) {pt ppn : BitVec 64}
    (vpn : BitVec 64) (hr : IsRoot label pt) (hppn : ppn ≠ NO_MAPPING) :
    (∃ e m' label' q, pageTableUpdate mmap pt vpn ppn m = .error e ∧ Tables m' label' ∧
      Grows m label m' label' pt.toNat (tablePath vpn) ∧ q <+: tablePath vpn ∧ q ≠ [] ∧
      (∀ g, label' g ≠ some (pt.toNat, q)) ∧ Exhausted mmap m' e) ∨
    ∃ m' label', pageTableUpdate mmap pt vpn ppn m = .ok m' ∧ Tables m' label' ∧
      (∀ f l, label f = some l → label' f = some l) ∧
      ∀ r q, (∃ f, label' f = some (r, q)) ↔
        (r = pt.toNat ∧ q <+: tablePath vpn ∧ q ≠ []) ∨ ∃ f, label f = some (r, q) := by
  have hbase := physToVirt_root T hr
  rcases walk_grows mmap vpn walkLevels T hr rfl with
    ⟨e, m', label', q, hwalk, T', G, hstop⟩ | ⟨g, m', label', hwalk, T', G, hg⟩
  · exact .inl ⟨e, m', label', q, update_error hppn (by rw [hbase]; exact hwalk), T', G, hstop⟩
  · obtain ⟨node, hn⟩ := T'.node hg
    refine .inr ⟨_, label', update_walk hppn (by rw [hbase]; exact hwalk) hn,
      T'.leafWrite hg hn (tablePath_length vpn) (.inr ⟨ppn, rfl⟩), fun _ _ => G.old, fun r q => ?_⟩
    constructor
    · rintro ⟨f, hf⟩
      rcases G.new hf with hf | ⟨q', heq, hq'⟩
      · exact .inr ⟨f, hf⟩
      · cases heq
        exact .inl ⟨rfl, hq'⟩
    · rintro (⟨rfl, ⟨q', hq'⟩, -⟩ | ⟨f, hf⟩)
      · apply T'.forest.ancestor q q' (g := g)
        rw [hq']; exact hg
      · exact ⟨f, G.old hf⟩

/-! ## The invariant -/

/-- The tables under `label` are those that the history calls for. -/
structure Client.Covers (h : List Call) (c : Client) (label : Label) : Prop where
  tables : Tables c.mem label
  roots : ∀ pt ∈ c.roots, IsRoot label pt
  nodup : c.roots.Nodup
  count : c.roots.length = h.count .allocPageFrame
  known : ∀ x ∈ mapped h, x.1 ∈ c.roots
  used : ∀ r q, (∃ f, label f = some (r, q)) ↔ (r, q) ∈ tableSet c.roots h

theorem covers_init : Client.init.Covers [] fun _ => none := by
  refine ⟨Tables.init, nofun, List.nodup_nil, rfl, nofun, fun r q => ?_⟩
  simp [tableSet, lowerTables, mapped, Client.init]

theorem covers_alloc {label : Label} (C : c.Covers h label) (hc : c.call mmap .allocPageFrame = .ok c') :
    ∃ label', c'.Covers (.allocPageFrame :: h) label' := by
  have T := C.tables
  rcases allocPageFrame_cases mmap c.mem with ⟨e, he, -⟩ | ⟨hmax, halloc⟩
  · rw [Client.call, he] at hc; cases hc
  rw [Client.call, halloc] at hc
  cases hc
  have hnat := T.nalloc_toNat
  have hnew := T.next_not_root C.roots
  refine ⟨_, T.alloc hmax, fun pt hpt => ?_, List.nodup_cons.2 ⟨hnew, C.nodup⟩, ?_,
    fun x hx => List.mem_cons_of_mem _ (C.known x hx), fun r q => ?_⟩
  · rcases List.mem_cons.1 hpt with rfl | hpt
    · simp [IsRoot, hnat]
    · exact T.extends_alloc.old (C.roots pt hpt)
  · rw [List.length_cons, List.count_cons_self, C.count]
  · have hold := (C.used r q).trans mem_tableSet
    rw [mem_tableSet]
    constructor
    · rintro ⟨f, hf⟩
      rcases label_cases hf with ⟨-, heq⟩ | hf
      · cases heq
        exact .inl ⟨_, List.mem_cons_self .., hnat, rfl⟩
      · rcases hold.1 ⟨f, hf⟩ with ⟨pt, hpt, h⟩ | hq
        · exact .inl ⟨pt, List.mem_cons_of_mem _ hpt, h⟩
        · exact .inr hq
    · have lift : (∃ f, label f = some (r, q)) →
          ∃ f, Function.update label c.mem.nalloc (some (c.mem.nalloc, [])) f = some (r, q) :=
        Exists.imp fun f hf => T.extends_alloc.old hf
      rintro (⟨pt, hpt, hr, hq⟩ | hq)
      · rcases List.mem_cons.1 hpt with rfl | hpt
        · refine ⟨c.mem.nalloc, ?_⟩
          rw [Function.update_self, ← hr, hnat, hq]
        · exact lift (hold.2 (.inl ⟨pt, hpt, hr, hq⟩))
      · exact lift (hold.2 (.inr hq))

theorem covers_update {label : Label} {pt vpn ppn : BitVec 64} (C : c.Covers h label)
    (hpt : pt ∈ c.roots) (hc : c.call mmap (.update pt vpn ppn) = .ok c') :
    ∃ label', c'.Covers (.update pt vpn ppn :: h) label' := by
  have hcount : c.roots.length = (Call.update pt vpn ppn :: h).count .allocPageFrame := by
    rw [List.count_cons_of_ne (by simp), C.count]
  by_cases hppn : ppn = NO_MAPPING
  · subst hppn
    have hm : mapped (.update pt vpn NO_MAPPING :: h) = mapped h := by simp [mapped]
    have hset : tableSet c.roots (.update pt vpn NO_MAPPING :: h) = tableSet c.roots h := by
      simp only [tableSet, lowerTables, hm]
    rcases unmap_spec mmap C.tables vpn (C.roots pt hpt) with ⟨g, node, hg, hn, hok⟩ | ⟨-, hok⟩
    all_goals
      rw [Client.call, hok] at hc
      cases hc
    · exact ⟨label, C.tables.leafWrite hg hn (tablePath_length vpn) (.inl rfl), C.roots, C.nodup,
        hcount, by rw [hm]; exact C.known, by rw [hset]; exact C.used⟩
    · exact ⟨label, C.tables, C.roots, C.nodup, hcount, by rw [hm]; exact C.known,
        by rw [hset]; exact C.used⟩
  · rcases update_grows mmap C.tables vpn (C.roots pt hpt) hppn with
      ⟨e, _, _, _, he, -⟩ | ⟨m', label', hok, T', hold, hnew⟩
    · rw [Client.call, he] at hc; cases hc
    rw [Client.call, hok] at hc
    cases hc
    refine ⟨label', T', fun pt' hpt' => hold _ _ (C.roots pt' hpt'), C.nodup, hcount,
      fun x hx => ?_, fun r q => ?_⟩
    · rw [mapped, if_neg hppn] at hx
      rcases Finset.mem_insert.1 hx with rfl | hx
      · exact hpt
      · exact C.known x hx
    · rw [hnew, C.used, mem_tableSet, mem_tableSet, mem_lowerTables_update hppn, or_left_comm]

/-- One legal call keeps the tables those of the history. -/
theorem covers_step {a : Call} (C : ∃ label, c.Covers h label) (hs : ClientStep mmap c a c') :
    ∃ label, c'.Covers (a :: h) label := by
  obtain ⟨label, C⟩ := C
  obtain ⟨hleg, hc⟩ := hs
  cases a with
  | allocPageFrame => exact covers_alloc C hc
  | update pt vpn ppn => exact covers_update C hleg hc
  | query pt vpn =>
    have hsame : c' = c := by
      cases hq : pageTableQuery mmap pt vpn c.mem with
      | error e => rw [Client.call, hq] at hc; cases hc
      | ok ppn => rw [Client.call, hq] at hc; cases hc; rfl
    subst hsame
    refine ⟨label, C.tables, C.roots, C.nodup, ?_, C.known, C.used⟩
    rw [List.count_cons_of_ne (by simp), C.count]

theorem covers_run (hr : Run (ClientStep mmap) Client.init h c) : ∃ label, c.Covers h label :=
  hr.historyInvariant (P := fun h c => ∃ label, Client.Covers h c label) ⟨_, covers_init⟩
    fun _ _ _ _ C hs => covers_step C hs

end OSCourse.PageTable
