import OSCourse.PageTable.Trees

/-!
# How much memory the tables take

The counter of `alloc_page_frame` is the number of roots and of distinct prefixes, of one to four
indices, of the pages that updates mapped.

* `footprint` — that number, from the history alone.
* `card_tableSet` — it counts the labels that the history calls for.
* `stops_iff` — a call runs out of memory exactly if the number would exceed `NPAGES`.
* `footprint_exact` — **the counter is the footprint, unmapping and queries allocate nothing and
  change at most one word of level 5, and the program stops exactly where memory would not do**.
-/

set_option autoImplicit false

namespace OSCourse.PageTable

open Transition

variable {m m' : Memory} {label label' : Label} {mmap : Nat → Bool} {h : List Call} {c c' : Client}

/-- Bits 44 down to `45 - 9 k`. -/
def vpnPrefix (vpn : BitVec 64) (k : Nat) : Nat := (vpn.extractLsb' (45 - 9 * k) (9 * k)).toNat

/-- The roots, the numbers of levels and the upper bits of the pages that updates mapped. -/
def prefixes (h : List Call) : Finset (BitVec 64 × Nat × Nat) :=
  (mapped h ×ˢ Finset.Icc 1 4).image fun x => (x.1.1, x.2, vpnPrefix x.1.2 x.2)

/-- The frames that a history needs. -/
def footprint (h : List Call) : Nat := h.count .allocPageFrame + (prefixes h).card

/-! ## Counting labels -/

theorem vpnPrefix_eq (vpn : BitVec 64) (k : Nat) :
    vpnPrefix vpn k = vpn.toNat / 2 ^ (45 - 9 * k) % 2 ^ (9 * k) := by
  rw [vpnPrefix, BitVec.extractLsb'_toNat, Nat.shiftRight_eq_div_pow]

/-- Two pages have their first `k` indices in common iff they agree on these bits. -/
theorem take_tablePath_eq_iff {v w : BitVec 64} {k : Nat} (hk : 1 ≤ k ∧ k ≤ 4) :
    (tablePath v).take k = (tablePath w).take k ↔ vpnPrefix v k = vpnPrefix w k := by
  have hlev : walkLevels = [1, 2, 3, 4] := rfl
  simp only [vpnPrefix_eq, tablePath, hlev, indices_cons, indices_nil, VPN_I_toNat]
  obtain rfl | rfl | rfl | rfl : k = 1 ∨ k = 2 ∨ k = 3 ∨ k = 4 := by omega
  all_goals simp only [List.take_succ_cons, List.take_zero, List.cons.injEq, and_true,
    Nat.reduceMul, Nat.reduceSub, Nat.reducePow]
  all_goals omega

/-- Two functions that identify the same elements have images of one size. -/
theorem card_image_congr {α β γ : Type*} [DecidableEq β] [DecidableEq γ] (s : Finset α) (f : α → β)
    (g : α → γ) (hfg : ∀ x ∈ s, ∀ y ∈ s, f x = f y ↔ g x = g y) :
    (s.image f).card = (s.image g).card := by
  classical
  induction s using Finset.induction_on with
  | empty => rfl
  | insert x s _ ih =>
    have hs : ∀ y ∈ s, y ∈ insert x s := fun y => Finset.mem_insert_of_mem
    have hmem : f x ∈ s.image f ↔ g x ∈ s.image g := by
      simp only [Finset.mem_image]
      exact exists_congr fun y => and_congr_right fun hy =>
        hfg y (hs y hy) x (Finset.mem_insert_self ..)
    have ih := ih fun y hy z hz => hfg y (hs y hy) z (hs z hz)
    rw [Finset.image_insert, Finset.image_insert]
    by_cases hx : f x ∈ s.image f
    · rw [Finset.insert_eq_of_mem hx, Finset.insert_eq_of_mem (hmem.1 hx), ih]
    · rw [Finset.card_insert_of_notMem hx, Finset.card_insert_of_notMem (mt hmem.2 hx), ih]

theorem card_lowerTables (h : List Call) : (lowerTables h).card = (prefixes h).card := by
  refine card_image_congr _ _ _ fun ⟨⟨pt, vpn⟩, k⟩ hx ⟨⟨pt', vpn'⟩, k'⟩ hx' => ?_
  simp only [Finset.mem_product, Finset.mem_Icc] at hx hx'
  simp only [Prod.mk.injEq, BitVec.toNat_inj]
  constructor
  · rintro ⟨rfl, hpath⟩
    have hlen := congrArg List.length hpath
    simp only [List.length_take, tablePath_length] at hlen
    have hk : k = k' := by omega
    subst hk
    exact ⟨rfl, rfl, (take_tablePath_eq_iff hx.2).1 hpath⟩
  · rintro ⟨rfl, rfl, hbits⟩
    exact ⟨rfl, (take_tablePath_eq_iff hx.2).2 hbits⟩

theorem card_tableSet {roots : List (BitVec 64)} (hnodup : roots.Nodup) (h : List Call) :
    (tableSet roots h).card = roots.length + (prefixes h).card := by
  have hinj : Function.Injective fun pt : BitVec 64 => (pt.toNat, ([] : List Nat)) :=
    fun pt pt' heq => BitVec.eq_of_toNat_eq (Prod.mk.inj heq).1
  rw [tableSet, Finset.card_union_of_disjoint, Finset.card_image_of_injective _ hinj,
    List.toFinset_card_of_nodup hnodup, card_lowerTables]
  rw [Finset.disjoint_left]
  rintro ⟨r, q⟩ hroot hlower
  obtain ⟨pt, -, heq⟩ := Finset.mem_image.1 hroot
  obtain ⟨_, _, -, -, -, hne⟩ := mem_lowerTables.1 hlower
  exact hne (Prod.mk.inj heq).2.symm

/-- Every allocated frame has its own label. -/
theorem Tables.nalloc_eq (T : Tables m label) (labels : Finset (Nat × List Nat))
    (hlabels : ∀ l, l ∈ labels ↔ ∃ f, label f = some l) : m.nalloc = labels.card := by
  rw [← T.forest.card_eq (Finset.range m.nalloc) labels (fun f => ?_) hlabels, Finset.card_range]
  rw [Finset.mem_range, T.label_iff]

/-- While a table that is called for is missing, there are fewer frames than tables called for. -/
theorem Tables.nalloc_lt_card (T : Tables m label) {labels : Finset (Nat × List Nat)}
    (hsub : ∀ f l, label f = some l → l ∈ labels) {l : Nat × List Nat} (hl : l ∈ labels)
    (hmissing : ∀ f, label f ≠ some l) : m.nalloc < labels.card := by
  classical
  rw [T.nalloc_eq (labels.filter fun l => ∃ f, label f = some l) fun l => ?_]
  · refine Finset.card_lt_card (Finset.filter_ssubset.2 ⟨l, hl, ?_⟩)
    exact fun ⟨f, hf⟩ => hmissing f hf
  · rw [Finset.mem_filter]
    exact ⟨And.right, fun hf => ⟨hf.elim fun f => hsub f l, hf⟩⟩

theorem Client.Covers.nalloc_eq (C : c.Covers h label) : c.mem.nalloc = footprint h := by
  rw [C.tables.nalloc_eq (tableSet c.roots h) fun l => (C.used l.1 l.2).symm,
    card_tableSet C.nodup, C.count, footprint]

/-! ## Where memory does not do -/

theorem footprint_le_of_ok {a : Call} (C : c.Covers h label) (hleg : a.Legal c)
    (hc : c.call mmap a = .ok c') : footprint (a :: h) ≤ NPAGES := by
  obtain ⟨label', C'⟩ := covers_step ⟨label, C⟩ ⟨hleg, hc⟩
  rw [← C'.nalloc_eq]
  exact C'.tables.nalloc_le

theorem footprint_of_alloc_error {e : Stop} (C : c.Covers h label)
    (he : c.call mmap .allocPageFrame = .error e) :
    Exhausted mmap c.mem e ∧ footprint (.allocPageFrame :: h) = c.mem.nalloc + 1 := by
  constructor
  · rcases allocPageFrame_spec mmap c.mem with ⟨e', he', hstop⟩ | ⟨-, hok⟩
    · rw [Client.call, he'] at he; cases he; exact hstop
    · rw [Client.call, hok] at he; cases he
  · rw [C.nalloc_eq, footprint, footprint, List.count_cons_self]
    have hprefixes : prefixes (.allocPageFrame :: h) = prefixes h := rfl
    rw [hprefixes]
    omega

theorem footprint_of_update_error {pt vpn ppn : BitVec 64} {e : Stop} (C : c.Covers h label)
    (hpt : pt ∈ c.roots) (he : c.call mmap (.update pt vpn ppn) = .error e) :
    ∃ m', Exhausted mmap m' e ∧ m'.nalloc < footprint (.update pt vpn ppn :: h) := by
  have hupdate : pageTableUpdate mmap pt vpn ppn c.mem = .error e := by
    cases hu : pageTableUpdate mmap pt vpn ppn c.mem with
    | error e' => rw [Client.call, hu] at he; cases he; rfl
    | ok m => rw [Client.call, hu] at he; cases he
  by_cases hppn : ppn = NO_MAPPING
  · subst hppn
    rcases unmap_spec mmap C.tables vpn (C.roots pt hpt) with ⟨_, _, -, -, hok⟩ | ⟨-, hok⟩
    all_goals rw [hok] at hupdate; cases hupdate
  · rcases update_grows mmap C.tables vpn (C.roots pt hpt) hppn with
      ⟨e', m', label', q, he', T', G, hq, hne, hmissing, hstop⟩ | ⟨_, _, hok, -⟩
    · rw [he'] at hupdate
      cases hupdate
      refine ⟨m', hstop, ?_⟩
      have hcount : (Call.update pt vpn ppn :: h).count .allocPageFrame = c.roots.length := by
        rw [List.count_cons_of_ne (by simp), C.count]
      have hcalled : ∀ {r q}, (r = pt.toNat ∧ q <+: tablePath vpn ∧ q ≠ []) ∨
          (r, q) ∈ tableSet c.roots h → (r, q) ∈ tableSet c.roots (.update pt vpn ppn :: h) := by
        intro r q hrq
        rw [mem_tableSet, mem_lowerTables_update hppn]
        exact hrq.elim (fun h => .inr (.inl h)) fun h => (mem_tableSet.1 h).imp_right .inr
      rw [footprint, hcount, ← card_tableSet C.nodup]
      refine T'.nalloc_lt_card (fun f l hl => ?_) (hcalled (.inl ⟨rfl, hq, hne⟩)) hmissing
      rcases G.new hl with hl | ⟨q', rfl, hq'⟩
      · exact hcalled (.inr ((C.used ..).1 ⟨f, hl⟩))
      · exact hcalled (.inl ⟨rfl, hq'⟩)
    · rw [hok] at hupdate; cases hupdate

/-- With an `mmap` that never fails, **a legal call stops the program exactly if the frames it calls
for are too many**. -/
theorem stops_iff (hr : Run (ClientStep fun _ => true) Client.init h c) {a : Call}
    (hleg : a.Legal c) : (∀ e, c.call (fun _ => true) a = .error e → e = .outOfPhysicalMemory) ∧
      (c.call (fun _ => true) a = .error .outOfPhysicalMemory ↔ NPAGES < footprint (a :: h)) := by
  obtain ⟨label, C⟩ := covers_run hr
  have herror : ∀ e, c.call (fun _ => true) a = .error e →
      e = .outOfPhysicalMemory ∧ NPAGES < footprint (a :: h) := by
    intro e he
    cases a with
    | allocPageFrame =>
      obtain ⟨⟨rfl, hmax⟩ | ⟨-, hmmap⟩, hfoot⟩ := footprint_of_alloc_error C he
      · exact ⟨rfl, by omega⟩
      · cases hmmap
    | update pt vpn ppn =>
      obtain ⟨m', ⟨rfl, hmax⟩ | ⟨-, hmmap⟩, hfoot⟩ := footprint_of_update_error C hleg he
      · exact ⟨rfl, by omega⟩
      · cases hmmap
    | query pt vpn =>
      rw [Client.call, query_answer (Client.inv_run hr) hleg vpn] at he
      cases he
  refine ⟨fun e he => (herror e he).1, fun he => (herror _ he).2, fun hmax => ?_⟩
  cases hc : c.call (fun _ => true) a with
  | error e => rw [(herror e hc).1]
  | ok c' =>
    have hle := footprint_le_of_ok C hleg hc
    omega

/-! ## Unmapping and queries -/

/-- Unmapping changes nothing, or one word of the level-5 table of its page. -/
theorem unmap_changes {pt : BitVec 64} (C : c.Covers h label) (hpt : pt ∈ c.roots) {vpn : BitVec 64}
    (hc : c.call mmap (.update pt vpn NO_MAPPING) = .ok c') :
    c'.mem = c.mem ∨ ∃ f node, Reaches c.mem pt.toNat (tablePath vpn) f ∧
      c.mem.pages f = some node ∧ c'.mem = c.mem.set f node (leafIndex vpn) 0#64 := by
  rcases unmap_spec mmap C.tables vpn (C.roots pt hpt) with ⟨f, node, hf, hn, hok⟩ | ⟨-, hok⟩
  all_goals
    rw [Client.call, hok] at hc
    cases hc
  · exact .inr ⟨f, node, C.reaches_of_label hf, hn, rfl⟩
  · exact .inl rfl

/-- A walk that may not allocate leaves memory as it is. -/
theorem walk_same {vpn : BitVec 64} {levels : List Nat} {p : Option VAddr}
    {x : Option (Option VAddr) × Memory} (hwalk : pageWalkLoop mmap vpn false levels p m = .ok x) :
    x.2 = m := by
  induction levels generalizing p with
  | nil => cases hwalk; rfl
  | cons i levels ih =>
    cases hread : m.readEntry p (VPN_I vpn i) with
    | error e => simp [pageWalkLoop, hread, bind, Except.bind] at hwalk
    | ok curr_entry =>
      simp only [pageWalkLoop, hread, bind, Except.bind] at hwalk
      split at hwalk
      · exact ih hwalk
      · cases hwalk; rfl

/-- **The memory footprint of the page tables**, after any calls on roots that did not run out of
frames, with an `mmap` that never fails. -/
theorem footprint_exact (hr : Run (ClientStep fun _ => true) Client.init h c) :
    c.mem.nalloc = footprint h ∧
    (∀ a, a.Legal c →
      (∀ e, c.call (fun _ => true) a = .error e → e = .outOfPhysicalMemory) ∧
      (c.call (fun _ => true) a = .error .outOfPhysicalMemory ↔ NPAGES < footprint (a :: h))) ∧
    (∀ pt ∈ c.roots, ∀ vpn c', c.call (fun _ => true) (.update pt vpn NO_MAPPING) = .ok c' →
      c'.mem.nalloc = c.mem.nalloc ∧
      (∀ f, IsUpper c.mem c.roots f → c'.mem.pages f = c.mem.pages f) ∧
      (c'.mem = c.mem ∨ ∃ f node, Reaches c.mem pt.toNat (tablePath vpn) f ∧
        c.mem.pages f = some node ∧ c'.mem = c.mem.set f node (leafIndex vpn) 0#64)) ∧
    ∀ pt ∈ c.roots, ∀ vpn, (∀ c', c.call (fun _ => true) (.query pt vpn) = .ok c' → c' = c) ∧
      ∀ target m', pageWalk (fun _ => true) (physToVirt c.mem (PHYSICAL_ADDR pt 0#64)) vpn false
        c.mem = .ok (target, m') → m' = c.mem := by
  obtain ⟨label, C⟩ := covers_run hr
  refine ⟨C.nalloc_eq, fun a hleg => stops_iff hr hleg, fun pt hpt vpn c' hc => ?_,
    fun pt hpt vpn => ⟨fun c' hc => ?_, fun target m' hwalk => walk_same hwalk⟩⟩
  · have hchange := unmap_changes C hpt hc
    refine ⟨?_, fun f hf => ?_, hchange⟩
    · rcases hchange with heq | ⟨f, node, -, -, heq⟩ <;> rw [heq]
      rfl
    · rcases hchange with heq | ⟨g, node, hg, -, heq⟩ <;> rw [heq]
      obtain ⟨r, p, hf, hp⟩ := C.isUpper_iff.1 hf
      have hg := (C.reaches_iff hpt).1 hg
      have hfg : f ≠ g := by
        rintro rfl
        cases hf.symm.trans hg
        rw [tablePath_length] at hp
        exact Nat.lt_irrefl _ hp
      simp [Memory.set, Function.update_of_ne hfg]
  · rw [Client.call, query_answer (Client.inv_run hr) hpt vpn] at hc
    cases hc
    rfl

/-- The run of `main` in `os.c` up to its second assertion: a root and four prefixes. -/
theorem footprint_exact_main : ∃ c, Run (ClientStep fun _ => true) Client.init
    [.update 0#64 0xcafe#64 0xf00d#64, .allocPageFrame] c ∧
      c.mem.nalloc = footprint [.update 0#64 0xcafe#64 0xf00d#64, .allocPageFrame] := by
  have hr : Run (ClientStep fun _ => true) Client.init
      [.update 0#64 0xcafe#64 0xf00d#64, .allocPageFrame] _ :=
    .step (.step .nil ⟨trivial, rfl⟩) ⟨List.mem_singleton_self _, rfl⟩
  exact ⟨_, hr, (footprint_exact hr).1⟩

end OSCourse.PageTable
