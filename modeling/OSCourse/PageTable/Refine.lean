import OSCourse.Lib.Run
import OSCourse.PageTable.Walk

/-!
# The page table is a finite map

A client program takes roots from `alloc_page_frame` and passes them to the two table
functions.  Its history (latest call first) fixes what a query has to answer: the last update of
the same root and of the same page number modulo `2^45`.

* `Client.Inv` — the forest of tables agrees with the history.
* `pageTable_refines_map` — in every run without a failed allocation each query gives the
  answer of the history, no call faults, and an update touches no other page.
-/

set_option autoImplicit false

namespace OSCourse.PageTable

open Transition

/-- One call of a program that uses the tables. -/
inductive Call where
  | allocPageFrame
  | update (pt vpn ppn : BitVec 64)
  | query (pt vpn : BitVec 64)
  deriving DecidableEq, Repr

/-- Memory, and the frame numbers that the program got for its roots. -/
structure Client where
  mem : Memory
  roots : List (BitVec 64)

def Client.init : Client := ⟨Memory.init, []⟩

def Client.call (mmap : Nat → Bool) (c : Client) : Call → Except Stop Client
  | .allocPageFrame => do
    let (pt, m) ← allocPageFrame mmap c.mem
    return ⟨m, pt :: c.roots⟩
  | .update pt vpn ppn => do
    let m ← pageTableUpdate mmap pt vpn ppn c.mem
    return { c with mem := m }
  | .query pt vpn => do
    let _ ← pageTableQuery mmap pt vpn c.mem
    return c

/-- Only frame numbers that `alloc_page_frame` returned are used as roots. -/
def Call.Legal (c : Client) : Call → Prop
  | .allocPageFrame => True
  | .update pt _ _ => pt ∈ c.roots
  | .query pt _ => pt ∈ c.roots

/-- A legal call that does not stop the program. -/
def ClientStep (mmap : Nat → Bool) (c : Client) (a : Call) (c' : Client) : Prop :=
  a.Legal c ∧ c.call mmap a = .ok c'

/-! ## The map that a history describes -/

/-- The page number of the last update on `pt` whose vpn agrees with `vpn` modulo `2^45`. -/
def lastUpdate (pt vpn : BitVec 64) : List Call → Option (BitVec 64)
  | [] => none
  | .update pt' vpn' ppn :: h =>
    if pt' = pt ∧ vpn'.toNat % 2 ^ 45 = vpn.toNat % 2 ^ 45 then some ppn else lastUpdate pt vpn h
  | .allocPageFrame :: h => lastUpdate pt vpn h
  | .query _ _ :: h => lastUpdate pt vpn h

/-- What a query has to return after the history `h`. -/
def answer (h : List Call) (pt vpn : BitVec 64) : BitVec 64 :=
  match lastUpdate pt vpn h with
  | none => NO_MAPPING
  | some ppn => if ppn = NO_MAPPING then NO_MAPPING else BitVec.ofNat 64 (ppn.toNat % 2 ^ 52)

theorem decodeLeaf_updatedWord (ppn : BitVec 64) : decodeLeaf (updatedWord ppn) =
    if ppn = NO_MAPPING then NO_MAPPING else BitVec.ofNat 64 (ppn.toNat % 2 ^ 52) := by
  unfold updatedWord
  split
  · simp [decodeLeaf, IS_VALID_PTE_zero]
  · simp [decodeLeaf, IS_VALID_PTE_pteOf, GET_FRAME_N_pteOf]

/-! ## The invariant -/

/-- The tables under `label` hold what the history says. -/
structure Client.Holds (h : List Call) (c : Client) (label : Label) : Prop where
  tables : Tables c.mem label
  roots : ∀ pt ∈ c.roots, IsRoot label pt
  known : ∀ pt vpn ppn, Call.update pt vpn ppn ∈ h → pt ∈ c.roots
  agrees : ∀ pt ∈ c.roots, ∀ vpn, ∃ e,
    LeafWord c.mem label pt.toNat (tablePath vpn) (leafIndex vpn) e ∧ decodeLeaf e = answer h pt vpn

def Client.Inv (h : List Call) (c : Client) : Prop := ∃ label, c.Holds h label

theorem lastUpdate_eq_none {h : List Call} {pt : BitVec 64}
    (hno : ∀ vpn ppn, Call.update pt vpn ppn ∉ h) (vpn : BitVec 64) :
    lastUpdate pt vpn h = none := by
  induction h with
  | nil => rfl
  | cons a h ih =>
    have ih := ih fun v p hm => hno v p (List.mem_cons_of_mem _ hm)
    cases a with
    | allocPageFrame => exact ih
    | query => exact ih
    | update pt' vpn' ppn =>
      rw [lastUpdate, if_neg, ih]
      rintro ⟨rfl, -⟩
      exact hno _ _ (List.mem_cons_self ..)

theorem Client.inv_init : Client.init.Inv [] :=
  ⟨fun _ => none, Tables.init, by simp [Client.init], by simp, by simp [Client.init]⟩

theorem Tables.extends_alloc {m : Memory} {label : Label} (T : Tables m label) :
    Extends m label ⟨m.nalloc + 1, Function.update m.pages m.nalloc (some fun _ => 0#64)⟩
      (Function.update label m.nalloc (some (m.nalloc, []))) := by
  refine ⟨fun hf => ?_, fun hf _ => ?_, fun {f r p} hf hf' hp => ?_⟩
  · exact T.label_old hf
  · simp [Function.update_of_ne (Nat.ne_of_lt (T.lt hf))]
  · rcases label_cases hf' with ⟨-, heq⟩ | hf'
    · cases heq; cases hp
    · rw [hf] at hf'; cases hf'

/-- A new root is an empty table; the old ones keep their words. -/
theorem Client.holds_alloc {h : List Call} {c c' : Client} {label : Label} {mmap : Nat → Bool}
    (H : c.Holds h label) (hc : c.call mmap .allocPageFrame = .ok c') :
    c'.Inv (.allocPageFrame :: h) := by
  have T := H.tables
  rcases allocPageFrame_cases mmap c.mem with ⟨e, he, -⟩ | ⟨hmax, halloc⟩
  · rw [Client.call, he] at hc; cases hc
  rw [Client.call, halloc] at hc
  cases hc
  have hnat := T.nalloc_toNat
  have hnew := T.next_not_root H.roots
  refine ⟨_, T.alloc hmax, ?_, ?_, ?_⟩
  · intro pt hpt
    rcases List.mem_cons.1 hpt with rfl | hpt
    · simp [IsRoot, hnat]
    · exact T.extends_alloc.old (H.roots pt hpt)
  · intro pt vpn ppn hm
    exact List.mem_cons_of_mem _ (H.known pt vpn ppn (by simpa using hm))
  · intro pt hpt vpn
    rcases List.mem_cons.1 hpt with rfl | hpt
    · refine ⟨0#64, .inr ⟨fun g hg => ?_, rfl⟩, ?_⟩
      · rw [hnat] at hg
        rcases label_cases hg with ⟨-, heq⟩ | hg
        · have hlen := congrArg List.length (Prod.mk.inj heq).2
          rw [tablePath_length] at hlen; cases hlen
        · exact T.fresh_root g _ hg
      · have hnone : lastUpdate (BitVec.ofNat 64 c.mem.nalloc) vpn h = none :=
          lastUpdate_eq_none (fun v p hm => hnew (H.known _ v p hm)) vpn
        simp [answer, lastUpdate, hnone, decodeLeaf, IS_VALID_PTE_zero]
    · obtain ⟨e, hw, he⟩ := H.agrees pt hpt vpn
      exact ⟨e, hw.extend (tablePath_length vpn) T.extends_alloc, by rw [he]; rfl⟩

theorem Client.holds_update {h : List Call} {c c' : Client} {label : Label} {mmap : Nat → Bool}
    {pt vpn ppn : BitVec 64} (H : c.Holds h label) (hpt : pt ∈ c.roots)
    (hc : c.call mmap (.update pt vpn ppn) = .ok c') : c'.Inv (.update pt vpn ppn :: h) := by
  rcases update_spec mmap H.tables vpn ppn (H.roots pt hpt) with
    ⟨e, he, -⟩ | ⟨m', label', hok, T', hold, hset⟩
  · rw [Client.call, he] at hc; cases hc
  rw [Client.call, hok] at hc
  cases hc
  refine ⟨label', T', fun pt' hpt' => hold _ _ (H.roots pt' hpt'), ?_, ?_⟩
  · intro pt' vpn' ppn' hm
    rcases List.mem_cons.1 hm with heq | hm
    · cases heq; exact hpt
    · exact H.known _ _ _ hm
  · intro pt' hpt' vpn'
    obtain ⟨e, hw, he⟩ := H.agrees pt' hpt' vpn'
    refine ⟨_, hset _ _ _ _ (tablePath_length vpn') hw, ?_⟩
    have hiff : (pt'.toNat = pt.toNat ∧ tablePath vpn' = tablePath vpn ∧
        leafIndex vpn' = leafIndex vpn) ↔
        (pt = pt' ∧ vpn.toNat % 2 ^ 45 = vpn'.toNat % 2 ^ 45) := by
      rw [path_eq_iff, BitVec.toNat_inj]
      exact and_congr eq_comm eq_comm
    by_cases hsame : pt = pt' ∧ vpn.toNat % 2 ^ 45 = vpn'.toNat % 2 ^ 45
    · rw [if_pos (hiff.2 hsame), decodeLeaf_updatedWord]
      simp only [answer, lastUpdate, if_pos hsame]
    · rw [if_neg (mt hiff.1 hsame), he]
      simp only [answer, lastUpdate, if_neg hsame]

/-- One legal call keeps the tables and the history in step. -/
theorem Client.inv_step {h : List Call} {c c' : Client} {a : Call} {mmap : Nat → Bool}
    (H : c.Inv h) (hs : ClientStep mmap c a c') : c'.Inv (a :: h) := by
  obtain ⟨label, H⟩ := H
  obtain ⟨hleg, hc⟩ := hs
  cases a with
  | allocPageFrame => exact Client.holds_alloc H hc
  | update pt vpn ppn => exact Client.holds_update H hleg hc
  | query pt vpn =>
    obtain ⟨e, hw, he⟩ := H.agrees pt hleg vpn
    rw [Client.call, query_spec H.tables (H.roots pt hleg) hw] at hc
    cases hc
    exact ⟨label, H.tables, H.roots, fun _ _ _ hm => H.known _ _ _ (by simpa using hm),
      fun pt' hpt' vpn' => by simpa [answer, lastUpdate] using H.agrees pt' hpt' vpn'⟩

theorem Client.inv_run {mmap : Nat → Bool} {h : List Call} {c : Client}
    (hr : Run (ClientStep mmap) Client.init h c) : c.Inv h :=
  hr.historyInvariant Client.inv_init fun _ _ _ _ H hs => Client.inv_step H hs

theorem query_answer {mmap : Nat → Bool} {h : List Call} {c : Client} (H : c.Inv h)
    {pt : BitVec 64} (hpt : pt ∈ c.roots) (vpn : BitVec 64) :
    pageTableQuery mmap pt vpn c.mem = .ok (answer h pt vpn) := by
  obtain ⟨label, H⟩ := H
  obtain ⟨e, hw, he⟩ := H.agrees pt hpt vpn
  rw [query_spec H.tables (H.roots pt hpt) hw, he]

/-- A legal call stops the program only where an allocation fails. -/
theorem call_error {mmap : Nat → Bool} {h : List Call} {c : Client} (H : c.Inv h) {a : Call}
    (hleg : a.Legal c) {e : Stop} (he : c.call mmap a = .error e) :
    e = .outOfPhysicalMemory ∨ e = .mmapFailed := by
  cases a with
  | allocPageFrame =>
    rcases allocPageFrame_cases mmap c.mem with ⟨e', he', hstop⟩ | ⟨-, halloc⟩
    · rw [Client.call, he'] at he; cases he; exact hstop
    · rw [Client.call, halloc] at he; cases he
  | update pt vpn ppn =>
    obtain ⟨label, H⟩ := H
    rcases update_spec mmap H.tables vpn ppn (H.roots pt hleg) with
      ⟨e', he', hstop⟩ | ⟨m', label', hok, -⟩
    · rw [Client.call, he'] at he; cases he; exact hstop
    · rw [Client.call, hok] at he; cases he
  | query pt vpn =>
    rw [Client.call, query_answer H hleg vpn] at he; cases he

/-- An update of another page leaves the answer as it is. -/
theorem answer_update_other {h : List Call} {pt pt' vpn vpn' ppn : BitVec 64}
    (hne : pt' ≠ pt ∨ vpn'.toNat % 2 ^ 45 ≠ vpn.toNat % 2 ^ 45) :
    answer (.update pt vpn ppn :: h) pt' vpn' = answer h pt' vpn' := by
  have : ¬(pt = pt' ∧ vpn.toNat % 2 ^ 45 = vpn'.toNat % 2 ^ 45) := by
    rintro ⟨h1, h2⟩
    exact hne.elim (fun h => h h1.symm) (fun h => h h2.symm)
  simp only [answer, lastUpdate, if_neg this]

/-- **The page table refines a finite map.**  After every run of legal calls in which no
allocation failed, every query on a root returns the page number (modulo `2^52`) of the last
update of the same page, or `NO_MAPPING`; only a failed allocation can stop a legal call; and an
update changes no answer for another page or another root. -/
theorem pageTable_refines_map {mmap : Nat → Bool} {h : List Call} {c : Client}
    (hr : Run (ClientStep mmap) Client.init h c) :
    (∀ pt ∈ c.roots, ∀ vpn, pageTableQuery mmap pt vpn c.mem = .ok (answer h pt vpn)) ∧
    (∀ a, a.Legal c → ∀ e, c.call mmap a = .error e →
      e = .outOfPhysicalMemory ∨ e = .mmapFailed) ∧
    (∀ pt vpn ppn c', ClientStep mmap c (.update pt vpn ppn) c' → ∀ pt' ∈ c.roots, ∀ vpn',
      pt' ≠ pt ∨ vpn'.toNat % 2 ^ 45 ≠ vpn.toNat % 2 ^ 45 →
      pageTableQuery mmap pt' vpn' c'.mem = pageTableQuery mmap pt' vpn' c.mem) := by
  have H := Client.inv_run hr
  refine ⟨fun pt hpt vpn => query_answer H hpt vpn, fun a hleg e he => call_error H hleg he, ?_⟩
  intro pt vpn ppn c' hs pt' hpt' vpn' hne
  have hroots : c'.roots = c.roots := by
    obtain ⟨-, hc⟩ := hs
    cases hu : pageTableUpdate mmap pt vpn ppn c.mem with
    | error e => rw [Client.call, hu] at hc; cases hc
    | ok m => rw [Client.call, hu] at hc; cases hc; rfl
  rw [query_answer (Client.inv_step H hs) (by rw [hroots]; exact hpt'), query_answer H hpt',
    answer_update_other hne]

/-- The run of `main` in `os.c` up to its second assertion. -/
theorem pageTable_refines_map_main :
    ∃ c, Run (ClientStep fun _ => true) Client.init
        [.update 0#64 0xcafe#64 0xf00d#64, .allocPageFrame] c ∧
      pageTableQuery (fun _ => true) 0#64 0xcafe#64 c.mem = .ok 0xf00d#64 := by
  have hr : Run (ClientStep fun _ => true) Client.init
      [.update 0#64 0xcafe#64 0xf00d#64, .allocPageFrame] _ :=
    .step (.step .nil ⟨trivial, rfl⟩) ⟨List.mem_singleton_self _, rfl⟩
  exact ⟨_, hr, (pageTable_refines_map hr).1 0#64 (List.mem_singleton_self _) 0xcafe#64⟩

end OSCourse.PageTable
