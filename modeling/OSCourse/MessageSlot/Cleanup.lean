import OSCourse.Lib.Mutex
import OSCourse.MessageSlot.Reach

/-!
# Unloading the driver

* `KeptStep` — a call that does not dereference NULL.
* `owned` — the handles that the driver reaches from `g_msg_slots`, each as often as it is reached.
* `Ledger` — the live handles are those and the lost ones; only an active node has a buffer.
* `cleanup_spec` — `msg_slot_cleanup` frees what is reached, each handle once, and nothing else.
* `cleanup_releases_iff` — nothing is lost exactly when no `krealloc` of a buffer has failed.
-/

set_option autoImplicit false

namespace OSCourse.MessageSlot

open Transition

/-- A call that does not dereference NULL: it returns, or it is a read that runs beyond the end of
a buffer, which changes nothing. -/
def KeptStep (k : Kernel) (e : Event) (k' : Kernel) : Prop :=
  KernelStep k e k' ∨ k' = k ∧ ∃ fd length writable, e.1 = .read fd length writable ∧
    k.exec e.1 = some (.error .outOfBounds)

/-- Unloading frees nothing twice, and nothing is live afterwards. -/
def Released (d : Driver) : Prop := ∃ heap, msgSlotCleanup d = some heap ∧ heap.live = []

/-- The write works on an active node, and the `krealloc` of its buffer fails. -/
def LosesBuffer (k : Kernel) (e : Event) : Prop :=
  match e.1 with
  | .write fd _ length o => ∃ file slot ch, k.files fd = some file ∧ Accepted file length ∧
      k.driver.g_msg_slots file.minor = some slot ∧
      target o slot k.driver.heap file.private_data = some ch ∧
      ch.active = true ∧ ch.msg_buffer ≠ none ∧ o.buffer = none
  | _ => False

/-! ## The handles that the driver reaches -/

def blockHandles : Option Block → Multiset Nat
  | none => 0
  | some b => {b.handle}

/-- The nodes and their buffers. -/
def channelHandles (l : List MsgSlotChannel) : Multiset Nat :=
  (l.map fun ch => blockHandles ch.msg_buffer + {ch.addr}).sum

def slotHandles : Option MsgSlot → Multiset Nat
  | none => 0
  | some slot => channelHandles slot.head + {slot.addr}

/-- What is reached from `g_msg_slots`. -/
def owned (d : Driver) : Multiset Nat := ∑ i, slotHandles (d.g_msg_slots i)

structure Ledger (d : Driver) (lost : Multiset Nat) : Prop where
  live : (d.heap.live : Multiset Nat) = owned d + lost
  inactive : ∀ minor slot, d.g_msg_slots minor = some slot → ∀ ch ∈ slot.head,
    ch.active = false → ch.msg_buffer = none

theorem channelHandles_cons (ch : MsgSlotChannel) (l : List MsgSlotChannel) :
    channelHandles (ch :: l) = blockHandles ch.msg_buffer + {ch.addr} + channelHandles l := by
  simp [channelHandles]

/-- The handles of one node, and of the others. -/
theorem channelHandles_split {l : List MsgSlotChannel} {i : Nat} {ch : MsgSlotChannel}
    (hi : l[i]? = some ch) : channelHandles l =
      blockHandles ch.msg_buffer + {ch.addr} + channelHandles (l.eraseIdx i) := by
  induction l generalizing i with
  | nil => simp at hi
  | cons x l ih =>
    cases i with
    | zero =>
      simp only [List.length_cons, Nat.zero_lt_succ, getElem?_pos, List.getElem_cons_zero,
        Option.some.injEq] at hi
      subst hi
      rw [channelHandles_cons, List.eraseIdx_zero, List.tail_cons]
    | succ i =>
      rw [List.eraseIdx_cons_succ, channelHandles_cons, channelHandles_cons,
        ih (by simpa using hi), add_left_comm]

theorem channelHandles_set {l : List MsgSlotChannel} {i : Nat} {ch : MsgSlotChannel}
    (ch' : MsgSlotChannel) (hi : l[i]? = some ch) : channelHandles (l.set i ch') =
      blockHandles ch'.msg_buffer + {ch'.addr} + channelHandles (l.eraseIdx i) := by
  have hlt := (List.getElem?_eq_some_iff.1 hi).1
  rw [channelHandles_split (List.getElem?_set_self hlt), List.eraseIdx_set_eq]

/-- What is reached from the other slots. -/
def ownedElsewhere (d : Driver) (minor : Minor) : Multiset Nat :=
  ∑ i ∈ Finset.univ.erase minor, slotHandles (d.g_msg_slots i)

theorem owned_split (d : Driver) (minor : Minor) :
    owned d = slotHandles (d.g_msg_slots minor) + ownedElsewhere d minor :=
  (Finset.add_sum_erase _ _ (Finset.mem_univ minor)).symm

theorem owned_update (d : Driver) (minor : Minor) (slot : MsgSlot) (heap : Heap) :
    owned ⟨Function.update d.g_msg_slots minor (some slot), heap⟩ =
      slotHandles (some slot) + ownedElsewhere d minor := by
  rw [owned_split _ minor]
  simp only [Function.update_self, ownedElsewhere]
  congr 1
  apply Finset.sum_congr rfl
  intro i hi
  rw [Function.update_of_ne (Finset.ne_of_mem_erase hi)]

/-! ## What is freed -/

theorem kfree_spec {heap : Heap} {handle : Nat} {rest : Multiset Nat}
    (hlive : (heap.live : Multiset Nat) = {handle} + rest) :
    ∃ heap', kfree (some handle) heap = some heap' ∧ (heap'.live : Multiset Nat) = rest := by
  have hmem : handle ∈ heap.live := by
    rw [← Multiset.mem_coe, hlive]
    simp
  refine ⟨{ heap with live := heap.live.erase handle }, by simp only [kfree, if_pos hmem], ?_⟩
  rw [← Multiset.coe_erase, hlive, Multiset.singleton_add, Multiset.erase_cons_head]

theorem freeChannelLst_spec {l : List MsgSlotChannel} {heap : Heap} {rest : Multiset Nat}
    (hinactive : ∀ ch ∈ l, ch.active = false → ch.msg_buffer = none)
    (hlive : (heap.live : Multiset Nat) = channelHandles l + rest) :
    ∃ heap', freeChannelLst l heap = some heap' ∧ (heap'.live : Multiset Nat) = rest := by
  induction l generalizing heap with
  | nil => exact ⟨heap, rfl, by simpa [channelHandles] using hlive⟩
  | cons tmp l ih =>
    rw [channelHandles_cons, add_assoc, add_assoc] at hlive
    have hbuffer : ∃ heap₁, (if tmp.active then kfree (tmp.msg_buffer.map Block.handle) heap
        else some heap) = some heap₁ ∧
        (heap₁.live : Multiset Nat) = {tmp.addr} + (channelHandles l + rest) := by
      cases hb : tmp.msg_buffer with
      | none =>
        rw [hb, blockHandles, zero_add] at hlive
        exact ⟨heap, by cases tmp.active <;> rfl, hlive⟩
      | some b =>
        rw [hb, blockHandles] at hlive
        have hactive : tmp.active = true := by
          by_contra hnot
          rw [hinactive tmp (List.mem_cons_self ..) (Bool.eq_false_of_not_eq_true hnot)] at hb
          cases hb
        rw [if_pos hactive]
        exact kfree_spec hlive
    obtain ⟨heap₁, h₁, hlive₁⟩ := hbuffer
    obtain ⟨heap₂, h₂, hlive₂⟩ := kfree_spec hlive₁
    obtain ⟨heap₃, h₃, hlive₃⟩ := ih (fun ch hch => hinactive ch (List.mem_cons_of_mem tmp hch)) hlive₂
    refine ⟨heap₃, ?_, hlive₃⟩
    rw [freeChannelLst, h₁]
    simp only [Option.bind_eq_bind, Option.bind_some, h₂, h₃]

theorem cleanupMinors_spec {d : Driver} {lost rest : Multiset Nat} (L : Ledger d lost)
    {minors : List Minor} {heap : Heap} (hlive : (heap.live : Multiset Nat) =
      (minors.map fun i => slotHandles (d.g_msg_slots i)).sum + rest) :
    ∃ heap', cleanupMinors d minors heap = some heap' ∧ (heap'.live : Multiset Nat) = rest := by
  induction minors generalizing heap with
  | nil => exact ⟨heap, rfl, by simpa using hlive⟩
  | cons i minors ih =>
    rw [List.map_cons, List.sum_cons, add_assoc] at hlive
    cases hslot : d.g_msg_slots i with
    | none =>
      rw [hslot, slotHandles, zero_add] at hlive
      obtain ⟨heap', h', hlive'⟩ := ih hlive
      exact ⟨heap', by rw [cleanupMinors, hslot]; exact h', hlive'⟩
    | some slot =>
      rw [hslot, slotHandles, add_assoc] at hlive
      obtain ⟨heap₁, h₁, hlive₁⟩ := freeChannelLst_spec (L.inactive i slot hslot) hlive
      obtain ⟨heap₂, h₂, hlive₂⟩ := kfree_spec hlive₁
      obtain ⟨heap₃, h₃, hlive₃⟩ := ih hlive₂
      refine ⟨heap₃, ?_, hlive₃⟩
      rw [cleanupMinors, hslot]
      simp only [Option.bind_eq_bind, Option.bind_some, h₁, h₂, h₃]

/-- **Unloading frees what is reached, each handle once**, and leaves what was lost. -/
theorem cleanup_spec {d : Driver} {lost : Multiset Nat} (L : Ledger d lost) :
    ∃ heap, msgSlotCleanup d = some heap ∧ (heap.live : Multiset Nat) = lost := by
  refine cleanupMinors_spec L (L.live.trans ?_)
  rw [owned, Fin.sum_univ_def]

theorem released_iff {d : Driver} {lost : Multiset Nat} (L : Ledger d lost) :
    Released d ↔ lost = 0 := by
  obtain ⟨heap, hclean, hlive⟩ := cleanup_spec L
  constructor
  · rintro ⟨heap', hclean', hnil⟩
    cases hclean.symm.trans hclean'
    rw [← hlive, hnil, Multiset.coe_nil]
  · rintro rfl
    exact ⟨heap, hclean, (Multiset.coe_eq_zero _).1 hlive⟩

/-! ## What a call does to the ledger -/

theorem ledger_init : Ledger Driver.init 0 where
  live := by simp [Driver.init, Heap.empty, owned, slotHandles]
  inactive := by simp [Driver.init]

theorem Ledger.withSlot {d : Driver} {lost : Multiset Nat} (L : Ledger d lost) {minor : Minor}
    (hnone : d.g_msg_slots minor = none) : Ledger (d.withSlot minor) lost where
  live := by
    rw [Driver.withSlot, owned_update, ← Multiset.cons_coe, L.live, ← Multiset.singleton_add,
      owned_split d minor, hnone]
    simp only [slotHandles, channelHandles, List.map_nil, List.sum_nil]
    abel
  inactive := by
    intro m slot hm ch hch
    by_cases hmin : m = minor
    · subst hmin
      simp only [Driver.withSlot, Function.update_self, Option.some.injEq] at hm
      subst hm
      cases hch
    · simp only [Driver.withSlot, Function.update_of_ne hmin] at hm
      exact L.inactive m slot hm ch hch

theorem kmalloc_live (size : Nat) (junk : Nat → UInt8) (heap : Heap) :
    ∃ b heap', kmalloc size (some junk) heap = (some b, heap') ∧
      (heap'.live : Multiset Nat) = {b.handle} + heap.live :=
  ⟨_, _, rfl, by rw [← Multiset.cons_coe, Multiset.singleton_add]⟩

/-- A `krealloc` that succeeds replaces the handle it is given. -/
theorem krealloc_live {p : Option Block} (size : Nat) (junk : Nat → UInt8) {heap : Heap}
    {rest : Multiset Nat} (hlive : (heap.live : Multiset Nat) = blockHandles p + rest) :
    ∃ b heap', krealloc p size (some junk) heap = (some b, heap') ∧
      (heap'.live : Multiset Nat) = {b.handle} + rest := by
  cases p with
  | none =>
    rw [blockHandles, zero_add] at hlive
    rw [← hlive]
    exact kmalloc_live size junk heap
  | some old =>
    refine ⟨_, _, rfl, ?_⟩
    rw [← Multiset.cons_coe, ← Multiset.coe_erase, hlive, blockHandles, Multiset.singleton_add,
      Multiset.erase_cons_head, Multiset.singleton_add]

/-- What `copy_from_user` leaves alone in the node. -/
theorem copyMessage_node (o : Outcome) (ch : MsgSlotChannel) (b : Block) (u_buffer : Nat → UInt8)
    (length : Nat) : blockHandles (copyMessage o ch b u_buffer length).2.msg_buffer = {b.handle} ∧
      (copyMessage o ch b u_buffer length).2.addr = ch.addr ∧
      (copyMessage o ch b u_buffer length).2.active = ch.active := by
  unfold copyMessage copyFromUser
  simp only
  split <;> exact ⟨rfl, rfl, rfl⟩

/-- A node that a write has been through. -/
structure Rewritten (ch ch' : MsgSlotChannel) : Prop where
  addr : ch'.addr = ch.addr
  inactive : ch'.active = false → ch'.msg_buffer = none

/-- **What a write does to the handles of its node**: the old buffer is replaced or, when its
`krealloc` fails, lost. -/
theorem writeChannel_ledger (o : Outcome) {ch : MsgSlotChannel} (u_buffer : Nat → UInt8)
    (length : Nat) {heap : Heap} {rest : Multiset Nat}
    (hinactive : ch.active = false → ch.msg_buffer = none)
    (hlive : (heap.live : Multiset Nat) = blockHandles ch.msg_buffer + rest)
    {rc : Int} {ch' : MsgSlotChannel} {heap' : Heap}
    (hw : writeChannel o ch u_buffer length heap = (rc, ch', heap')) :
    Rewritten ch ch' ∧ ∃ lost,
      (heap'.live : Multiset Nat) = blockHandles ch'.msg_buffer + rest + lost ∧
      (lost = 0 ↔ ¬(ch.active = true ∧ ch.msg_buffer ≠ none ∧ o.buffer = none)) := by
  unfold writeChannel at hw
  cases hact : ch.active with
  | true =>
    simp only [hact, if_true] at hw
    cases hbuf : o.buffer with
    | none =>
      simp only [hbuf, krealloc] at hw
      cases hw
      refine ⟨⟨rfl, fun _ => rfl⟩, blockHandles ch.msg_buffer, ?_, ?_⟩
      · rw [hlive, blockHandles, zero_add, add_comm]
      · cases ch.msg_buffer <;> simp [blockHandles]
    | some junk =>
      obtain ⟨b, heap₁, hb, hlive₁⟩ := krealloc_live length junk hlive
      obtain ⟨hnode, haddr, hactive⟩ :=
        copyMessage_node o { ch with msg_buffer := some b, active := true } b u_buffer length
      simp only [hbuf, hb] at hw
      cases hw
      refine ⟨⟨haddr, fun h => ?_⟩, 0, ?_, by simp⟩
      · rw [hactive] at h; cases h
      · rw [hnode, hlive₁, add_zero]
  | false =>
    simp only [hact, Bool.false_eq_true, if_false] at hw
    rw [hinactive hact, blockHandles, zero_add] at hlive
    cases hbuf : o.buffer with
    | none =>
      simp only [hbuf, kmalloc] at hw
      cases hw
      refine ⟨⟨rfl, fun _ => rfl⟩, 0, ?_, by simp⟩
      rw [hlive, blockHandles, zero_add, add_zero]
    | some junk =>
      obtain ⟨b, heap₁, hb, hlive₁⟩ := kmalloc_live length junk heap
      obtain ⟨hnode, haddr, hactive⟩ :=
        copyMessage_node o { ch with msg_buffer := some b, active := true } b u_buffer length
      simp only [hbuf, hb] at hw
      cases hw
      refine ⟨⟨haddr, fun h => ?_⟩, 0, ?_, by simp⟩
      · rw [hactive] at h; cases h
      · rw [hnode, hlive₁, hlive, add_zero]

/-- The list in which a write finds its node: a fresh node is linked first. -/
def linkedForWrite (o : Outcome) (slot : MsgSlot) (heap : Heap) (channel_id : BitVec 64) :
    List MsgSlotChannel :=
  match lookup slot.head channel_id, o.node with
  | none, some junk => freshChannel heap junk channel_id :: slot.head
  | _, _ => slot.head

/-- An accepted write rewrites one node of that list. -/
theorem deviceWrite_set {o : Outcome} {d d' : Driver} {file : File} {u_buffer : Nat → UInt8}
    {length : Nat} {slot : MsgSlot} {rc : Int} (hacc : Accepted file length)
    (hslot : d.g_msg_slots file.minor = some slot)
    (hw : deviceWrite o d file u_buffer length = .ok (rc, d')) :
    ∃ i ch ch' heap', (linkedForWrite o slot d.heap file.private_data)[i]? = some ch ∧
      target o slot d.heap file.private_data = some ch ∧
      writeChannel o ch u_buffer length (heapForWrite o slot d.heap file.private_data) =
        (rc, ch', heap') ∧
      d' = afterWrite d file.minor slot
        ((linkedForWrite o slot d.heap file.private_data).set i ch') heap' := by
  obtain ⟨hid, hlo, hhi⟩ := hacc
  have hlen : ¬(length = 0 ∨ length > MAX_BUF_LEN) := by omega
  cases hf : findChannel slot.head file.private_data with
  | some i =>
    obtain ⟨ch, hi, hl⟩ := findChannel_some hf
    have hlinked : linkedForWrite o slot d.heap file.private_data = slot.head := by
      simp [linkedForWrite, hl]
    have hheap : heapForWrite o slot d.heap file.private_data = d.heap := by simp [heapForWrite, hl]
    simp [deviceWrite, hid, hlen, hslot, hf, hi] at hw
    obtain ⟨rfl, rfl⟩ := hw
    rw [hlinked, hheap]
    exact ⟨i, ch, _, _, hi, by simp [target, hl], rfl, rfl⟩
  | none =>
    have hl := findChannel_none.1 hf
    cases hn : o.node with
    | some junk =>
      simp [deviceWrite, hid, hlen, hslot, hf, addChannelToMsgSlot, hn, SUCCESS, FAILURE] at hw
      obtain ⟨rfl, rfl⟩ := hw
      simp only [linkedForWrite, heapForWrite, hl, hn]
      exact ⟨0, freshChannel d.heap junk file.private_data, _, _, rfl, by simp [target, hl, hn],
        rfl, rfl⟩
    | none =>
      -- no node could be allocated, but the head of the list is taken for it
      have hlinked : linkedForWrite o slot d.heap file.private_data = slot.head := by
        simp [linkedForWrite, hl, hn]
      have hheap : heapForWrite o slot d.heap file.private_data = d.heap := by
        simp [heapForWrite, hl, hn]
      rw [hlinked, hheap]
      cases hh : slot.head with
      | nil =>
        rw [hh] at hf
        simp [deviceWrite, hid, hlen, hslot, hf, addChannelToMsgSlot, hn, ENOMEM, FAILURE, hh] at hw
      | cons hd tl =>
        rw [hh] at hf hl
        simp [deviceWrite, hid, hlen, hslot, hf, addChannelToMsgSlot, hn, ENOMEM, FAILURE, hh] at hw
        obtain ⟨rfl, rfl⟩ := hw
        exact ⟨0, hd, _, _, rfl, by simp [target, hl, hn, hh], rfl, rfl⟩

/-- Linking the fresh node, when one is allocated, keeps the ledger. -/
theorem Ledger.link {d : Driver} {lost : Multiset Nat} (L : Ledger d lost) (o : Outcome)
    {minor : Minor} {slot : MsgSlot} (hslot : d.g_msg_slots minor = some slot)
    (channel_id : BitVec 64) : Ledger (afterWrite d minor slot
      (linkedForWrite o slot d.heap channel_id) (heapForWrite o slot d.heap channel_id)) lost := by
  have hself : afterWrite d minor slot slot.head d.heap = d := by
    unfold afterWrite
    rw [← hslot, Function.update_eq_self]
  unfold linkedForWrite heapForWrite
  cases lookup slot.head channel_id with
  | some ch => simp only [hself]; exact L
  | none =>
    cases o.node with
    | none => simp only [hself]; exact L
    | some junk =>
      refine ⟨?_, fun m slot' hm ch hch hact => ?_⟩
      · simp only [afterWrite]
        rw [owned_update, ← Multiset.cons_coe, L.live, ← Multiset.singleton_add,
          owned_split d minor, hslot]
        simp only [slotHandles, channelHandles_cons, freshChannel, blockHandles]
        abel
      · by_cases hmin : m = minor
        · subst hmin
          simp only [afterWrite, Function.update_self, Option.some.injEq] at hm
          subst hm
          rcases List.mem_cons.1 hch with rfl | hch
          · rfl
          · exact L.inactive m slot hslot ch hch hact
        · simp only [afterWrite, Function.update_of_ne hmin] at hm
          exact L.inactive m slot' hm ch hch hact

/-- **A write keeps the ledger, with the buffer that it loses.** -/
theorem ledger_write {d d' : Driver} {lost : Multiset Nat} (L : Ledger d lost) {o : Outcome}
    {file : File} {u_buffer : Nat → UInt8} {length : Nat} {slot : MsgSlot} {rc : Int}
    (hacc : Accepted file length) (hslot : d.g_msg_slots file.minor = some slot)
    (hw : deviceWrite o d file u_buffer length = .ok (rc, d')) :
    ∃ ch lost', target o slot d.heap file.private_data = some ch ∧ Ledger d' (lost + lost') ∧
      (lost' = 0 ↔ ¬(ch.active = true ∧ ch.msg_buffer ≠ none ∧ o.buffer = none)) := by
  obtain ⟨i, ch, ch', heap', hi, htarget, hchannel, rfl⟩ := deviceWrite_set hacc hslot hw
  have L₁ := L.link o hslot file.private_data
  have hslot₁ : (afterWrite d file.minor slot (linkedForWrite o slot d.heap file.private_data)
      (heapForWrite o slot d.heap file.private_data)).g_msg_slots file.minor =
        some { slot with head := linkedForWrite o slot d.heap file.private_data } :=
    Function.update_self ..
  generalize linkedForWrite o slot d.heap file.private_data = l at *
  generalize heapForWrite o slot d.heap file.private_data = heap at *
  have hlive : (heap.live : Multiset Nat) = blockHandles ch.msg_buffer +
      ({ch.addr} + channelHandles (l.eraseIdx i) + {slot.addr} +
        ownedElsewhere d file.minor + lost) := by
    have h := L₁.live
    simp only [afterWrite] at h
    rw [h, owned_update, slotHandles, channelHandles_split hi]
    abel
  obtain ⟨hch', lost', hlive', hlost⟩ := writeChannel_ledger o u_buffer length
    (L₁.inactive _ _ hslot₁ ch (List.mem_of_getElem? hi)) hlive hchannel
  refine ⟨ch, lost', htarget, ⟨?_, fun m slot' hm x hx hact => ?_⟩, hlost⟩
  · simp only [afterWrite]
    rw [owned_update, slotHandles, channelHandles_set ch' hi, hlive', hch'.addr]
    abel
  · by_cases hmin : m = file.minor
    · subst hmin
      simp only [afterWrite, Function.update_self, Option.some.injEq] at hm
      subst hm
      rcases List.mem_or_eq_of_mem_set hx with hx | rfl
      · exact L₁.inactive _ _ hslot₁ x hx hact
      · exact hch'.inactive hact
    · simp only [afterWrite, Function.update_of_ne hmin] at hm
      exact L.inactive m slot' hm x hx hact

/-- The same for the call. -/
theorem ledger_write_call {k : Kernel} {lost : Multiset Nat} (W : WellFormed k)
    (L : Ledger k.driver lost) {fd : Nat} {file : File} {u_buffer : Nat → UInt8} {length : Nat}
    {o : Outcome} {rc : Int} {d' : Driver} (hfd : k.files fd = some file)
    (hw : deviceWrite o k.driver file u_buffer length = .ok (rc, d')) :
    ∃ lost', Ledger d' (lost + lost') ∧
      (lost' = 0 ↔ ¬LosesBuffer k (.write fd u_buffer length o, rc)) := by
  by_cases hacc : Accepted file length
  · obtain ⟨slot, hslot⟩ := W.slot fd file hfd
    obtain ⟨ch, lost', htarget, L', hlost⟩ := ledger_write L hacc hslot hw
    refine ⟨lost', L', hlost.trans (not_congr ?_)⟩
    constructor
    · rintro ⟨hact, hbuf, hout⟩
      exact ⟨file, slot, ch, hfd, hacc, hslot, htarget, hact, hbuf, hout⟩
    · rintro ⟨file', slot', ch', hfd', -, hslot', htarget', hloses⟩
      cases hfd.symm.trans hfd'
      cases hslot.symm.trans hslot'
      cases htarget.symm.trans htarget'
      exact hloses
  · obtain ⟨rc', -, hok⟩ := deviceWrite_rejected o k.driver u_buffer hacc
    rw [hok] at hw
    cases hw
    refine ⟨0, by rwa [add_zero], iff_of_true rfl ?_⟩
    rintro ⟨file', -, -, hfd', hacc', -⟩
    cases hfd.symm.trans hfd'
    exact hacc hacc'

/-! ## The result -/

/-- **A call keeps the ledger, and loses something exactly when its `krealloc` of a buffer fails.** -/
theorem ledger_step {k k' : Kernel} {e : Event} {lost : Multiset Nat} (W : WellFormed k)
    (L : Ledger k.driver lost) (hs : KeptStep k e k') :
    ∃ lost', Ledger k'.driver (lost + lost') ∧ (lost' = 0 ↔ ¬LosesBuffer k e) := by
  obtain ⟨call, rc⟩ := e
  have hkeep : k'.driver = k.driver → ¬LosesBuffer k (call, rc) →
      ∃ lost', Ledger k'.driver (lost + lost') ∧ (lost' = 0 ↔ ¬LosesBuffer k (call, rc)) := by
    intro heq hnot
    exact ⟨0, by rwa [heq, add_zero], iff_of_true rfl hnot⟩
  rcases hs with hs | ⟨rfl, fd, length, writable, rfl, -⟩
  · unfold KernelStep at hs
    cases call with
    | openFile fd minor ok =>
      cases hfd : k.files fd with
      | some file => simp [Kernel.exec, hfd] at hs
      | none =>
        rcases deviceOpen_cases ok minor k.driver with ⟨-, heq⟩ | ⟨-, heq⟩ | ⟨hnone, heq⟩
        all_goals
          simp only [Kernel.exec, hfd, heq, Option.some.injEq, Except.ok.injEq, Prod.mk.injEq] at hs
          obtain ⟨-, rfl⟩ := hs
        · exact hkeep rfl id
        · exact hkeep rfl id
        · exact ⟨0, by rw [add_zero]; exact L.withSlot hnone, iff_of_true rfl id⟩
    | ioctl fd command param =>
      simp only [Kernel.exec, Option.map_eq_some_iff, Except.ok.injEq, Prod.mk.injEq] at hs
      obtain ⟨file, hfd, -, rfl⟩ := hs
      exact hkeep rfl id
    | write fd u_buffer length o =>
      simp only [Kernel.exec, Option.map_eq_some_iff] at hs
      obtain ⟨file, hfd, hw⟩ := hs
      cases hd : deviceWrite o k.driver file u_buffer length with
      | error err => simp [hd, bind, Except.bind] at hw
      | ok r =>
        simp only [hd, bind, Except.bind, pure, Except.pure, Except.ok.injEq, Prod.mk.injEq] at hw
        obtain ⟨rfl, rfl⟩ := hw
        exact ledger_write_call W L hfd hd
    | read fd length writable =>
      simp only [Kernel.exec, Option.map_eq_some_iff] at hs
      obtain ⟨file, hfd, hw⟩ := hs
      cases hd : deviceRead k.driver file length writable with
      | error err => simp [hd, bind, Except.bind] at hw
      | ok r =>
        simp only [hd, bind, Except.bind, pure, Except.pure, Except.ok.injEq, Prod.mk.injEq] at hw
        obtain ⟨-, rfl⟩ := hw
        exact hkeep rfl id
    | release fd =>
      simp only [Kernel.exec, Option.map_eq_some_iff, Except.ok.injEq, Prod.mk.injEq] at hs
      obtain ⟨file, -, -, rfl⟩ := hs
      exact hkeep rfl id
  · exact hkeep rfl id

theorem wellFormed_kept {k k' : Kernel} {e : Event} (W : WellFormed k) (hs : KeptStep k e k') :
    WellFormed k' := by
  rcases hs with hs | ⟨rfl, -⟩
  · exact wellFormed_step W hs
  · exact W

theorem kept_det (k : Kernel) (e : Event) (k₁ k₂ : Kernel) (h₁ : KeptStep k e k₁)
    (h₂ : KeptStep k e k₂) : k₁ = k₂ := by
  rcases h₁ with h₁ | ⟨rfl, -, -, -, -, h₁⟩
  · rcases h₂ with h₂ | ⟨rfl, -, -, -, -, h₂⟩
    · exact kernelStep_det k e k₁ k₂ h₁ h₂
    · rw [KernelStep, h₂] at h₁; cases h₁
  · rcases h₂ with h₂ | ⟨rfl, -⟩
    · rw [KernelStep, h₁] at h₂; cases h₂
    · rfl

/-- What a run has lost. -/
theorem ledger_run {h : List Event} {k : Kernel} (hr : Run KeptStep Kernel.init h k) :
    ∃ lost, Ledger k.driver lost ∧ (lost = 0 ↔
      Run.EachStep KeptStep Kernel.init (fun k e => ¬LosesBuffer k e) h) := by
  suffices h : WellFormed k ∧ ∃ lost, Ledger k.driver lost ∧ (lost = 0 ↔
      Run.EachStep KeptStep Kernel.init (fun k e => ¬LosesBuffer k e) h) from h.2
  induction hr with
  | nil => exact ⟨wellFormed_init, 0, ledger_init, iff_of_true rfl Run.eachStep_nil⟩
  | @step h k k' e hr hs ih =>
    obtain ⟨W, lost, L, hlost⟩ := ih
    obtain ⟨lost', L', hlost'⟩ := ledger_step W L hs
    refine ⟨wellFormed_kept W hs, lost + lost', L', ?_⟩
    rw [add_eq_zero, Run.eachStep_cons, hlost, hlost', and_comm]
    refine and_congr_left fun _ => ?_
    constructor
    · intro hnot t ht
      rwa [ht.det kept_det hr]
    · intro hall
      exact hall k hr

/-- **Unloading releases everything exactly once iff no `krealloc` of a buffer has failed.** -/
theorem cleanup_releases_iff {h : List Event} {k : Kernel} (hr : Run KeptStep Kernel.init h k) :
    Released k.driver ↔
      Run.EachStep KeptStep Kernel.init (fun k e => ¬LosesBuffer k e) h := by
  obtain ⟨lost, L, hlost⟩ := ledger_run hr
  rw [released_iff L, hlost]

/-- A channel is written twice, the second time with a longer message. -/
theorem cleanup_releases_rewritten :
    ∃ k, Run KeptStep Kernel.init [(.write 0 (fun _ => 66) 2 ⟨some 7, some fun _ => 9, 2⟩, 2),
      (.write 0 (fun _ => 65) 1 ⟨some 7, some fun _ => 9, 1⟩, 1),
      (.ioctl 0 MSG_SLOT_CHANNEL 5, 0), (.openFile 0 3 true, 0)] k ∧ Released k.driver := by
  have hr : Run KeptStep Kernel.init [(.write 0 (fun _ => 66) 2 ⟨some 7, some fun _ => 9, 2⟩, 2),
      (.write 0 (fun _ => 65) 1 ⟨some 7, some fun _ => 9, 1⟩, 1),
      (.ioctl 0 MSG_SLOT_CHANNEL 5, 0), (.openFile 0 3 true, 0)] _ :=
    .step (.step (.step (.step .nil (.inl rfl)) (.inl rfl)) (.inl rfl)) (.inl rfl)
  refine ⟨_, hr, (cleanup_releases_iff hr).2 ?_⟩
  rw [Run.eachStep_cons, Run.eachStep_cons, Run.eachStep_cons, Run.eachStep_cons]
  refine ⟨fun t _ => ?_, fun t _ => ?_, fun t _ => id, fun t _ => id, Run.eachStep_nil⟩
  · rintro ⟨_, _, _, _, _, _, _, _, _, hbuffer⟩
    cases hbuffer
  · rintro ⟨_, _, _, _, _, _, _, _, _, hbuffer⟩
    cases hbuffer

/-- The `krealloc` of the second message fails: the first buffer is never freed. -/
theorem buffer_leaked : ¬∀ h k, Run KeptStep Kernel.init h k → Released k.driver := by
  intro hall
  have hr : Run KeptStep Kernel.init [(.write 0 (fun _ => 65) 1 ⟨some 7, some fun _ => 9, 1⟩, 1),
      (.ioctl 0 MSG_SLOT_CHANNEL 5, 0), (.openFile 0 3 true, 0)] _ :=
    .step (.step (.step .nil (.inl rfl)) (.inl rfl)) (.inl rfl)
  have hr' : Run KeptStep Kernel.init ((.write 0 (fun _ => 66) 100 ⟨some 7, none, 100⟩, -ENOMEM) ::
      [(.write 0 (fun _ => 65) 1 ⟨some 7, some fun _ => 9, 1⟩, 1),
      (.ioctl 0 MSG_SLOT_CHANNEL 5, 0), (.openFile 0 3 true, 0)]) _ := hr.step (.inl rfl)
  obtain ⟨lost, L, hlost⟩ := ledger_run hr'
  have heach := hlost.1 ((released_iff L).1 (hall _ _ hr'))
  refine (Run.eachStep_cons.1 heach).1 _ hr ?_
  exact ⟨⟨3, 5⟩, _, _, rfl, ⟨by decide, by decide, by decide⟩, rfl, rfl, rfl, by simp, rfl⟩

end OSCourse.MessageSlot
