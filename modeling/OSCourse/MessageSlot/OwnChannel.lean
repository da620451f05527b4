import OSCourse.MessageSlot.Reach

/-!
# When a write touches only its own channel

`device_write` takes the head of the list for its own fresh node although
`add_channel_to_msg_slot` may have failed: it tests for `FAILURE`, the failure is `-ENOMEM`.

* `RoutesRight` — the write does not fault, it fails or stores the message under its own id, and
  every other node stays as it is.
* `write_routes_right_iff` — this is so iff the channel exists, its node could be allocated, or
  the write fails on a head that has no buffer to lose.
-/

set_option autoImplicit false

namespace OSCourse.MessageSlot

open Transition

/-- No node but those of the file's channel differs. -/
structure OthersKept (d d' : Driver) (file : File) : Prop where
  slots : ∀ minor, minor ≠ file.minor → d'.g_msg_slots minor = d.g_msg_slots minor
  nodes : ∀ slot slot', d.g_msg_slots file.minor = some slot →
    d'.g_msg_slots file.minor = some slot' →
    (slot'.head.filter fun x => decide (x.id ≠ file.private_data)) =
      slot.head.filter fun x => decide (x.id ≠ file.private_data)

/-- No fault; an error, or the message in the node of the file's channel; no other node changed. -/
def RoutesRight (o : Outcome) (d : Driver) (file : File) (u_buffer : Nat → UInt8) (length : Nat) :
    Prop :=
  ∃ rc d', deviceWrite o d file u_buffer length = .ok (rc, d') ∧
    (rc < 0 ∨ ∃ ch, d'.channel file.minor file.private_data = some ch ∧
      HoldsMessage ch (bytesOf u_buffer length)) ∧
    OthersKept d d' file

theorem target_none {o : Outcome} {slot : MsgSlot} {heap : Heap} {id : BitVec 64}
    (h : target o slot heap id = none) :
    lookup slot.head id = none ∧ o.node = none ∧ slot.head = [] := by
  unfold target at h
  cases hl : lookup slot.head id with
  | some ch => simp [hl] at h
  | none =>
    cases hn : o.node with
    | some junk => simp [hl, hn] at h
    | none => exact ⟨rfl, rfl, List.head?_eq_none_iff.1 (by simpa [hl, hn] using h)⟩

/-- A write that reports success left its message in its target node. -/
theorem WriteResult.holds {o : Outcome} {ch ch' : MsgSlotChannel} {u_buffer : Nat → UInt8}
    {length : Nat} {heap heap' : Heap} {rc : Int}
    (h : WriteResult o ch u_buffer length heap (rc, ch', heap')) (hlen : length ≤ MAX_BUF_LEN) :
    rc < 0 ∨ HoldsMessage ch' (bytesOf u_buffer length) := by
  cases h with
  | noBuffer => exact .inl (by decide)
  | noCopy => exact .inl (by decide)
  | stored b _ _ _ _ _ hbytes =>
    refine .inr ⟨rfl, ⟨b, rfl, hbytes⟩, ?_⟩
    have : length ≤ 128 := hlen
    simp only [BitVec.toNat_ofNat, bytesOf_length]
    omega

/-- The nodes of the other channels, when the write replaced `ch` by `ch'`. -/
theorem othersKept_iff {d : Driver} {file : File} {slot : MsgSlot} {heap : Heap}
    {l' : List MsgSlotChannel} (hslot : d.g_msg_slots file.minor = some slot) :
    OthersKept d (afterWrite d file.minor slot l' heap) file ↔
      (l'.filter fun x => decide (x.id ≠ file.private_data)) =
        slot.head.filter fun x => decide (x.id ≠ file.private_data) := by
  constructor
  · intro h
    exact h.nodes slot { slot with head := l' } hslot (by simp [afterWrite])
  · intro h
    refine ⟨fun m hm => by simp [afterWrite, Function.update_of_ne hm], fun s s' hs hs' => ?_⟩
    rw [hslot] at hs
    simp only [afterWrite, Function.update_self, Option.some.injEq] at hs hs'
    subst hs; subst hs'
    exact h

/-- A misrouted write changes the head of the list, unless it fails and finds no buffer there. -/
theorem misrouted_kept_iff {k : Kernel} (W : WellFormed k) {minor : Minor} {slot : MsgSlot}
    {id : BitVec 64} (hslot : k.driver.g_msg_slots minor = some slot) {o : Outcome}
    {ch ch' : MsgSlotChannel} {tl l' : List MsgSlotChannel} {u_buffer : Nat → UInt8} {length : Nat}
    {heap heap' : Heap} {rc : Int} (hmiss : lookup slot.head id = none)
    (hhead : slot.head = ch :: tl) (hnext : k.driver.heap.next ≤ heap.next)
    (hres : WriteResult o ch u_buffer length heap (rc, ch', heap'))
    (R : Replaces slot.head l' ch ch') :
    ((l'.filter fun x => decide (x.id ≠ id)) = slot.head.filter fun x => decide (x.id ≠ id)) ↔
      ch.msg_buffer = none ∧ o.buffer = none := by
  have hids := lookup_eq_none.1 hmiss
  have hmem : ch ∈ slot.head := by rw [hhead]; exact List.mem_cons_self ..
  have hall : (slot.head.filter fun x => decide (x.id ≠ id)) = slot.head :=
    List.filter_eq_self.2 fun x hx => by simpa using hids x hx
  have hall' : (l'.filter fun x => decide (x.id ≠ id)) = l' := by
    apply List.filter_eq_self.2
    intro x hx
    rcases R.mem x hx with rfl | hx
    · simpa using fun h => hids ch hmem (hres.id_eq.symm.trans h)
    · simpa using hids x hx
  rw [hall, hall']
  constructor
  · intro hl
    -- the head is unchanged, so no fresh buffer was put there
    have hsame : ch' = ch := by
      have hfind : lookup l' ch.id = some ch' := by rw [R.lookup, if_pos rfl]
      rw [hl, hhead, lookup_cons, if_pos rfl] at hfind
      exact (Option.some.inj hfind).symm
    have hnone : ch'.msg_buffer = none := by
      cases hb : ch'.msg_buffer with
      | none => rfl
      | some b =>
        have h1 := (hres.handle.2 b hb).1
        have h2 := W.handle _ _ hslot ch hmem b (hsame ▸ hb)
        omega
    cases hres with
    | noBuffer hbuf => exact ⟨hsame ▸ hnone, hbuf⟩
    | noCopy => cases hnone
    | stored => cases hnone
  · rintro ⟨hnone, hbuf⟩
    apply R.kept hmem
    cases hres with
    | noBuffer => rw [← hnone]
    | noCopy _ _ hne => exact absurd hbuf hne
    | stored _ _ hne => exact absurd hbuf hne

theorem routesRight_ok {o : Outcome} {d d' : Driver} {file : File} {u_buffer : Nat → UInt8}
    {length : Nat} {rc : Int} (hw : deviceWrite o d file u_buffer length = .ok (rc, d')) :
    RoutesRight o d file u_buffer length ↔
      (rc < 0 ∨ ∃ ch, d'.channel file.minor file.private_data = some ch ∧
        HoldsMessage ch (bytesOf u_buffer length)) ∧ OthersKept d d' file := by
  constructor
  · rintro ⟨rc', d'', hw', h⟩
    rw [hw] at hw'; cases hw'
    exact h
  · exact fun h => ⟨rc, d', hw, h⟩

/-- **A write touches only its own channel iff** the channel exists, its node can be allocated,
or the node taken by mistake has no buffer and gets none. -/
theorem write_routes_right_iff {h : List Event} {k : Kernel} (hr : Run KernelStep Kernel.init h k)
    {fd : Nat} {file : File} (hf : k.files fd = some file) (hid : file.private_data ≠ 0#64)
    (o : Outcome) (u_buffer : Nat → UInt8) {length : Nat} (hlo : 1 ≤ length)
    (hhi : length ≤ MAX_BUF_LEN) :
    RoutesRight o k.driver file u_buffer length ↔
      ∃ slot, k.driver.g_msg_slots file.minor = some slot ∧
        (lookup slot.head file.private_data ≠ none ∨ o.node ≠ none ∨
          ∃ hd tl, slot.head = hd :: tl ∧ hd.msg_buffer = none ∧ o.buffer = none) := by
  have W := wellFormed_run hr
  obtain ⟨slot, hslot⟩ := W.slot fd file hf
  simp only [hslot, Option.some.injEq, exists_eq_left']
  rcases write_shape (o := o) u_buffer ⟨hid, hlo, hhi⟩ hslot with
    ⟨htgt, herr⟩ | ⟨ch, l', rc, ch', heap, heap', htgt, hnext, hres, R, hok⟩
  · obtain ⟨hl, hn, hnil⟩ := target_none htgt
    rw [hnil] at hl
    simp [RoutesRight, herr, hl, hn, hnil]
  · rw [routesRight_ok hok, othersKept_iff hslot]
    rcases target_cases htgt with ⟨hown, hfound⟩ | ⟨hmiss, hn, tl, hhead⟩
    · have hstored : rc < 0 ∨ ∃ ch, (afterWrite k.driver file.minor slot l' heap').channel file.minor
          file.private_data = some ch ∧ HoldsMessage ch (bytesOf u_buffer length) := by
        refine (hres.holds hhi).imp_right fun hm => ⟨ch', ?_, hm⟩
        rw [afterWrite, channel_update, if_pos rfl, R.lookup, if_pos hown.symm]
      have hothers := R.others
      rw [hown] at hothers
      exact iff_of_true ⟨hstored, hothers⟩ (hfound.imp_right .inl)
    · have hkept := misrouted_kept_iff W hslot hmiss hhead hnext hres R
      constructor
      · rintro ⟨-, hl⟩
        exact .inr (.inr ⟨ch, tl, hhead, hkept.1 hl⟩)
      · rintro (hl | hn' | ⟨hd, tl', hhead', hnone⟩)
        · exact absurd hmiss hl
        · exact absurd hn hn'
        · rw [hhead] at hhead'
          cases hhead'
          refine ⟨.inl ?_, hkept.2 hnone⟩
          cases hres with
          | noBuffer => decide
          | noCopy => decide
          | stored _ _ hne => exact absurd hnone.2 hne

/-- The first write on a channel, with memory for its node but not for its buffer. -/
theorem write_routes_right_iff_first :
    ∃ k file, Run KernelStep Kernel.init
        [(.ioctl 0 MSG_SLOT_CHANNEL 5, 0), (.openFile 0 3 true, 0)] k ∧
      RoutesRight ⟨some 7, none, 1⟩ k.driver file (fun _ => 65) 1 := by
  have hr : Run KernelStep Kernel.init
      [(.ioctl 0 MSG_SLOT_CHANNEL 5, 0), (.openFile 0 3 true, 0)] _ := .step (.step .nil rfl) rfl
  refine ⟨_, ⟨3, 5⟩, hr, ?_⟩
  have hiff := @write_routes_right_iff _ _ hr 0 ⟨3, 5⟩ rfl (by decide) ⟨some 7, none, 1⟩
    (fun _ => 65) 1 (by decide) (by decide)
  exact hiff.2 ⟨_, rfl, .inr (.inl (by simp))⟩

/-- Without memory for its node, the first write on channel 2 lands in channel 1. -/
theorem write_misrouted :
    ¬∀ (h : List Event) (k : Kernel), Run KernelStep Kernel.init h k →
      ∀ (fd : Nat) (file : File), k.files fd = some file → file.private_data ≠ 0#64 →
      ∀ (o : Outcome) (u_buffer : Nat → UInt8) (length : Nat), 1 ≤ length → length ≤ MAX_BUF_LEN →
        RoutesRight o k.driver file u_buffer length := by
  intro hclaim
  have hr : Run KernelStep Kernel.init
      [(.ioctl 0 MSG_SLOT_CHANNEL 2, 0), (.write 0 (fun _ => 65) 1 ⟨some 7, some fun _ => 9, 1⟩, 1),
        (.ioctl 0 MSG_SLOT_CHANNEL 1, 0), (.openFile 0 3 true, 0)] _ :=
    .step (.step (.step (.step .nil rfl) rfl) rfl) rfl
  obtain ⟨rc, d', hw, hstored, -⟩ := hclaim _ _ hr 0 ⟨3, 2⟩ rfl (by decide)
    ⟨none, some fun _ => 9, 1⟩ (fun _ => 66) 1 (by decide) (by decide)
  cases hw
  rcases hstored with hneg | ⟨ch, hch, -⟩
  · exact absurd hneg (by decide)
  · cases hch

end OSCourse.MessageSlot
