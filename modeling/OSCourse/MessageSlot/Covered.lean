import OSCourse.MessageSlot.Reach

/-!
# When the buffers cover the recorded messages

* `Covered` — an active channel has a buffer of at least its recorded length, which is between 1
  and `MAX_BUF_LEN`; `Sound` — every channel is covered and no read faults.
* `Covers` — the writes that keep it: the allocation fails on an inactive channel only, and a
  copy that fails finds a recorded length that the fresh buffer covers.
* `channels_covered_iff` — a run keeps `Sound` iff all its writes are such.
-/

set_option autoImplicit false

namespace OSCourse.MessageSlot

open Transition

def Covered (ch : MsgSlotChannel) : Prop :=
  ch.active = true → (∃ b, ch.msg_buffer = some b ∧ ch.curr_msg_len.toNat ≤ b.bytes.length) ∧
    1 ≤ ch.curr_msg_len.toNat ∧ ch.curr_msg_len.toNat ≤ MAX_BUF_LEN

def AllCovered (d : Driver) : Prop :=
  ∀ minor slot, d.g_msg_slots minor = some slot → ∀ ch ∈ slot.head, Covered ch

/-- Every channel is covered, and no read on an open file leaves its buffer. -/
structure Sound (k : Kernel) : Prop where
  covered : AllCovered k.driver
  reads : ∀ fd file, k.files fd = some file → ∀ length writable e,
    deviceRead k.driver file length writable ≠ .error e

/-- The condition on one step. -/
def Covers (k : Kernel) (e : Event) : Prop :=
  match e.1 with
  | .write fd _ length o =>
    ∀ file slot ch, k.files fd = some file → Accepted file length →
      k.driver.g_msg_slots file.minor = some slot →
      target o slot k.driver.heap file.private_data = some ch →
      (o.buffer = none → ch.active = false) ∧
      (o.buffer ≠ none → o.readable < length →
        1 ≤ ch.curr_msg_len.toNat ∧ ch.curr_msg_len.toNat ≤ length)
  | _ => True

theorem readChannel_covered {c : Option MsgSlotChannel} (hc : ∀ ch, c = some ch → Covered ch)
    (length writable : Nat) (e : Oops) : readChannel c length writable ≠ .error e := by
  cases c with
  | none => simp [readChannel]
  | some ch =>
    cases hact : ch.active with
    | false => simp [readChannel, hact]
    | true =>
      obtain ⟨⟨b, hb, hlen⟩, hlo, -⟩ := hc ch rfl hact
      simp only [readChannel, hact, hb, Bool.true_eq_false, if_false]
      split
      · simp
      · rw [copyToUser, if_neg (by omega)]
        simp only [if_pos hlen]
        split <;> simp

/-- Covered channels are read without a fault. -/
theorem sound_iff {k : Kernel} (W : WellFormed k) : Sound k ↔ AllCovered k.driver := by
  refine ⟨Sound.covered, fun hc => ⟨hc, fun fd file hf length writable e => ?_⟩⟩
  by_cases hid : file.private_data = 0#64
  · simp [deviceRead, hid]
  · obtain ⟨slot, hslot⟩ := W.slot fd file hf
    rw [deviceRead_eq hid (by simp [hslot])]
    refine readChannel_covered (fun ch hch => ?_) _ _ _
    rw [Driver.channel, hslot] at hch
    exact hc _ _ hslot ch (lookup_mem hch)

/-- What covers the node after a write. -/
theorem covered_write_iff {o : Outcome} {ch ch' : MsgSlotChannel} {u_buffer : Nat → UInt8}
    {length : Nat} {heap heap' : Heap} {rc : Int}
    (h : WriteResult o ch u_buffer length heap (rc, ch', heap')) (hlo : 1 ≤ length)
    (hhi : length ≤ MAX_BUF_LEN) :
    Covered ch' ↔ (o.buffer = none → ch.active = false) ∧
      (o.buffer ≠ none → o.readable < length →
        1 ≤ ch.curr_msg_len.toNat ∧ ch.curr_msg_len.toNat ≤ length) := by
  have h128 : length ≤ 128 := hhi
  cases h with
  | noBuffer hbuf => simp [Covered, hbuf]
  | noCopy b _ hbuf hlt _ _ hbytes =>
    simp only [Covered, hbuf, hlt, MAX_BUF_LEN, Option.some.injEq, exists_eq_left', hbytes,
      copiedBytes_length, false_implies, true_and, forall_const, ne_eq, not_false_eq_true]
    omega
  | stored b _ hbuf hle _ _ hbytes =>
    have hlen : (BitVec.ofNat 32 length).toNat = length := by
      rw [BitVec.toNat_ofNat]; omega
    simp only [Covered, hlen, MAX_BUF_LEN, Option.some.injEq, exists_eq_left', hbytes,
      bytesOf_length, forall_const]
    refine iff_of_true ⟨Nat.le_refl _, hlo, h128⟩ ⟨fun hnone => absurd hnone hbuf, fun _ _ => ?_⟩
    omega

theorem allCovered_afterWrite {d : Driver} {minor : Minor} {slot : MsgSlot}
    {ch ch' : MsgSlotChannel} {l' : List MsgSlotChannel} {heap : Heap} (hc : AllCovered d)
    (hslot : d.g_msg_slots minor = some slot) (R : Replaces slot.head l' ch ch') :
    AllCovered (afterWrite d minor slot l' heap) ↔ Covered ch' := by
  constructor
  · exact fun h => h minor { slot with head := l' } (by simp [afterWrite]) ch' R.new_mem
  · intro h m s hs x hx
    by_cases hm : m = minor
    · subst hm
      simp only [afterWrite, Function.update_self, Option.some.injEq] at hs
      subst hs
      rcases R.mem x hx with rfl | hx
      · exact h
      · exact hc _ _ hslot x hx
    · simp only [afterWrite, Function.update_of_ne hm] at hs
      exact hc _ _ hs x hx

theorem allCovered_open {d d' : Driver} {minor : Minor} {ok : Bool} {rc : Int} (hc : AllCovered d)
    (ho : deviceOpen ok minor d = (rc, d')) : AllCovered d' := by
  rcases deviceOpen_cases ok minor d with ⟨-, heq⟩ | ⟨-, heq⟩ | ⟨-, heq⟩
  · rw [heq] at ho; cases ho; exact hc
  · rw [heq] at ho; cases ho; exact hc
  · rw [heq] at ho; cases ho
    intro m s hs
    by_cases hm : m = minor
    · subst hm
      simp only [Driver.withSlot, Function.update_self, Option.some.injEq] at hs
      subst hs
      simp
    · simp only [Driver.withSlot, Function.update_of_ne hm] at hs
      exact hc m s hs

/-- **One step keeps the channels covered iff it meets the condition.** -/
theorem covered_step {k k' : Kernel} {e : Event} (W : WellFormed k) (hc : AllCovered k.driver)
    (hs : KernelStep k e k') : AllCovered k'.driver ↔ Covers k e := by
  obtain ⟨call, rc⟩ := e
  unfold KernelStep at hs
  cases call with
  | openFile fd minor ok =>
    simp only [Covers, iff_true]
    cases hfd : k.files fd with
    | some file => simp [Kernel.exec, hfd] at hs
    | none =>
      simp only [Kernel.exec, hfd, Option.some.injEq, Except.ok.injEq, Prod.mk.injEq] at hs
      obtain ⟨-, rfl⟩ := hs
      exact allCovered_open hc rfl
  | ioctl fd command param =>
    simp only [Kernel.exec, Option.map_eq_some_iff, Except.ok.injEq, Prod.mk.injEq] at hs
    obtain ⟨file, -, -, rfl⟩ := hs
    simpa [Covers] using hc
  | write fd u_buffer length o =>
    simp only [Kernel.exec, Option.map_eq_some_iff] at hs
    obtain ⟨file, hfd, hw⟩ := hs
    simp only [Covers, hfd, Option.some.injEq]
    by_cases hacc : Accepted file length
    · obtain ⟨slot, hslot⟩ := W.slot fd file hfd
      rcases write_shape (o := o) u_buffer hacc hslot with
        ⟨-, herr⟩ | ⟨ch, l', rc', ch', heap, heap', htgt, -, hres, R, hok⟩
      · simp [herr, bind, Except.bind] at hw
      simp only [hok, bind, Except.bind, pure, Except.pure, Except.ok.injEq, Prod.mk.injEq] at hw
      obtain ⟨-, rfl⟩ := hw
      rw [allCovered_afterWrite hc hslot R, covered_write_iff hres hacc.2.1 hacc.2.2]
      constructor
      · rintro hcov file' slot' ch'' rfl - hslot' htgt'
        rw [hslot] at hslot'; cases hslot'
        rw [htgt] at htgt'; cases htgt'
        exact hcov
      · intro hcov
        exact hcov file slot ch rfl hacc hslot htgt
    · obtain ⟨rc', -, hok⟩ := deviceWrite_rejected o k.driver u_buffer hacc
      simp only [hok, bind, Except.bind, pure, Except.pure, Except.ok.injEq, Prod.mk.injEq] at hw
      obtain ⟨-, rfl⟩ := hw
      apply iff_of_true hc
      rintro file' slot' ch'' rfl hacc'
      exact absurd hacc' hacc
  | read fd length writable =>
    simp only [Kernel.exec, Option.map_eq_some_iff] at hs
    obtain ⟨file, -, hw⟩ := hs
    cases hd : deviceRead k.driver file length writable with
    | error e => simp [hd, bind, Except.bind] at hw
    | ok r =>
      simp only [hd, bind, Except.bind, pure, Except.pure, Except.ok.injEq, Prod.mk.injEq] at hw
      obtain ⟨-, rfl⟩ := hw
      simpa [Covers] using hc
  | release fd =>
    simp only [Kernel.exec, Option.map_eq_some_iff, Except.ok.injEq, Prod.mk.injEq] at hs
    obtain ⟨file, -, -, rfl⟩ := hs
    simpa [Covers] using hc

/-- **The buffers cover the recorded messages all along a run iff every write of it meets the
condition.** -/
theorem channels_covered_iff {h : List Event} {k : Kernel} (hr : Run KernelStep Kernel.init h k) :
    Run.Always KernelStep Kernel.init Sound h ↔ Run.EachStep KernelStep Kernel.init Covers h := by
  refine Run.always_iff (J := WellFormed) kernelStep_det wellFormed_init ?_
    (fun _ _ _ W hs => wellFormed_step W hs) ?_ hr
  · exact (sound_iff wellFormed_init).2 fun _ _ hs => by simp [Kernel.init, Driver.init] at hs
  · intro k e k' W hP hs
    rw [sound_iff (wellFormed_step W hs)]
    exact covered_step W hP.covered hs

/-- A first write that finds no memory for its buffer leaves the channels covered. -/
theorem channels_covered_iff_first :
    ∃ k, Run KernelStep Kernel.init
        [(.write 0 (fun _ => 65) 1 ⟨some 7, none, 1⟩, -ENOMEM),
          (.ioctl 0 MSG_SLOT_CHANNEL 5, 0), (.openFile 0 3 true, 0)] k ∧ Sound k := by
  have hr₀ : Run KernelStep Kernel.init
      [(.ioctl 0 MSG_SLOT_CHANNEL 5, 0), (.openFile 0 3 true, 0)] _ := .step (.step .nil rfl) rfl
  have hr : Run KernelStep Kernel.init
      [(.write 0 (fun _ => 65) 1 ⟨some 7, none, 1⟩, -ENOMEM),
        (.ioctl 0 MSG_SLOT_CHANNEL 5, 0), (.openFile 0 3 true, 0)] _ := hr₀.step rfl
  refine ⟨_, hr, (channels_covered_iff hr).2 ?_ _ (List.suffix_refl _) _ hr⟩
  refine Run.eachStep_cons.2 ⟨fun t ht => ?_, Run.eachStep_cons.2 ⟨fun _ _ => trivial,
    Run.eachStep_cons.2 ⟨fun _ _ => trivial, Run.eachStep_nil⟩⟩⟩
  cases hr₀.det kernelStep_det ht
  rintro _ _ _ ⟨⟩ - ⟨⟩ ⟨⟩
  exact ⟨fun _ => rfl, fun hbuf => absurd rfl hbuf⟩

/-- A first write whose copy fails leaves an active channel with a length that was never set. -/
theorem channel_not_covered :
    ¬∀ (h : List Event) (k : Kernel), Run KernelStep Kernel.init h k → Sound k := by
  intro hclaim
  have hr : Run KernelStep Kernel.init
      [(.write 0 (fun _ => 65) 1 ⟨some 200, some fun _ => 9, 0⟩, -EFAULT),
        (.ioctl 0 MSG_SLOT_CHANNEL 5, 0), (.openFile 0 3 true, 0)] _ :=
    .step (.step (.step .nil rfl) rfl) rfl
  exact (hclaim _ _ hr).reads 0 ⟨3, 5⟩ rfl 200 200 .outOfBounds (by decide)

end OSCourse.MessageSlot
