import OSCourse.MessageSlot.Channel

/-!
# The driver is a map from `(minor, channel id)` to the last message

Here every kernel service succeeds.

* `Agrees` — the files and the channels hold what the history says.
* `agrees_step` — one call keeps it; `driver_refines_map` — so does every run, and a read
  answers from the history.
-/

set_option autoImplicit false

namespace OSCourse.MessageSlot

open Transition

/-- A call in which every kernel service succeeds. -/
def FaultlessStep (k : Kernel) (e : Event) (k' : Kernel) : Prop :=
  e.1.Succeeds ∧ KernelStep k e k'

/-- What the driver has of a channel is what the history says of it. -/
def ChannelAgrees (channel : Option MsgSlotChannel) (msg : Option (List UInt8)) : Prop :=
  match channel, msg with
  | none, none => True
  | some ch, some msg => HoldsMessage ch msg
  | _, _ => False

structure FileAgrees (h : List Event) (k : Kernel) (fd : Nat) (file : File) : Prop where
  minor : minorOf fd h = some file.minor
  ioctl : lastIoctl fd h = if file.private_data = 0#64 then none else some file.private_data
  slot : ∃ slot, k.driver.g_msg_slots file.minor = some slot

structure Agrees (h : List Event) (k : Kernel) : Prop where
  file : ∀ fd file, k.files fd = some file → FileAgrees h k fd file
  channel : ∀ minor id, ChannelAgrees (k.driver.channel minor id) (lastMessage minor id h)

theorem agrees_init : Agrees [] Kernel.init :=
  ⟨fun _ _ hf => by simp [Kernel.init] at hf, fun _ _ => trivial⟩

/-- A read of a channel that holds `msg`. -/
theorem readChannel_holds {ch : MsgSlotChannel} {msg : List UInt8} (hm : HoldsMessage ch msg)
    {length writable : Nat} (hw : length ≤ writable) :
    readChannel (some ch) length writable =
      .ok (if length < msg.length then (-ENOSPC, []) else (msg.length, msg)) := by
  obtain ⟨b, hb, hbytes⟩ := hm.buffer
  simp only [readChannel, hm.active, hm.length, hb, Bool.true_eq_false, if_false]
  by_cases hlt : length < msg.length
  · simp [hlt]
  · rw [if_neg hlt, if_neg hlt]
    unfold copyToUser
    by_cases h0 : msg.length = 0
    · rw [List.length_eq_zero_iff] at h0
      simp [h0]
    · have : msg.length - writable = 0 := by omega
      simp [h0, hbytes, this]

theorem read_agrees {h : List Event} {k : Kernel} (A : Agrees h k) {fd : Nat} {file : File}
    (hf : k.files fd = some file) {length writable : Nat} (hw : length ≤ writable) :
    deviceRead k.driver file length writable =
      .ok (expectedAnswer h file.minor (lastIoctl fd h) length) := by
  have F := A.file fd file hf
  by_cases hid : file.private_data = 0#64
  · rw [F.ioctl, if_pos hid]
    simp [deviceRead, hid, expectedAnswer]
  · obtain ⟨slot, hs⟩ := F.slot
    rw [deviceRead_eq hid (by simp [hs]), F.ioctl, if_neg hid]
    have hc := A.channel file.minor file.private_data
    simp only [expectedAnswer]
    revert hc
    cases k.driver.channel file.minor file.private_data <;>
      cases lastMessage file.minor file.private_data h <;> intro hc
    · rfl
    · exact hc.elim
    · exact hc.elim
    · exact readChannel_holds hc hw

/-- A faultless write that is accepted stores its message in the channel of the file. -/
theorem deviceWrite_faultless {o : Outcome} {d : Driver} {file : File} (u_buffer : Nat → UInt8)
    {length : Nat} {slot : MsgSlot} (hacc : Accepted file length)
    (hslot : d.g_msg_slots file.minor = some slot) (hn : o.node.isSome) (hb : o.buffer.isSome)
    (hr : length ≤ o.readable) :
    ∃ ch l' heap, HoldsMessage ch (bytesOf u_buffer length) ∧
      (∀ id, lookup l' id = if id = file.private_data then some ch else lookup slot.head id) ∧
      deviceWrite o d file u_buffer length =
        .ok (length, ⟨Function.update d.g_msg_slots file.minor (some ⟨slot.addr, l'⟩), heap⟩) := by
  obtain ⟨junk, hj⟩ := Option.isSome_iff_exists.1 hn
  rcases deviceWrite_accepted (o := o) u_buffer hacc hslot with
    ⟨hnone, -⟩ | ⟨ch, l', htgt, R, hok⟩
  · unfold target at hnone
    split at hnone
    · cases hnone
    · simp [hj] at hnone
  have hid : ch.id = file.private_data := by
    rcases target_cases htgt with ⟨hid, -⟩ | ⟨-, hnone, -⟩
    · exact hid
    · rw [hj] at hnone; cases hnone
  revert R hok
  have hres := writeChannel_result o ch u_buffer length
    (heapForWrite o slot d.heap file.private_data)
  revert hres
  generalize writeChannel o ch u_buffer length (heapForWrite o slot d.heap file.private_data) = w
  intro hres R hok
  cases hres with
  | noBuffer hnone => simp [hnone] at hb
  | noCopy _ _ _ hlt => omega
  | stored b heap' _ _ _ _ hbytes =>
    refine ⟨_, l', heap', ⟨rfl, ⟨b, rfl, hbytes⟩, ?_⟩, fun id => by rw [R.lookup, hid], hok⟩
    have : length ≤ 128 := hacc.2.2
    simp only [BitVec.toNat_ofNat, bytesOf_length]
    omega

theorem agrees_open {h : List Event} {k k' : Kernel} {fd : Nat} {minor : Minor} {ok : Bool} {rc : Int}
    (A : Agrees h k) (hok : ok = true) (hs : KernelStep k (.openFile fd minor ok, rc) k') :
    Agrees ((.openFile fd minor ok, rc) :: h) k' := by
  subst hok
  unfold KernelStep Kernel.exec at hs
  cases hfd : k.files fd with
  | some file => simp [hfd] at hs
  | none =>
    -- the slot exists afterwards, and every lookup is as before
    have hopen : ∃ d', deviceOpen true minor k.driver = (SUCCESS, d') ∧
        (∀ m slot, k.driver.g_msg_slots m = some slot → d'.g_msg_slots m = some slot) ∧
        (∃ slot, d'.g_msg_slots minor = some slot) ∧
        ∀ m id, d'.channel m id = k.driver.channel m id := by
      rcases deviceOpen_cases true minor k.driver with ⟨hslot, heq⟩ | ⟨hfalse, -⟩ | ⟨hnone, heq⟩
      · exact ⟨_, heq, fun _ _ h => h, hslot, fun _ _ => rfl⟩
      · cases hfalse
      · refine ⟨_, heq, fun m slot hslot => ?_, ⟨_, Function.update_self ..⟩, fun m id => ?_⟩
        · have : m ≠ minor := by rintro rfl; rw [hnone] at hslot; cases hslot
          simp [Driver.withSlot, Function.update_of_ne this, hslot]
        · rw [Driver.withSlot, channel_update]
          split
          · rename_i heq; subst heq; simp [lookup, Driver.channel, hnone]
          · rfl
    obtain ⟨d', heq, hkeep, hnew, hchan⟩ := hopen
    simp only [hfd, heq, if_true, Option.some.injEq, Except.ok.injEq, Prod.mk.injEq] at hs
    obtain ⟨rfl, rfl⟩ := hs
    refine ⟨fun fd' file hf => ?_, fun m id => by simpa [hchan, lastMessage] using A.channel m id⟩
    by_cases hfd' : fd' = fd
    · subst hfd'
      simp only [Function.update_self, Option.some.injEq] at hf
      subst hf
      exact ⟨by simp [minorOf], by simp [lastIoctl], hnew⟩
    · simp only [Function.update_of_ne hfd'] at hf
      have F := A.file fd' file hf
      obtain ⟨slot, hslot⟩ := F.slot
      exact ⟨by simp [minorOf, Ne.symm hfd', F.minor], by simp [lastIoctl, Ne.symm hfd', F.ioctl],
        ⟨slot, hkeep _ _ hslot⟩⟩

theorem agrees_ioctl {h : List Event} {k k' : Kernel} {fd : Nat} {command : BitVec 32}
    {param : BitVec 64} {rc : Int} (A : Agrees h k)
    (hs : KernelStep k (.ioctl fd command param, rc) k') :
    Agrees ((.ioctl fd command param, rc) :: h) k' := by
  unfold KernelStep Kernel.exec at hs
  simp only [Option.map_eq_some_iff, Except.ok.injEq, Prod.mk.injEq] at hs
  obtain ⟨file, hfd, hrc, rfl⟩ := hs
  refine ⟨fun fd' file' hf => ?_, fun m id => by simpa [lastMessage] using A.channel m id⟩
  by_cases hfd' : fd' = fd
  · subst hfd'
    simp only [Function.update_self, Option.some.injEq] at hf
    have F := A.file fd' file hfd
    unfold deviceIoctl at hf hrc
    by_cases hcmd : command ≠ MSG_SLOT_CHANNEL
    · simp only [if_pos hcmd] at hf hrc
      subst hf hrc
      exact ⟨by simp [minorOf, F.minor], by simp [lastIoctl, EINVAL, SUCCESS, F.ioctl], F.slot⟩
    · by_cases hp : param = 0#64
      · simp only [if_neg hcmd, if_pos hp] at hf hrc
        subst hf hrc
        exact ⟨by simp [minorOf, F.minor], by simp [lastIoctl, EINVAL, SUCCESS, F.ioctl], F.slot⟩
      · simp only [if_neg hcmd, if_neg hp] at hf hrc
        subst hf hrc
        exact ⟨by simp [minorOf, F.minor], by simp [lastIoctl, hp], F.slot⟩
  · simp only [Function.update_of_ne hfd'] at hf
    have F := A.file fd' file' hf
    exact ⟨by simp [minorOf, F.minor], by simp [lastIoctl, Ne.symm hfd', F.ioctl], F.slot⟩

theorem agrees_write {h : List Event} {k k' : Kernel} {fd length : Nat} {u_buffer : Nat → UInt8}
    {o : Outcome} {rc : Int} (A : Agrees h k) (hn : o.node.isSome) (hb : o.buffer.isSome)
    (hr : length ≤ o.readable) (hs : KernelStep k (.write fd u_buffer length o, rc) k') :
    Agrees ((.write fd u_buffer length o, rc) :: h) k' := by
  unfold KernelStep Kernel.exec at hs
  simp only [Option.map_eq_some_iff] at hs
  obtain ⟨file, hfd, hw⟩ := hs
  have F := A.file fd file hfd
  by_cases hacc : Accepted file length
  · obtain ⟨slot, hslot⟩ := F.slot
    obtain ⟨ch, l', heap, hm, hl, hok⟩ :=
      deviceWrite_faultless u_buffer hacc hslot hn hb hr
    simp only [hok, bind, Except.bind, pure, Except.pure, Except.ok.injEq, Prod.mk.injEq] at hw
    obtain ⟨rfl, rfl⟩ := hw
    refine ⟨fun fd' file' hf => ?_, fun m id => ?_⟩
    · have F' := A.file fd' file' hf
      refine ⟨by simp [minorOf, F'.minor], by simp [lastIoctl, F'.ioctl], ?_⟩
      by_cases hmin : file'.minor = file.minor
      · exact ⟨_, by simp only [hmin]; exact Function.update_self ..⟩
      · obtain ⟨slot', hslot'⟩ := F'.slot
        exact ⟨slot', by simp only [Function.update_of_ne hmin]; exact hslot'⟩
    · simp only [lastMessage, F.minor, F.ioctl, if_neg hacc.1, channel_update, Option.some.injEq]
      by_cases hpair : file.minor = m ∧ file.private_data = id
      · obtain ⟨rfl, rfl⟩ := hpair
        rw [if_pos rfl, hl, if_pos rfl, if_pos ⟨by omega, rfl, rfl⟩]
        exact hm
      · have hold := A.channel m id
        have hmsg : ¬(0 ≤ (length : Int) ∧ file.minor = m ∧ file.private_data = id) :=
          fun hc => hpair hc.2
        by_cases hmin : m = file.minor
        · rw [if_pos hmin, hl, if_neg (fun hc => hpair ⟨hmin.symm, hc.symm⟩), if_neg hmsg]
          simpa [Driver.channel, hmin, hslot] using hold
        · rw [if_neg hmin, if_neg hmsg]; exact hold
  · obtain ⟨rc', hneg, hok⟩ := deviceWrite_rejected o k.driver u_buffer hacc
    simp only [hok, bind, Except.bind, pure, Except.pure, Except.ok.injEq, Prod.mk.injEq] at hw
    obtain ⟨rfl, rfl⟩ := hw
    refine ⟨fun fd' file' hf => ?_, fun m id => ?_⟩
    · have F' := A.file fd' file' hf
      exact ⟨by simp [minorOf, F'.minor], by simp [lastIoctl, F'.ioctl], F'.slot⟩
    · rw [lastMessage, if_neg (by omega)]
      exact A.channel m id

/-- **One faultless call keeps the files and channels in step with the history.** -/
theorem agrees_step {h : List Event} {k k' : Kernel} {e : Event} (A : Agrees h k)
    (hs : FaultlessStep k e k') : Agrees (e :: h) k' := by
  obtain ⟨hsucc, hs⟩ := hs
  obtain ⟨call, rc⟩ := e
  cases call with
  | openFile fd minor ok => exact agrees_open A hsucc hs
  | ioctl fd command param => exact agrees_ioctl A hs
  | write fd u_buffer length o => exact agrees_write A hsucc.1 hsucc.2.1 hsucc.2.2 hs
  | read fd length writable =>
    unfold KernelStep Kernel.exec at hs
    simp only [Option.map_eq_some_iff] at hs
    obtain ⟨file, hfd, hread⟩ := hs
    rw [read_agrees A hfd hsucc] at hread
    simp only [bind, Except.bind, pure, Except.pure, Except.ok.injEq, Prod.mk.injEq] at hread
    obtain ⟨-, rfl⟩ := hread
    exact ⟨fun fd' file' hf => ⟨(A.file fd' file' hf).minor, (A.file fd' file' hf).ioctl,
      (A.file fd' file' hf).slot⟩, A.channel⟩
  | release fd =>
    unfold KernelStep Kernel.exec at hs
    simp only [Option.map_eq_some_iff, Except.ok.injEq, Prod.mk.injEq] at hs
    obtain ⟨file, -, -, rfl⟩ := hs
    refine ⟨fun fd' file' hf => ?_, A.channel⟩
    by_cases hfd' : fd' = fd
    · subst hfd'; simp at hf
    · simp only [Function.update_of_ne hfd'] at hf
      exact ⟨(A.file fd' file' hf).minor, (A.file fd' file' hf).ioctl, (A.file fd' file' hf).slot⟩

theorem agrees_run {h : List Event} {k : Kernel} (hr : Run FaultlessStep Kernel.init h k) :
    Agrees h k :=
  hr.historyInvariant agrees_init fun _ _ _ _ A hs => agrees_step A hs

/-- No faultless call crashes. -/
theorem exec_faultless {h : List Event} {k : Kernel} (A : Agrees h k) {call : Call}
    (hsucc : call.Succeeds) {r : Except Oops (Int × Kernel)} (hx : k.exec call = some r) :
    ∃ rc k', r = .ok (rc, k') := by
  cases call with
  | openFile fd minor ok =>
    cases hfd : k.files fd with
    | some file => simp [Kernel.exec, hfd] at hx
    | none => simp only [Kernel.exec, hfd, Option.some.injEq] at hx; exact ⟨_, _, hx.symm⟩
  | ioctl fd command param =>
    obtain ⟨file, -, rfl⟩ := Option.map_eq_some_iff.1 hx
    exact ⟨_, _, rfl⟩
  | release fd =>
    obtain ⟨file, -, rfl⟩ := Option.map_eq_some_iff.1 hx
    exact ⟨_, _, rfl⟩
  | read fd length writable =>
    obtain ⟨file, hfd, rfl⟩ := Option.map_eq_some_iff.1 hx
    rw [read_agrees A hfd hsucc]
    exact ⟨_, _, rfl⟩
  | write fd u_buffer length o =>
    obtain ⟨file, hfd, rfl⟩ := Option.map_eq_some_iff.1 hx
    by_cases hacc : Accepted file length
    · obtain ⟨slot, hslot⟩ := (A.file fd file hfd).slot
      obtain ⟨ch, l', heap, -, -, hok⟩ :=
        deviceWrite_faultless u_buffer hacc hslot hsucc.1 hsucc.2.1 hsucc.2.2
      rw [hok]
      exact ⟨_, _, rfl⟩
    · obtain ⟨rc', -, hok⟩ := deviceWrite_rejected o k.driver u_buffer hacc
      rw [hok]
      exact ⟨_, _, rfl⟩

/-- The event is a successful write on the pair of `file`. -/
def WritesTo (k : Kernel) (file : File) : Event → Prop
  | (.write fd _ _ _, rc) => 0 ≤ rc ∧ ∃ file', k.files fd = some file' ∧
      file'.minor = file.minor ∧ file'.private_data = file.private_data
  | _ => False

theorem lastMessage_other {h : List Event} {k : Kernel} (A : Agrees h k) {e : Event} {k' : Kernel}
    (hs : KernelStep k e k') {file : File} (hno : ¬WritesTo k file e) :
    lastMessage file.minor file.private_data (e :: h) =
      lastMessage file.minor file.private_data h := by
  obtain ⟨call, rc⟩ := e
  cases call with
  | write fd u_buffer length o =>
    rw [lastMessage, if_neg]
    rintro ⟨hrc, hm, hi⟩
    obtain ⟨file', hfd, -⟩ := Option.map_eq_some_iff.1 hs
    have F := A.file fd file' hfd
    rw [F.minor] at hm
    rw [F.ioctl] at hi
    split at hi
    · cases hi
    · exact hno ⟨hrc, file', hfd, Option.some.inj hm, Option.some.inj hi⟩
  | _ => rfl

/-- **The driver refines a map from `(minor, id)` to the last message.**  After every run in
which the kernel services succeed: a read on an open file answers from the history of the run;
no call crashes; and an event that is no successful write on the pair of a file leaves every
read on it as it was. -/
theorem driver_refines_map {h : List Event} {k : Kernel}
    (hr : Run FaultlessStep Kernel.init h k) :
    (∀ fd file, k.files fd = some file → minorOf fd h = some file.minor ∧
      ∀ length writable, length ≤ writable → deviceRead k.driver file length writable =
        .ok (expectedAnswer h file.minor (lastIoctl fd h) length)) ∧
    (∀ call, call.Succeeds → ∀ r, k.exec call = some r → ∃ rc k', r = .ok (rc, k')) ∧
    (∀ e k', FaultlessStep k e k' → ∀ fd file, k.files fd = some file → k'.files fd = some file →
      ¬WritesTo k file e → ∀ length writable, length ≤ writable →
      deviceRead k'.driver file length writable = deviceRead k.driver file length writable) := by
  have A := agrees_run hr
  refine ⟨fun fd file hf => ⟨(A.file fd file hf).minor, fun length writable hw =>
    read_agrees A hf hw⟩, fun call hsucc r hx => exec_faultless A hsucc hx, ?_⟩
  intro e k' hs fd file hf hf' hno length writable hw
  have A' := agrees_step A hs
  rw [read_agrees A hf hw, read_agrees A' hf' hw, (A.file fd file hf).ioctl,
    (A'.file fd file hf').ioctl]
  split
  · rfl
  · simp only [expectedAnswer, lastMessage_other A hs.2 hno]

/-- A write of one byte and the read that follows it. -/
theorem driver_refines_map_one :
    ∃ k file, Run FaultlessStep Kernel.init
        [(.write 0 (fun _ => 65) 1 ⟨some 7, some fun _ => 9, 1⟩, 1),
          (.ioctl 0 MSG_SLOT_CHANNEL 5, 0), (.openFile 0 3 true, 0)] k ∧
      k.files 0 = some file ∧ deviceRead k.driver file 4 4 = .ok (1, [65]) := by
  have hr : Run FaultlessStep Kernel.init
      [(.write 0 (fun _ => 65) 1 ⟨some 7, some fun _ => 9, 1⟩, 1),
        (.ioctl 0 MSG_SLOT_CHANNEL 5, 0), (.openFile 0 3 true, 0)] _ :=
    .step (.step (.step .nil ⟨rfl, rfl⟩) ⟨trivial, rfl⟩) ⟨⟨rfl, rfl, Nat.le_refl 1⟩, rfl⟩
  exact ⟨_, ⟨3, 5⟩, hr, rfl, ((driver_refines_map hr).1 0 ⟨3, 5⟩ rfl).2 4 4 (Nat.le_refl 4)⟩

end OSCourse.MessageSlot
