import OSCourse.MessageSlot.Channel

/-!
# What every run of the driver keeps, whatever fails

* `WellFormed` — an open file has its slot, no channel has id 0, and the handle of a buffer in
  use was given out.
* `write_shape` — an accepted write on an open file faults on NULL or replaces its target node.
-/

set_option autoImplicit false

namespace OSCourse.MessageSlot

open Transition

structure WellFormed (k : Kernel) : Prop where
  slot : ∀ fd file, k.files fd = some file → ∃ slot, k.driver.g_msg_slots file.minor = some slot
  id : ∀ minor slot, k.driver.g_msg_slots minor = some slot → ∀ ch ∈ slot.head, ch.id ≠ 0#64
  handle : ∀ minor slot, k.driver.g_msg_slots minor = some slot → ∀ ch ∈ slot.head,
    ∀ b, ch.msg_buffer = some b → b.handle < k.driver.heap.next

theorem wellFormed_init : WellFormed Kernel.init :=
  ⟨fun _ _ h => by simp [Kernel.init] at h, fun _ _ h => by simp [Kernel.init, Driver.init] at h,
    fun _ _ h => by simp [Kernel.init, Driver.init] at h⟩

/-- The driver after an accepted write. -/
def afterWrite (d : Driver) (minor : Minor) (slot : MsgSlot) (l' : List MsgSlotChannel)
    (heap : Heap) : Driver :=
  ⟨Function.update d.g_msg_slots minor (some { slot with head := l' }), heap⟩

/-- **An accepted write** faults on the NULL channel pointer or replaces its target node. -/
theorem write_shape {o : Outcome} {d : Driver} {file : File} {slot : MsgSlot}
    (u_buffer : Nat → UInt8) {length : Nat} (hacc : Accepted file length)
    (hslot : d.g_msg_slots file.minor = some slot) :
    (target o slot d.heap file.private_data = none ∧
      deviceWrite o d file u_buffer length = .error .nullDeref) ∨
    ∃ ch l' rc ch' heap heap', target o slot d.heap file.private_data = some ch ∧
      d.heap.next ≤ heap.next ∧
      WriteResult o ch u_buffer length heap (rc, ch', heap') ∧ Replaces slot.head l' ch ch' ∧
      deviceWrite o d file u_buffer length = .ok (rc, afterWrite d file.minor slot l' heap') := by
  rcases deviceWrite_accepted (o := o) u_buffer hacc hslot with
    hnone | ⟨ch, l', htgt, R, hok⟩
  · exact .inl hnone
  · refine .inr ⟨ch, l', _, _, _, _, htgt, ?_, writeChannel_result o ch u_buffer length
      (heapForWrite o slot d.heap file.private_data), R, hok⟩
    unfold heapForWrite
    split
    · exact Nat.le_succ _
    · exact Nat.le_refl _

theorem WriteResult.id_eq {o : Outcome} {ch : MsgSlotChannel} {u_buffer : Nat → UInt8}
    {length : Nat} {heap : Heap} {r : Int × MsgSlotChannel × Heap}
    (h : WriteResult o ch u_buffer length heap r) : r.2.1.id = ch.id := by
  cases h <;> rfl

theorem WriteResult.handle {o : Outcome} {ch ch' : MsgSlotChannel} {u_buffer : Nat → UInt8}
    {length : Nat} {heap heap' : Heap} {rc : Int}
    (h : WriteResult o ch u_buffer length heap (rc, ch', heap')) :
    heap.next ≤ heap'.next ∧
      ∀ b, ch'.msg_buffer = some b → b.handle = heap.next ∧ heap'.next = heap.next + 1 := by
  cases h with
  | noBuffer => exact ⟨Nat.le_refl _, fun b hb => by cases hb⟩
  | noCopy b heap' _ _ hb hnext =>
    exact ⟨by omega, fun b' hb' => by cases hb'; exact ⟨hb, hnext⟩⟩
  | stored b heap' _ _ hb hnext =>
    exact ⟨by omega, fun b' hb' => by cases hb'; exact ⟨hb, hnext⟩⟩

theorem wellFormed_write {k : Kernel} (W : WellFormed k) {o : Outcome} {file : File}
    {u_buffer : Nat → UInt8} {length : Nat} {rc : Int} {d' : Driver} {fd : Nat}
    (hfd : k.files fd = some file)
    (hw : deviceWrite o k.driver file u_buffer length = .ok (rc, d')) :
    WellFormed { k with driver := d' } := by
  by_cases hacc : Accepted file length
  · obtain ⟨slot, hslot⟩ := W.slot fd file hfd
    rcases write_shape (o := o) u_buffer hacc hslot with
      ⟨-, herr⟩ | ⟨ch, l', rc', ch', heap, heap', htgt, hle, hres, R, hok⟩
    · rw [herr] at hw; cases hw
    rw [hok] at hw; cases hw
    have hid : ch.id ≠ 0#64 := by
      rcases target_cases htgt with ⟨hid, -⟩ | ⟨-, -, tl, htl⟩
      · rw [hid]; exact hacc.1
      · exact W.id _ _ hslot ch (by rw [htl]; exact List.mem_cons_self ..)
    have hhandle := hres.handle
    refine ⟨fun fd' file' hf => ?_, fun m slot' hm x hx => ?_, fun m slot' hm x hx b hb => ?_⟩
    · by_cases hmin : file'.minor = file.minor
      · exact ⟨_, by simp only [afterWrite, hmin]; exact Function.update_self ..⟩
      · obtain ⟨slot', hs'⟩ := W.slot fd' file' hf
        exact ⟨slot', by simp only [afterWrite, Function.update_of_ne hmin]; exact hs'⟩
    · by_cases hmin : m = file.minor
      · subst hmin
        simp only [afterWrite, Function.update_self, Option.some.injEq] at hm
        subst hm
        rcases R.mem x hx with rfl | hx
        · exact fun h => hid (hres.id_eq.symm.trans h)
        · exact W.id _ _ hslot x hx
      · simp only [afterWrite, Function.update_of_ne hmin] at hm
        exact W.id _ _ hm x hx
    · by_cases hmin : m = file.minor
      · subst hmin
        simp only [afterWrite, Function.update_self, Option.some.injEq] at hm
        subst hm
        rcases R.mem x hx with rfl | hx
        · obtain ⟨h1, h2⟩ := hhandle.2 b hb
          simp only [afterWrite]; omega
        · have := W.handle _ _ hslot x hx b hb
          simp only [afterWrite]; omega
      · simp only [afterWrite, Function.update_of_ne hmin] at hm
        have := W.handle _ _ hm x hx b hb
        simp only [afterWrite]; omega
  · obtain ⟨rc', -, hok⟩ := deviceWrite_rejected o k.driver u_buffer hacc
    rw [hok] at hw; cases hw
    exact W

theorem WellFormed.addFile {k : Kernel} (W : WellFormed k) {fd : Nat} {minor : Minor}
    (hslot : ∃ slot, k.driver.g_msg_slots minor = some slot) :
    WellFormed { k with files := Function.update k.files fd (some ⟨minor, 0#64⟩) } := by
  refine ⟨fun fd' file hf => ?_, W.id, W.handle⟩
  by_cases hfd' : fd' = fd
  · subst hfd'
    simp only [Function.update_self, Option.some.injEq] at hf
    subst hf; exact hslot
  · simp only [Function.update_of_ne hfd'] at hf; exact W.slot fd' file hf

theorem WellFormed.addSlot {k : Kernel} (W : WellFormed k) {minor : Minor}
    (hnone : k.driver.g_msg_slots minor = none) :
    WellFormed { k with driver := k.driver.withSlot minor } := by
  refine ⟨fun fd file hf => ?_, fun m slot hs ch hch => ?_, fun m slot hs ch hch b hb => ?_⟩
  · obtain ⟨slot, hs⟩ := W.slot fd file hf
    have : file.minor ≠ minor := by rintro rfl; rw [hnone] at hs; cases hs
    exact ⟨slot, by simp only [Driver.withSlot, Function.update_of_ne this]; exact hs⟩
  · by_cases hmin : m = minor
    · subst hmin
      simp only [Driver.withSlot, Function.update_self, Option.some.injEq] at hs
      subst hs; cases hch
    · simp only [Driver.withSlot, Function.update_of_ne hmin] at hs
      exact W.id m slot hs ch hch
  · by_cases hmin : m = minor
    · subst hmin
      simp only [Driver.withSlot, Function.update_self, Option.some.injEq] at hs
      subst hs; cases hch
    · simp only [Driver.withSlot, Function.update_of_ne hmin] at hs
      exact Nat.lt_succ_of_lt (W.handle m slot hs ch hch b hb)

theorem wellFormed_open {k k' : Kernel} {fd : Nat} {minor : Minor} {ok : Bool} {rc : Int}
    (W : WellFormed k) (hs : KernelStep k (.openFile fd minor ok, rc) k') : WellFormed k' := by
  unfold KernelStep at hs
  cases hfd : k.files fd with
  | some file => simp [Kernel.exec, hfd] at hs
  | none =>
    rcases deviceOpen_cases ok minor k.driver with ⟨hslot, heq⟩ | ⟨-, heq⟩ | ⟨hnone, heq⟩
    all_goals
      simp only [Kernel.exec, hfd, heq, Option.some.injEq, Except.ok.injEq, Prod.mk.injEq] at hs
      obtain ⟨-, rfl⟩ := hs
    · exact W.addFile hslot
    · exact W
    · exact (W.addSlot hnone).addFile ⟨_, Function.update_self ..⟩

/-- One call keeps the driver well formed. -/
theorem wellFormed_step {k k' : Kernel} {e : Event} (W : WellFormed k) (hs : KernelStep k e k') :
    WellFormed k' := by
  obtain ⟨call, rc⟩ := e
  unfold KernelStep at hs
  cases call with
  | openFile fd minor ok => exact wellFormed_open W hs
  | ioctl fd command param =>
    simp only [Kernel.exec, Option.map_eq_some_iff, Except.ok.injEq, Prod.mk.injEq] at hs
    obtain ⟨file, hfd, -, rfl⟩ := hs
    have hminor : (deviceIoctl file command param).2.minor = file.minor := by
      unfold deviceIoctl
      split
      · rfl
      · split <;> rfl
    refine ⟨fun fd' file' hf => ?_, W.id, W.handle⟩
    by_cases hfd' : fd' = fd
    · subst hfd'
      simp only [Function.update_self, Option.some.injEq] at hf
      subst hf
      rw [hminor]; exact W.slot fd' file hfd
    · simp only [Function.update_of_ne hfd'] at hf; exact W.slot fd' file' hf
  | write fd u_buffer length o =>
    simp only [Kernel.exec, Option.map_eq_some_iff] at hs
    obtain ⟨file, hfd, hw⟩ := hs
    cases hd : deviceWrite o k.driver file u_buffer length with
    | error e => simp [hd, bind, Except.bind] at hw
    | ok r =>
      simp only [hd, bind, Except.bind, pure, Except.pure, Except.ok.injEq, Prod.mk.injEq] at hw
      obtain ⟨-, rfl⟩ := hw
      exact wellFormed_write W hfd hd
  | read fd length writable =>
    simp only [Kernel.exec, Option.map_eq_some_iff] at hs
    obtain ⟨file, hfd, hw⟩ := hs
    cases hd : deviceRead k.driver file length writable with
    | error e => simp [hd, bind, Except.bind] at hw
    | ok r =>
      simp only [hd, bind, Except.bind, pure, Except.pure, Except.ok.injEq, Prod.mk.injEq] at hw
      obtain ⟨-, rfl⟩ := hw
      exact W
  | release fd =>
    simp only [Kernel.exec, Option.map_eq_some_iff, Except.ok.injEq, Prod.mk.injEq] at hs
    obtain ⟨file, -, -, rfl⟩ := hs
    refine ⟨fun fd' file' hf => ?_, W.id, W.handle⟩
    by_cases hfd' : fd' = fd
    · subst hfd'; simp at hf
    · simp only [Function.update_of_ne hfd'] at hf; exact W.slot fd' file' hf

theorem wellFormed_run {h : List Event} {k : Kernel} (hr : Run KernelStep Kernel.init h k) :
    WellFormed k :=
  hr.invariant wellFormed_init fun _ _ _ W hs => wellFormed_step W hs

end OSCourse.MessageSlot
