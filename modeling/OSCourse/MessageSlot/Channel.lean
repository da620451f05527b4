import OSCourse.MessageSlot.Files

/-!
# One channel of a slot

Reads and writes find a channel by its id.  `Driver.channel` is that lookup; `deviceRead_eq`
says that a read sees nothing else, and `deviceWrite_cases` lists everything a write can do: it
is rejected, or it works on one node, which is the channel of the file, a fresh node, or (when no
node could be allocated) the head of the list.
-/

set_option autoImplicit false

namespace OSCourse.MessageSlot

/-- The first node with the given id. -/
def lookup (l : List MsgSlotChannel) (id : BitVec 64) : Option MsgSlotChannel :=
  l.find? fun ch => decide (ch.id = id)

theorem lookup_cons (ch : MsgSlotChannel) (l : List MsgSlotChannel) (id : BitVec 64) :
    lookup (ch :: l) id = if ch.id = id then some ch else lookup l id := by
  unfold lookup
  by_cases h : ch.id = id
  · simp [h]
  · simp [h]

theorem lookup_id {l : List MsgSlotChannel} {id : BitVec 64} {ch : MsgSlotChannel}
    (h : lookup l id = some ch) : ch.id = id := by
  simpa using List.find?_some h

theorem lookup_mem {l : List MsgSlotChannel} {id : BitVec 64} {ch : MsgSlotChannel}
    (h : lookup l id = some ch) : ch ∈ l := List.mem_of_find?_eq_some h

theorem lookup_eq_none {l : List MsgSlotChannel} {id : BitVec 64} :
    lookup l id = none ↔ ∀ ch ∈ l, ch.id ≠ id := by
  simp [lookup]

/-- `find_channel` returns the position of the looked-up node. -/
theorem findChannel_some {l : List MsgSlotChannel} {id : BitVec 64} {i : Nat}
    (h : findChannel l id = some i) : ∃ ch, l[i]? = some ch ∧ lookup l id = some ch := by
  induction l generalizing i with
  | nil => cases h
  | cons tmp next ih =>
    rw [lookup_cons]
    unfold findChannel at h
    split at h
    · rename_i heq
      cases h
      exact ⟨tmp, rfl, by rw [if_pos heq]⟩
    · rename_i hne
      obtain ⟨j, hj, rfl⟩ := Option.map_eq_some_iff.1 h
      obtain ⟨ch, hch, hl⟩ := ih hj
      exact ⟨ch, by simpa using hch, by rw [if_neg hne, hl]⟩

theorem findChannel_none {l : List MsgSlotChannel} {id : BitVec 64} :
    findChannel l id = none ↔ lookup l id = none := by
  induction l with
  | nil => simp [findChannel, lookup]
  | cons tmp next ih =>
    rw [lookup_cons]
    unfold findChannel
    split <;> simp_all

theorem findChannel_bind (l : List MsgSlotChannel) (id : BitVec 64) :
    (findChannel l id).bind (l[·]?) = lookup l id := by
  cases h : findChannel l id with
  | none => simp [findChannel_none.1 h]
  | some i =>
    obtain ⟨ch, hch, hl⟩ := findChannel_some h
    simp [hch, hl]

/-- Replacing the looked-up node changes the lookup of its id only. -/
theorem lookup_set {l : List MsgSlotChannel} {id : BitVec 64} {i : Nat} {ch' : MsgSlotChannel}
    (h : findChannel l id = some i) (hid : ch'.id = id) (id' : BitVec 64) :
    lookup (l.set i ch') id' = if id' = id then some ch' else lookup l id' := by
  induction l generalizing i with
  | nil => cases h
  | cons tmp next ih =>
    unfold findChannel at h
    split at h
    · rename_i heq
      cases h
      rw [List.set_cons_zero, lookup_cons, lookup_cons, hid, heq]
      by_cases hc : id = id'
      · simp [hc]
      · simp [hc, Ne.symm hc]
    · rename_i hne
      obtain ⟨j, hj, rfl⟩ := Option.map_eq_some_iff.1 h
      rw [List.set_cons_succ, lookup_cons, lookup_cons, ih hj]
      by_cases hc : tmp.id = id'
      · have : id' ≠ id := fun e => hne (hc.trans e)
        simp [hc, this]
      · simp [hc]

/-- The nodes with other ids stay as they are. -/
theorem filter_set {l : List MsgSlotChannel} {i : Nat} {ch ch' : MsgSlotChannel}
    (hi : l[i]? = some ch) (hid : ch'.id = ch.id) :
    (l.set i ch').filter (fun x => decide (x.id ≠ ch.id)) =
      l.filter fun x => decide (x.id ≠ ch.id) := by
  induction l generalizing i with
  | nil => simp at hi
  | cons tmp next ih =>
    cases i with
    | zero => simp at hi; subst hi; simp [hid]
    | succ i => simp only [List.set_cons_succ, List.filter_cons, ih (by simpa using hi)]

theorem set_same {l : List MsgSlotChannel} {i : Nat} {ch : MsgSlotChannel} (hi : l[i]? = some ch) :
    l.set i ch = l := by
  obtain ⟨hlt, rfl⟩ := List.getElem?_eq_some_iff.1 hi
  exact List.set_getElem_self hlt

/-- The channel of a minor and an id. -/
def Driver.channel (d : Driver) (minor : Minor) (id : BitVec 64) : Option MsgSlotChannel :=
  (d.g_msg_slots minor).bind fun slot => lookup slot.head id

/-- The channel holds exactly `msg`. -/
structure HoldsMessage (ch : MsgSlotChannel) (msg : List UInt8) : Prop where
  active : ch.active = true
  buffer : ∃ b, ch.msg_buffer = some b ∧ b.bytes = msg
  length : ch.curr_msg_len.toNat = msg.length

theorem channel_update {d : Driver} {m : Minor} {slot : MsgSlot} {heap : Heap} (minor : Minor)
    (id : BitVec 64) :
    Driver.channel ⟨Function.update d.g_msg_slots m (some slot), heap⟩ minor id =
      if minor = m then lookup slot.head id else d.channel minor id := by
  unfold Driver.channel
  by_cases h : minor = m
  · subst h; simp
  · simp [h]

/-! ## Opening -/

/-- The driver with an empty slot for a minor that had none. -/
def Driver.withSlot (d : Driver) (minor : Minor) : Driver :=
  ⟨Function.update d.g_msg_slots minor (some ⟨d.heap.next, []⟩),
    ⟨d.heap.next + 1, d.heap.next :: d.heap.live⟩⟩

theorem deviceOpen_cases (ok : Bool) (minor : Minor) (d : Driver) :
    ((∃ slot, d.g_msg_slots minor = some slot) ∧ deviceOpen ok minor d = (SUCCESS, d)) ∨
    (ok = false ∧ deviceOpen ok minor d = (-ENOMEM, d)) ∨
    (d.g_msg_slots minor = none ∧ deviceOpen ok minor d = (SUCCESS, d.withSlot minor)) := by
  unfold deviceOpen initMsgSlot
  cases hm : d.g_msg_slots minor with
  | some slot => exact .inl ⟨⟨slot, rfl⟩, rfl⟩
  | none =>
    cases ok with
    | false => exact .inr (.inl ⟨rfl, rfl⟩)
    | true => exact .inr (.inr ⟨rfl, rfl⟩)

/-! ## Reading -/

/-- What `device_read` does with the channel it found. -/
def readChannel (channel : Option MsgSlotChannel) (length writable : Nat) :
    Except Oops (Int × List UInt8) :=
  match channel with
  | none => .ok (-EWOULDBLOCK, [])
  | some ch =>
    if ch.active = false then .ok (-EWOULDBLOCK, [])
    else if length < ch.curr_msg_len.toNat then .ok (-ENOSPC, [])
    else
      match copyToUser ch.msg_buffer ch.curr_msg_len.toNat writable with
      | .error e => .error e
      | .ok (left, bytes) => if left ≠ 0 then .ok (-EFAULT, []) else .ok (ch.curr_msg_len.toNat, bytes)

theorem deviceRead_eq {d : Driver} {file : File} (hid : file.private_data ≠ 0#64)
    (hslot : d.g_msg_slots file.minor ≠ none) (length writable : Nat) :
    deviceRead d file length writable =
      readChannel (d.channel file.minor file.private_data) length writable := by
  cases hs : d.g_msg_slots file.minor with
  | none => exact absurd hs hslot
  | some slot =>
    simp only [deviceRead, hid, if_false, hs, findChannel_bind, Driver.channel, Option.bind_some]
    cases lookup slot.head file.private_data with
    | none => rfl
    | some ch =>
      simp only [readChannel]
      split
      · rfl
      · split
        · rfl
        · cases copyToUser ch.msg_buffer ch.curr_msg_len.toNat writable with
          | error e => rfl
          | ok r => simp only [bind, Except.bind]; split <;> rfl

/-! ## Writing -/

/-- The node that a fresh channel starts as. -/
def freshChannel (heap : Heap) (junk : BitVec 32) (channel_id : BitVec 64) : MsgSlotChannel :=
  ⟨heap.next, none, junk, channel_id, false⟩

/-- The node that a write on `channel_id` works on: the channel, else a fresh node, else the head
of the list. -/
def target (o : Outcome) (slot : MsgSlot) (heap : Heap) (channel_id : BitVec 64) :
    Option MsgSlotChannel :=
  match lookup slot.head channel_id with
  | some ch => some ch
  | none =>
    match o.node with
    | some junk => some (freshChannel heap junk channel_id)
    | none => slot.head.head?

/-- The write is accepted: a channel is set and the length is allowed. -/
def Accepted (file : File) (length : Nat) : Prop :=
  file.private_data ≠ 0#64 ∧ 1 ≤ length ∧ length ≤ MAX_BUF_LEN

/-- How the lists before and after a write on `ch` are related. -/
structure Replaces (l l' : List MsgSlotChannel) (ch ch' : MsgSlotChannel) : Prop where
  lookup : ∀ id, lookup l' id = if id = ch.id then some ch' else lookup l id
  others : (l'.filter fun x => decide (x.id ≠ ch.id)) = l.filter fun x => decide (x.id ≠ ch.id)
  mem : ∀ x ∈ l', x = ch' ∨ x ∈ l
  new_mem : ch' ∈ l'
  kept : ch ∈ l → ch' = ch → l' = l

theorem writeChannel_id (o : Outcome) (ch : MsgSlotChannel) (u_buffer : Nat → UInt8) (length : Nat)
    (heap : Heap) : (writeChannel o ch u_buffer length heap).2.1.id = ch.id := by
  unfold writeChannel copyMessage
  split
  · cases krealloc ch.msg_buffer length o.buffer heap with
    | mk buf heap' => cases buf with
      | none => rfl
      | some b => simp only; split <;> rfl
  · cases kmalloc length o.buffer heap with
    | mk buf heap' => cases buf with
      | none => rfl
      | some b => simp only; split <;> rfl

/-- The heap that `writeChannel` starts from. -/
def heapForWrite (o : Outcome) (slot : MsgSlot) (heap : Heap) (channel_id : BitVec 64) : Heap :=
  match lookup slot.head channel_id, o.node with
  | none, some _ => ⟨heap.next + 1, heap.next :: heap.live⟩
  | _, _ => heap

/-- **Everything an accepted write can do.** -/
theorem deviceWrite_accepted {o : Outcome} {d : Driver} {file : File} (u_buffer : Nat → UInt8)
    {length : Nat} {slot : MsgSlot} (hacc : Accepted file length)
    (hslot : d.g_msg_slots file.minor = some slot) :
    (target o slot d.heap file.private_data = none ∧
      deviceWrite o d file u_buffer length = .error .nullDeref) ∨
    ∃ ch l', target o slot d.heap file.private_data = some ch ∧
      Replaces slot.head l' ch (writeChannel o ch u_buffer length
        (heapForWrite o slot d.heap file.private_data)).2.1 ∧
      deviceWrite o d file u_buffer length =
        .ok ((writeChannel o ch u_buffer length
            (heapForWrite o slot d.heap file.private_data)).1,
          ⟨Function.update d.g_msg_slots file.minor (some { slot with head := l' }),
            (writeChannel o ch u_buffer length
              (heapForWrite o slot d.heap file.private_data)).2.2⟩) := by
  obtain ⟨hid, hlo, hhi⟩ := hacc
  have hlen : ¬(length = 0 ∨ length > MAX_BUF_LEN) := by omega
  cases hf : findChannel slot.head file.private_data with
  | some i =>
    obtain ⟨ch, hi, hl⟩ := findChannel_some hf
    have hch : ch.id = file.private_data := lookup_id hl
    have hw : (writeChannel o ch u_buffer length d.heap).2.1.id = file.private_data := by
      rw [writeChannel_id, hch]
    refine .inr ⟨ch, slot.head.set i (writeChannel o ch u_buffer length d.heap).2.1, ?_, ?_, ?_⟩
    · simp [target, hl]
    · simp only [heapForWrite, hl]
      refine ⟨fun id => by rw [lookup_set hf hw, hch], ?_, fun x hx => ?_, ?_, fun _ hsame => ?_⟩
      · rw [filter_set hi (by rw [hw, hch])]
      · exact (List.mem_or_eq_of_mem_set hx).symm
      · exact List.mem_set (by exact (List.getElem?_eq_some_iff.1 hi).1) _
      · rw [hsame, set_same hi]
    · simp [deviceWrite, hid, hlen, hslot, hf, hi, heapForWrite, hl]
  | none =>
    have hl := findChannel_none.1 hf
    cases hn : o.node with
    | some junk =>
      have hw := writeChannel_id o (freshChannel d.heap junk file.private_data) u_buffer length
        ⟨d.heap.next + 1, d.heap.next :: d.heap.live⟩
      refine .inr ⟨freshChannel d.heap junk file.private_data,
        (writeChannel o (freshChannel d.heap junk file.private_data) u_buffer length
          ⟨d.heap.next + 1, d.heap.next :: d.heap.live⟩).2.1 :: slot.head, ?_, ?_, ?_⟩
      · simp [target, hl, hn]
      · simp only [heapForWrite, hl, hn]
        refine ⟨fun id => ?_, ?_, fun x hx => ?_, List.mem_cons_self .., fun hm => ?_⟩
        · rw [lookup_cons, hw]; simp [eq_comm]
        · simp [hw]
        · simpa using hx
        · exact absurd rfl (lookup_eq_none.1 hl _ hm)
      · simp [deviceWrite, hid, hlen, hslot, hf, addChannelToMsgSlot, hn, SUCCESS, FAILURE,
          heapForWrite, hl, freshChannel]
    | none =>
      cases hh : slot.head with
      | nil =>
        rw [hh] at hf hl
        refine .inl ⟨by simp [target, hl, hn, hh], ?_⟩
        simp [deviceWrite, hid, hlen, hslot, hf, addChannelToMsgSlot, hn, ENOMEM, FAILURE, hh]
      | cons hd tl =>
        -- no node could be allocated, but the head of the list is taken for it
        rw [hh] at hf hl
        have hw := writeChannel_id o hd u_buffer length d.heap
        have hfind : findChannel (hd :: tl) hd.id = some 0 := by simp [findChannel]
        refine .inr ⟨hd, (hd :: tl).set 0 (writeChannel o hd u_buffer length d.heap).2.1, ?_, ?_, ?_⟩
        · simp [target, hl, hn, hh]
        · simp only [heapForWrite, hl, hn, hh]
          refine ⟨fun id => lookup_set hfind hw id, filter_set rfl hw, fun x hx => ?_, by simp,
            fun _ hsame => by rw [hsame, set_same rfl]⟩
          exact (List.mem_or_eq_of_mem_set hx).symm
        · simp [deviceWrite, hid, hlen, hslot, hf, addChannelToMsgSlot, hn, ENOMEM, FAILURE, hh,
            heapForWrite, hl]

/-- The node of an accepted write is the file's own, unless it is the head of a list in which the
file's channel is missing. -/
theorem target_cases {o : Outcome} {slot : MsgSlot} {heap : Heap} {id : BitVec 64}
    {ch : MsgSlotChannel} (h : target o slot heap id = some ch) :
    (ch.id = id ∧ (lookup slot.head id ≠ none ∨ o.node ≠ none)) ∨
      (lookup slot.head id = none ∧ o.node = none ∧ ∃ tl, slot.head = ch :: tl) := by
  unfold target at h
  cases hl : lookup slot.head id with
  | some ch' =>
    simp only [hl, Option.some.injEq] at h
    subst h
    exact .inl ⟨lookup_id hl, .inl (by simp)⟩
  | none =>
    cases hn : o.node with
    | some junk =>
      simp only [hl, hn, Option.some.injEq] at h
      subst h
      exact .inl ⟨rfl, .inr (by simp)⟩
    | none =>
      simp only [hl, hn] at h
      exact .inr ⟨rfl, rfl, List.head?_eq_some_iff.1 h⟩

theorem deviceWrite_rejected (o : Outcome) (d : Driver) {file : File} (u_buffer : Nat → UInt8)
    {length : Nat} (hrej : ¬Accepted file length) :
    ∃ rc < 0, deviceWrite o d file u_buffer length = .ok (rc, d) := by
  by_cases hid : file.private_data = 0#64
  · exact ⟨-EINVAL, by decide, by simp [deviceWrite, hid]⟩
  · have hlen : length = 0 ∨ length > MAX_BUF_LEN := by
      by_contra h
      exact hrej ⟨hid, by omega, by omega⟩
    exact ⟨-EMSGSIZE, by decide, by simp [deviceWrite, hid, hlen]⟩

/-- What the part of a write after the choice of the node does. -/
inductive WriteResult (o : Outcome) (ch : MsgSlotChannel) (u_buffer : Nat → UInt8) (length : Nat)
    (heap : Heap) : Int × MsgSlotChannel × Heap → Prop
  /-- the buffer could not be allocated: the pointer to the old one is lost -/
  | noBuffer : o.buffer = none → WriteResult o ch u_buffer length heap
      (-ENOMEM, { ch with msg_buffer := none }, heap)
  /-- only a part of the message could be copied -/
  | noCopy (b : Block) (heap' : Heap) : o.buffer ≠ none → o.readable < length →
      b.handle = heap.next → heap'.next = heap.next + 1 → b.bytes = copiedBytes u_buffer length o.readable →
      WriteResult o ch u_buffer length heap
        (-EFAULT, { ch with msg_buffer := some b, active := true }, heap')
  /-- the message is stored -/
  | stored (b : Block) (heap' : Heap) : o.buffer ≠ none → length ≤ o.readable →
      b.handle = heap.next → heap'.next = heap.next + 1 → b.bytes = bytesOf u_buffer length →
      WriteResult o ch u_buffer length heap
        (length, ⟨ch.addr, some b, BitVec.ofNat 32 length, ch.id, true⟩, heap')

theorem copyMessage_result {o : Outcome} {ch : MsgSlotChannel} {b : Block} {u_buffer : Nat → UInt8}
    {length : Nat} {heap heap' : Heap} (hbuf : o.buffer ≠ none) (hb : b.handle = heap.next)
    (hnext : heap'.next = heap.next + 1) (hlen : b.bytes.length = length) :
    WriteResult o ch u_buffer length heap
      ((copyMessage o { ch with msg_buffer := some b, active := true } b u_buffer length).1,
        (copyMessage o { ch with msg_buffer := some b, active := true } b u_buffer length).2,
        heap') := by
  have hbytes : copiedBytes u_buffer length o.readable ++ b.bytes.drop length =
      copiedBytes u_buffer length o.readable := by
    rw [List.drop_of_length_le (by omega), List.append_nil]
  unfold copyMessage copyFromUser
  simp only [hbytes]
  by_cases hr : length ≤ o.readable
  · rw [if_neg (by omega)]
    exact .stored _ _ hbuf hr hb hnext (copiedBytes_all hr)
  · rw [if_pos (by omega)]
    exact .noCopy _ _ hbuf (by omega) hb hnext rfl

theorem writeChannel_result (o : Outcome) (ch : MsgSlotChannel) (u_buffer : Nat → UInt8)
    (length : Nat) (heap : Heap) :
    WriteResult o ch u_buffer length heap (writeChannel o ch u_buffer length heap) := by
  unfold writeChannel
  split
  · rename_i hact
    have hch : ∀ b, { ch with msg_buffer := some b } =
        ({ ch with msg_buffer := some b, active := true } : MsgSlotChannel) := by
      intro b; rw [← hact]
    cases hbuf : o.buffer with
    | none =>
      simp only [krealloc]
      exact .noBuffer hbuf
    | some junk =>
      have hne : o.buffer ≠ none := by simp [hbuf]
      cases hb : ch.msg_buffer with
      | none =>
        simp only [krealloc, kmalloc, hch]
        exact copyMessage_result hne rfl rfl (by simp)
      | some old =>
        simp only [krealloc, hch]
        apply copyMessage_result hne rfl rfl
        simp only [List.length_append, List.length_take, List.length_drop, bytesOf_length]
        omega
  · cases hbuf : o.buffer with
    | none =>
      simp only [kmalloc]
      exact .noBuffer hbuf
    | some junk =>
      have hne : o.buffer ≠ none := by simp [hbuf]
      simp only [kmalloc]
      exact copyMessage_result hne rfl rfl (by simp)

end OSCourse.MessageSlot
