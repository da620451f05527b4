import OSCourse.MessageSlot.Kernel

/-!
# The driver (`message_slot.c`, `message_slot.h`)

A slot holds its channels as a list, head first; a pointer to a channel is its position in that
list, the NULL pointer is `none`.  `Outcome` collects the results of the fallible calls of one
`device_write`.
-/

set_option autoImplicit false

namespace OSCourse.MessageSlot

def SUCCESS : Int := 0
def FAILURE : Int := -1
def MAX_BUF_LEN : Nat := 128
abbrev MAX_MINORS_AMOUNT : Nat := 256

/-- `_IOW(MAJOR_NUM, 0, unsigned long)` with `MAJOR_NUM = 240`. -/
def MSG_SLOT_CHANNEL : BitVec 32 := 0x4008F000#32

/-- `msg_slot_channel_t`; `addr` is the handle of the node itself. -/
structure MsgSlotChannel where
  addr : Nat
  msg_buffer : Option Block
  curr_msg_len : BitVec 32
  id : BitVec 64
  active : Bool
  deriving DecidableEq, Repr

/-- `msg_slot_t`. -/
structure MsgSlot where
  addr : Nat
  head : List MsgSlotChannel
  deriving DecidableEq, Repr

abbrev Minor := Fin MAX_MINORS_AMOUNT

/-- `g_msg_slots`, and the heap. -/
structure Driver where
  g_msg_slots : Minor → Option MsgSlot
  heap : Heap

def Driver.init : Driver := ⟨fun _ => none, Heap.empty⟩

/-- The fields of `struct file` that the driver uses; `private_data = 0` is NULL. -/
structure File where
  minor : Minor
  private_data : BitVec 64
  deriving DecidableEq, Repr

/-! ## The list of channels -/

/-- `add_channel_to_msg_slot`: `node` is the value that the unset field `curr_msg_len` of the
fresh node happens to hold, or `none` if its `kmalloc` fails. -/
def addChannelToMsgSlot (node : Option (BitVec 32)) (head : List MsgSlotChannel)
    (channel_id : BitVec 64) (heap : Heap) : Int × List MsgSlotChannel × Heap :=
  match node with
  | none => (-ENOMEM, head, heap)
  | some junk =>
    (SUCCESS, ⟨heap.next, none, junk, channel_id, false⟩ :: head,
      ⟨heap.next + 1, heap.next :: heap.live⟩)

/-- `find_channel`. -/
def findChannel : List MsgSlotChannel → BitVec 64 → Option Nat
  | [], _ => none
  | tmp :: next, channel_id =>
    if tmp.id = channel_id then some 0 else (findChannel next channel_id).map (· + 1)

/-! ## The file operations -/

/-- `init_msg_slot`: `ok` tells whether its `kmalloc` succeeds. -/
def initMsgSlot (ok : Bool) (minor : Minor) (d : Driver) : Int × Driver :=
  if ok then
    (SUCCESS, ⟨Function.update d.g_msg_slots minor (some ⟨d.heap.next, []⟩),
      ⟨d.heap.next + 1, d.heap.next :: d.heap.live⟩⟩)
  else (-ENOMEM, d)

/-- `device_open`. -/
def deviceOpen (ok : Bool) (minor : Minor) (d : Driver) : Int × Driver :=
  match d.g_msg_slots minor with
  | none => initMsgSlot ok minor d
  | some _ => (SUCCESS, d)

/-- `device_release`. -/
def deviceRelease (_file : File) : Int := SUCCESS

/-- `device_read`: the return value, and the bytes that reached the user. -/
def deviceRead (d : Driver) (file : File) (length writable : Nat) :
    Except Oops (Int × List UInt8) :=
  if file.private_data = 0#64 then .ok (-EINVAL, [])
  else
    match d.g_msg_slots file.minor with
    | none => .error .nullDeref
    | some msg_slot =>
      match (findChannel msg_slot.head file.private_data).bind (msg_slot.head[·]?) with
      | none => .ok (-EWOULDBLOCK, [])
      | some curr_channel =>
        if curr_channel.active = false then .ok (-EWOULDBLOCK, [])
        else if length < curr_channel.curr_msg_len.toNat then .ok (-ENOSPC, [])
        else do
          let (left, bytes) ←
            copyToUser curr_channel.msg_buffer curr_channel.curr_msg_len.toNat writable
          if left ≠ 0 then return (-EFAULT, []) else return (curr_channel.curr_msg_len.toNat, bytes)

/-- The results of the fallible calls of one `device_write`. -/
structure Outcome where
  /-- the `kmalloc` of the channel node -/
  node : Option (BitVec 32)
  /-- the `kmalloc` or `krealloc` of the buffer -/
  buffer : Option (Nat → UInt8)
  /-- the number of accessible bytes of the user buffer -/
  readable : Nat

/-- The end of `device_write`: `copy_from_user` into the channel's buffer `b`. -/
def copyMessage (o : Outcome) (curr_channel : MsgSlotChannel) (b : Block) (u_buffer : Nat → UInt8)
    (length : Nat) : Int × MsgSlotChannel :=
  let (left, b) := copyFromUser b u_buffer length o.readable
  let curr_channel := { curr_channel with msg_buffer := some b }
  if left ≠ 0 then (-EFAULT, curr_channel)
  else (length, { curr_channel with curr_msg_len := BitVec.ofNat 32 length })

/-- `device_write` from the test of `curr_channel->active` on. -/
def writeChannel (o : Outcome) (curr_channel : MsgSlotChannel) (u_buffer : Nat → UInt8)
    (length : Nat) (heap : Heap) : Int × MsgSlotChannel × Heap :=
  if curr_channel.active then
    let (buf, heap) := krealloc curr_channel.msg_buffer length o.buffer heap
    match buf with
    | none => (-ENOMEM, { curr_channel with msg_buffer := none }, heap)
    | some b =>
      let (rc, curr_channel) := copyMessage o { curr_channel with msg_buffer := some b } b u_buffer length
      (rc, curr_channel, heap)
  else
    let (buf, heap) := kmalloc length o.buffer heap
    match buf with
    | none => (-ENOMEM, { curr_channel with msg_buffer := none }, heap)
    | some b =>
      let (rc, curr_channel) :=
        copyMessage o { curr_channel with msg_buffer := some b, active := true } b u_buffer length
      (rc, curr_channel, heap)

/-- `device_write`. -/
def deviceWrite (o : Outcome) (d : Driver) (file : File) (u_buffer : Nat → UInt8) (length : Nat) :
    Except Oops (Int × Driver) :=
  if file.private_data = 0#64 then .ok (-EINVAL, d)
  else if length = 0 ∨ length > MAX_BUF_LEN then .ok (-EMSGSIZE, d)
  else
    match d.g_msg_slots file.minor with
    | none => .error .nullDeref
    | some msg_slot =>
      let curr_channel := findChannel msg_slot.head file.private_data
      let (rc, head, heap) :=
        if curr_channel = none then
          addChannelToMsgSlot o.node msg_slot.head file.private_data d.heap
        else (SUCCESS, msg_slot.head, d.heap)
      if curr_channel = none ∧ rc = FAILURE then .ok (FAILURE, d)
      else
        -- a channel that was not found is taken to be the head of the list now
        let curr_channel := curr_channel.getD 0
        match head[curr_channel]? with
        | none => .error .nullDeref
        | some channel =>
          let (rc, channel, heap) := writeChannel o channel u_buffer length heap
          .ok (rc, ⟨Function.update d.g_msg_slots file.minor
            (some { msg_slot with head := head.set curr_channel channel }), heap⟩)

/-- `device_ioctl`. -/
def deviceIoctl (file : File) (ioctl_command_id : BitVec 32) (ioctl_param : BitVec 64) : Int × File :=
  if ioctl_command_id ≠ MSG_SLOT_CHANNEL then (-EINVAL, file)
  else if ioctl_param = 0#64 then (-EINVAL, file)
  else (SUCCESS, { file with private_data := ioctl_param })

/-! ## Unloading -/

/-- `free_channel_lst`; no result when a handle is freed twice. -/
def freeChannelLst : List MsgSlotChannel → Heap → Option Heap
  | [], heap => some heap
  | tmp :: head, heap => do
    let heap ← (if tmp.active then kfree (tmp.msg_buffer.map Block.handle) heap else some heap)
    let heap ← kfree (some tmp.addr) heap
    freeChannelLst head heap

/-- The loop of `msg_slot_cleanup` over these minors. -/
def cleanupMinors (d : Driver) : List Minor → Heap → Option Heap
  | [], heap => some heap
  | i :: minors, heap =>
    match d.g_msg_slots i with
    | none => cleanupMinors d minors heap
    | some msg_slot => do
      let heap ← freeChannelLst msg_slot.head heap
      let heap ← kfree (some msg_slot.addr) heap
      cleanupMinors d minors heap

/-- `msg_slot_cleanup`. -/
def msgSlotCleanup (d : Driver) : Option Heap :=
  cleanupMinors d (List.finRange MAX_MINORS_AMOUNT) d.heap

end OSCourse.MessageSlot
