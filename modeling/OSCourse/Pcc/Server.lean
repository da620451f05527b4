import OSCourse.Lib.Bytes
import OSCourse.Lib.Run

/-!
# The server (`pcc_server.c`)

A step is one statement of `main` or of a function that it calls, one round of a counting loop,
or one return of a system call; `sig_int_handler` may run before each of them.  The `pc` holds the
local variables that are alive there.

* `ServerEvent` — what the step does to the outside: a return of `accept`, `read` or `write`, or
  the arrival of SIGINT.
* `Server.next` — the step; `Server.printed` — the counter that it prints.
* `ServerMoves` — what each step does to the flags and the totals (`moves_of_next`).

`main` installs the handler with `signal`: it stays installed after SIGINT, and a call that SIGINT
interrupts is restarted.  A `write` that fails returns to the program; that it may end it with SIGPIPE
instead is left out.
-/

set_option autoImplicit false

namespace OSCourse.Pcc

open Bytes

def MIN_PRINTABLE_CHAR : Nat := 32
def MAX_PRINTABLE_CHAR : Nat := 126
abbrev PRINABLE_CHARS_AMOUNT : Nat := 95
def BUFFER_SZIE : Nat := 1024

/-- A table of `uint32_t` counters, one for each printable character. -/
abbrev Counters := Fin PRINABLE_CHARS_AMOUNT → BitVec 32

/-- `htonl`, which is also `ntohl`, on a machine of the given byte order. -/
def htonl (e : Endian) (x : BitVec 32) : BitVec 32 := BitVec.ofNat 32 (e.toNetwork 4 x.toNat)

/-- The bytes of a `uint32_t` in memory. -/
def uint32Bytes (e : Endian) (x : BitVec 32) : List UInt8 := e.bytes 4 x.toNat

/-- The `uint32_t` that four bytes of memory hold. -/
def uint32OfBytes (e : Endian) (bs : List UInt8) : BitVec 32 := BitVec.ofNat 32 (e.ofBytes bs)

inductive ServerPc where
  /-- `while (g_server_is_running)` -/
  | loop
  /-- in `accept` -/
  | accept
  /-- before `g_server_is_processing = True` -/
  | setProcessing
  /-- in the `read` of `read_stream_size_from_client`; `mem` is `stream_byte_size` in memory -/
  | readSize (total_bytes_read : Nat) (mem : List UInt8)
  /-- in `reset_pcc_client` -/
  | resetClient (i : Nat)
  /-- `while (total_bytes_read < stream_byte_size)` -/
  | readTest (total_bytes_read printable_counter : BitVec 32)
  /-- in the `read` of `read_stream_from_client` -/
  | readStream (total_bytes_read printable_counter : BitVec 32)
  /-- in `update_pcc_client`, with the part of the buffer still to count and its own counter -/
  | updateClient (total_bytes_read printable_counter : BitVec 32) (recieve_buff : List UInt8)
      (counter : BitVec 32)
  /-- before `htonl` -/
  | convert (printable_chars_counter : BitVec 32)
  /-- in the `write` of `send_printable_counter_to_client` -/
  | sendReply (write_data : List UInt8) (total_bytes_written : Nat)
  /-- in `update_pcc_total` -/
  | updateTotal (i : Nat)
  /-- before the `close` of a session that failed -/
  | closeFailed
  /-- before the `close` of a session that succeeded -/
  | closeDone
  /-- before `g_server_is_processing = False` -/
  | clearProcessing
  /-- in the `print_pcc_total` after the loop -/
  | print (i : Nat)
  | exited
  deriving DecidableEq, Repr

/-- The globals, and `stream_byte_size` of `main`. -/
structure Server where
  pc : ServerPc
  g_server_is_running : Bool
  g_server_is_processing : Bool
  pcc_total : Counters
  pcc_client : Counters
  stream_byte_size : BitVec 32

/-- Before the first test of the loop. -/
def Server.init : Server := ⟨.loop, true, false, fun _ => 0, fun _ => 0, 0⟩

inductive ServerEvent where
  /-- a statement without effect on the outside -/
  | internal
  | accepted
  | acceptFailed
  /-- `read` returned these bytes -/
  | received (bytes : List UInt8)
  /-- `read` returned 0 or -1 -/
  | readFailed
  /-- `write` took these bytes -/
  | sent (bytes : List UInt8)
  /-- `write` returned 0 or -1 -/
  | writeFailed
  | sigint
  deriving DecidableEq, Repr

/-- `is_printable`. -/
def isPrintable (c : UInt8) : Bool :=
  decide (MIN_PRINTABLE_CHAR ≤ c.toNat ∧ c.toNat ≤ MAX_PRINTABLE_CHAR)

/-- The table after `t[c - MIN_PRINTABLE_CHAR]++`. -/
def Counters.incr (t : Counters) (c : UInt8) : Counters :=
  fun i => if i.val = c.toNat - MIN_PRINTABLE_CHAR then t i + 1 else t i

/-- One round of the loop of `update_pcc_client`. -/
def countChar (pcc_client : Counters) (printable_counter : BitVec 32) (curr_char : UInt8) :
    Counters × BitVec 32 :=
  if isPrintable curr_char then (pcc_client.incr curr_char, printable_counter + 1)
  else (pcc_client, printable_counter)

/-- `sig_int_handler`. -/
def sigIntHandler (s : Server) : Server :=
  if s.g_server_is_processing then { s with g_server_is_running := false }
  else { s with pc := .exited }

/-- A statement without effect on the outside. -/
def Server.internal (e : Endian) (s : Server) : Option Server :=
  match s.pc with
  | .loop => some { s with pc := if s.g_server_is_running then .accept else .print 0 }
  | .setProcessing =>
    some { s with g_server_is_processing := true, pc := .readSize 0 (uint32Bytes e 0) }
  | .resetClient i =>
    if i < PRINABLE_CHARS_AMOUNT then
      some { s with
        pcc_client := fun j => if j.val = i then 0 else s.pcc_client j, pc := .resetClient (i + 1) }
    else some { s with pc := .readTest 0 0 }
  | .readTest total n =>
    if total.toNat < s.stream_byte_size.toNat then some { s with pc := .readStream total n }
    else some { s with pc := .convert n }
  | .updateClient total n recieve_buff counter =>
    match recieve_buff with
    | [] => some { s with pc := .readTest total (n + counter) }
    | c :: rest =>
      let (client, counter) := countChar s.pcc_client counter c
      some { s with pcc_client := client, pc := .updateClient total n rest counter }
  | .convert n => some { s with pc := .sendReply (uint32Bytes e (htonl e n)) 0 }
  | .updateTotal i =>
    if i < PRINABLE_CHARS_AMOUNT then
      some { s with
        pcc_total := fun j =>
          if j.val = i then s.pcc_total j + s.pcc_client j else s.pcc_total j
        pc := .updateTotal (i + 1) }
    else some { s with pc := .closeDone }
  | .closeFailed => some { s with pc := .loop }
  | .closeDone => some { s with pc := .clearProcessing }
  | .clearProcessing => some { s with g_server_is_processing := false, pc := .loop }
  | .print i =>
    if i < PRINABLE_CHARS_AMOUNT then some { s with pc := .print (i + 1) }
    else some { s with pc := .exited }
  | .accept | .readSize .. | .readStream .. | .sendReply .. | .exited => none

/-- `read` returned `bytes`. -/
def Server.received (e : Endian) (s : Server) (bytes : List UInt8) : Option Server :=
  match s.pc with
  | .readSize total mem =>
    if bytes ≠ [] ∧ bytes.length ≤ 4 - total then
      let mem := overwrite mem total bytes
      let total := total + bytes.length
      if total < 4 then some { s with pc := .readSize total mem }
      else some { s with stream_byte_size := htonl e (uint32OfBytes e mem), pc := .resetClient 0 }
    else none
  | .readStream total n =>
    if bytes ≠ [] ∧ bytes.length ≤ BUFFER_SZIE then
      some { s with pc := .updateClient (total + BitVec.ofNat 32 bytes.length) n bytes 0 }
    else none
  | _ => none

/-- `read` failed. -/
def Server.readFailed (s : Server) : Option Server :=
  match s.pc with
  | .readSize .. => some { s with stream_byte_size := 0, pc := .closeFailed }
  | .readStream .. => some { s with pc := .closeFailed }
  | _ => none

/-- `write` took `bytes`. -/
def Server.sent (s : Server) (bytes : List UInt8) : Option Server :=
  match s.pc with
  | .sendReply data total =>
    if bytes ≠ [] ∧ bytes <+: data.drop total then
      let total := total + bytes.length
      some { s with pc := if total < 4 then .sendReply data total else .updateTotal 0 }
    else none
  | _ => none

/-- One step of the server. -/
def Server.next (e : Endian) (s : Server) : ServerEvent → Option Server
  | .internal => s.internal e
  | .accepted => if s.pc = .accept then some { s with pc := .setProcessing } else none
  | .acceptFailed => if s.pc = .accept then some { s with pc := .exited } else none
  | .received bytes => s.received e bytes
  | .readFailed => s.readFailed
  | .sent bytes => s.sent bytes
  | .writeFailed =>
    match s.pc with
    | .sendReply .. => some { s with pc := .closeFailed }
    | _ => none
  | .sigint => if s.pc = .exited then none else some (sigIntHandler s)

def ServerStep (e : Endian) (s : Server) (ev : ServerEvent) (s' : Server) : Prop :=
  s.next e ev = some s'

/-- The line of `print_pcc_total` for the counter `i` that the step prints, if any. -/
def Server.printed (s : Server) (ev : ServerEvent) (i : Fin PRINABLE_CHARS_AMOUNT) :
    Option (BitVec 32) :=
  match ev, s.pc with
  | .internal, .print j => if j = i.val then some (s.pcc_total i) else none
  | .sigint, _ => if s.g_server_is_processing then none else some (s.pcc_total i)
  | _, _ => none

/-! ## The steps in outline -/

/-- The points between the raising of the flag and the last byte of the reply. -/
def ServerPc.working : ServerPc → Bool
  | .readSize .. | .resetClient _ | .readTest .. | .readStream .. | .updateClient .. | .convert _
  | .sendReply .. => true
  | _ => false

/-- A step on the current session, which leaves the flags and the totals alone. -/
structure Works (s s' : Server) : Prop where
  before : s.pc.working = true
  after : s'.pc.working = true
  total : s'.pcc_total = s.pcc_total
  running : s'.g_server_is_running = s.g_server_is_running
  processing : s'.g_server_is_processing = s.g_server_is_processing

/-- What each step does to the flags and the totals. -/
inductive ServerMoves (e : Endian) (s : Server) : ServerEvent → Server → Prop
  | enter : s.pc = .loop → s.g_server_is_running = true →
      ServerMoves e s .internal { s with pc := .accept }
  | leave : s.pc = .loop → s.g_server_is_running = false →
      ServerMoves e s .internal { s with pc := .print 0 }
  | accepted : s.pc = .accept → ServerMoves e s .accepted { s with pc := .setProcessing }
  | acceptFailed : s.pc = .accept → ServerMoves e s .acceptFailed { s with pc := .exited }
  | raise : s.pc = .setProcessing → ServerMoves e s .internal
      { s with g_server_is_processing := true, pc := .readSize 0 (uint32Bytes e 0) }
  | internal {s' : Server} : Works s s' → ServerMoves e s .internal s'
  | received {bytes : List UInt8} {s' : Server} : Works s s' →
      ServerMoves e s (.received bytes) s'
  | sent {bytes data : List UInt8} {total : Nat} : s.pc = .sendReply data total →
      ServerMoves e s (.sent bytes) { s with
        pc := if total + bytes.length < 4 then .sendReply data (total + bytes.length)
          else .updateTotal 0 }
  | readFailed (size : BitVec 32) : s.pc.working = true →
      ServerMoves e s .readFailed { s with stream_byte_size := size, pc := .closeFailed }
  | writeFailed : s.pc.working = true →
      ServerMoves e s .writeFailed { s with pc := .closeFailed }
  | add {i : Nat} : s.pc = .updateTotal i → i < PRINABLE_CHARS_AMOUNT →
      ServerMoves e s .internal { s with
        pcc_total := fun j => if j.val = i then s.pcc_total j + s.pcc_client j else s.pcc_total j
        pc := .updateTotal (i + 1) }
  | added {i : Nat} : s.pc = .updateTotal i → PRINABLE_CHARS_AMOUNT ≤ i →
      ServerMoves e s .internal { s with pc := .closeDone }
  | closeFailed : s.pc = .closeFailed → ServerMoves e s .internal { s with pc := .loop }
  | closeDone : s.pc = .closeDone → ServerMoves e s .internal { s with pc := .clearProcessing }
  | lower : s.pc = .clearProcessing →
      ServerMoves e s .internal { s with g_server_is_processing := false, pc := .loop }
  | print {i : Nat} : s.pc = .print i → ServerMoves e s .internal { s with pc := .print (i + 1) }
  | printed {i : Nat} : s.pc = .print i → ServerMoves e s .internal { s with pc := .exited }
  | sigint : s.pc ≠ .exited → ServerMoves e s .sigint (sigIntHandler s)

variable {e : Endian} {s s' : Server} {ev : ServerEvent}

theorem moves_of_internal (hs : s.internal e = some s') : ServerMoves e s .internal s' := by
  unfold Server.internal at hs
  split at hs
  · rename_i hpc
    cases hs
    by_cases hrun : s.g_server_is_running = true
    · rw [if_pos hrun]
      exact .enter hpc hrun
    · rw [if_neg hrun]
      exact .leave hpc (Bool.eq_false_of_not_eq_true hrun)
  · rename_i hpc
    cases hs; exact .raise hpc
  · rename_i hpc
    split at hs <;> cases hs <;> exact .internal ⟨by rw [hpc]; rfl, rfl, rfl, rfl, rfl⟩
  · rename_i hpc
    split at hs <;> cases hs <;> exact .internal ⟨by rw [hpc]; rfl, rfl, rfl, rfl, rfl⟩
  · rename_i recieve_buff _ hpc
    cases recieve_buff <;> cases hs <;>
      exact .internal ⟨by rw [hpc]; rfl, rfl, rfl, rfl, rfl⟩
  · rename_i hpc
    cases hs; exact .internal ⟨by rw [hpc]; rfl, rfl, rfl, rfl, rfl⟩
  · rename_i hpc
    split at hs
    · rename_i hi
      cases hs; exact .add hpc hi
    · rename_i hi
      cases hs; exact .added hpc (Nat.le_of_not_lt hi)
  · rename_i hpc
    cases hs; exact .closeFailed hpc
  · rename_i hpc
    cases hs; exact .closeDone hpc
  · rename_i hpc
    cases hs; exact .lower hpc
  · rename_i hpc
    split at hs <;> cases hs
    · exact .print hpc
    · exact .printed hpc
  all_goals cases hs

theorem moves_of_received {bytes : List UInt8} (hs : s.received e bytes = some s') :
    ServerMoves e s (.received bytes) s' := by
  unfold Server.received at hs
  split at hs
  · rename_i hpc
    split at hs
    · simp only at hs
      split at hs <;> cases hs <;> exact .received ⟨by rw [hpc]; rfl, rfl, rfl, rfl, rfl⟩
    · cases hs
  · rename_i hpc
    split at hs <;> cases hs
    exact .received ⟨by rw [hpc]; rfl, rfl, rfl, rfl, rfl⟩
  · cases hs

theorem moves_of_readFailed (hs : s.readFailed = some s') : ServerMoves e s .readFailed s' := by
  unfold Server.readFailed at hs
  split at hs
  · rename_i hpc
    cases hs; exact .readFailed 0 (by rw [hpc]; rfl)
  · rename_i hpc
    cases hs; exact .readFailed s.stream_byte_size (by rw [hpc]; rfl)
  · cases hs

theorem moves_of_sent {bytes : List UInt8} (hs : s.sent bytes = some s') :
    ServerMoves e s (.sent bytes) s' := by
  unfold Server.sent at hs
  split at hs
  · rename_i hpc
    split at hs <;> cases hs
    exact .sent hpc
  · cases hs

theorem moves_of_next (hs : s.next e ev = some s') : ServerMoves e s ev s' := by
  cases ev with
  | internal => exact moves_of_internal hs
  | received bytes => exact moves_of_received hs
  | readFailed => exact moves_of_readFailed hs
  | sent bytes => exact moves_of_sent hs
  | accepted =>
    unfold Server.next at hs
    simp only at hs
    split at hs <;> cases hs
    rename_i hpc
    exact .accepted hpc
  | acceptFailed =>
    unfold Server.next at hs
    simp only at hs
    split at hs <;> cases hs
    rename_i hpc
    exact .acceptFailed hpc
  | writeFailed =>
    unfold Server.next at hs
    simp only at hs
    split at hs <;> cases hs
    rename_i hpc
    exact .writeFailed (by rw [hpc]; rfl)
  | sigint =>
    unfold Server.next at hs
    simp only at hs
    split at hs <;> cases hs
    rename_i hpc
    exact .sigint hpc

end OSCourse.Pcc
