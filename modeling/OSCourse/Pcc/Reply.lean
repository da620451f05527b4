import OSCourse.Lib.Halting
import OSCourse.Pcc.Client

/-!
# The client waits for the reply

`read_result_from_server` against every server: a finite stream of bytes arrives in pieces of any
size, and then each further `read` returns 0, or one returns -1.

* `ReplyStep` — a step of the client, with what it takes from the stream.
* `ReplyInv` — what was read and what is still to come.
* `client_ends_iff` — the client ends exactly when four bytes arrive or the stream ends by an
  error; a connection that is closed earlier is read for ever (`not_halts_of_closed`).
-/

set_option autoImplicit false

namespace OSCourse.Pcc

open Bytes Transition

/-- What `read` returns once all bytes of the stream were read. -/
inductive Ending where
  /-- 0, from then on -/
  | closed
  /-- -1 -/
  | error
  deriving DecidableEq, Repr

/-- A client and what its server still sends. -/
structure Reply where
  client : Client
  incoming : List UInt8

inductive ReplyStep (e : Endian) (ending : Ending) (r : Reply) : ClientEvent → Reply → Prop
  | internal {c : Client} : r.client.next e .internal = some c →
      ReplyStep e ending r .internal { r with client := c }
  | received {c : Client} {bytes rest : List UInt8} : bytes ≠ [] → r.incoming = bytes ++ rest →
      r.client.next e (.received bytes) = some c →
      ReplyStep e ending r (.received bytes) ⟨c, rest⟩
  | closed {c : Client} : ending = .closed → r.incoming = [] →
      r.client.next e (.received []) = some c →
      ReplyStep e ending r (.received []) { r with client := c }
  | error {c : Client} : ending = .error → r.incoming = [] →
      r.client.next e .callFailed = some c →
      ReplyStep e ending r .callFailed { r with client := c }

/-- The client `c` as it enters `read_result_from_server`. -/
def Reply.start (e : Endian) (c : Client) (stream : List UInt8) : Reply :=
  ⟨{ c with pc := .readResult 0 (uint32Bytes e 0) }, stream⟩

/-- The client ends: it prints a result of four bytes, or it exits with an error. -/
def ClientEnds (e : Endian) (ending : Ending) (c : Client) (stream : List UInt8) : Prop :=
  Halts (ReplyStep e ending) (Reply.start e c stream) ∧
  ∀ h r, Run (ReplyStep e ending) (Reply.start e c stream) h r → Final (ReplyStep e ending) r →
    ((∃ v, r.client.pc = .done v) ∧ stream.length = 4 + r.incoming.length) ∨ r.client.pc = .failed

/-! ## The bytes read and to come -/

/-- What was read of the stream, by the program point. -/
def ReplyInv (stream : List UInt8) (r : Reply) : Prop :=
  match r.client.pc with
  | .readResult total _ => total < 4 ∧ stream.length = total + r.incoming.length
  | .print _ | .done _ => stream.length = 4 + r.incoming.length
  | .failed => True
  | _ => False

/-- A bound on the steps that are left when every `read` takes a byte or fails. -/
def Reply.rank (r : Reply) : Nat :=
  match r.client.pc with
  | .readResult .. => r.incoming.length + 2
  | .print _ => 1
  | _ => 0

variable {e : Endian} {ending : Ending} {stream : List UInt8} {r r' : Reply} {ev : ClientEvent}

/-- Where a client can be that reads its reply, and what the next step makes of it. -/
theorem replyInv_internal {c : Client} (I : ReplyInv stream r)
    (hc : r.client.next e .internal = some c) : ∃ v, r.client.pc = .print v ∧
      c = { r.client with pc := .done v } := by
  simp only [Client.next, Client.internal] at hc
  unfold ReplyInv at I
  split at hc <;> rename_i hpc
  · simp only [hpc] at I
  · simp only [hpc] at I
  · cases hc; exact ⟨_, hpc, rfl⟩
  all_goals cases hc

theorem replyInv_step (I : ReplyInv stream r) (hs : ReplyStep e ending r ev r') :
    ReplyInv stream r' := by
  cases hs with
  | internal hc =>
    obtain ⟨v, hpc, rfl⟩ := replyInv_internal I hc
    simp only [ReplyInv, hpc] at I
    exact I
  | @received c bytes rest _ hbytes hc =>
    obtain ⟨total, mem, hpc, hlen, rfl⟩ := received_cases hc
    simp only [ReplyInv, hpc, hbytes, List.length_append] at I
    by_cases hlt : total + bytes.length < 4
    · simp only [ReplyInv, if_pos hlt]
      omega
    · simp only [ReplyInv, if_neg hlt]
      omega
  | closed _ _ hc =>
    obtain ⟨total, mem, hpc, -, rfl⟩ := received_cases hc
    simp only [ReplyInv, hpc] at I
    simp only [ReplyInv, List.length_nil, Nat.add_zero, if_pos I.1]
    exact I
  | error _ _ hc =>
    simp only [Client.next] at hc
    split at hc <;> cases hc <;> trivial

/-- **Every step lowers the rank** of a client whose stream is long enough or ends by an error. -/
theorem reply_rank_step (hends : 4 ≤ stream.length ∨ ending = .error) (I : ReplyInv stream r)
    (hs : ReplyStep e ending r ev r') : r'.rank < r.rank := by
  cases hs with
  | internal hc =>
    obtain ⟨v, hpc, rfl⟩ := replyInv_internal I hc
    simp only [Reply.rank, hpc]
    omega
  | @received c bytes rest hne hbytes hc =>
    obtain ⟨total, mem, hpc, -, rfl⟩ := received_cases hc
    have hpos := List.length_pos_of_ne_nil hne
    by_cases hlt : total + bytes.length < 4
    · simp only [Reply.rank, hpc, hbytes, List.length_append, if_pos hlt]
      omega
    · simp only [Reply.rank, hpc, hbytes, List.length_append, if_neg hlt]
      omega
  | closed hclosed hnil hc =>
    obtain ⟨total, mem, hpc, -, -⟩ := received_cases hc
    simp only [ReplyInv, hpc, hnil, List.length_nil] at I
    rcases hends with hlong | herror
    · omega
    · rw [hclosed] at herror
      cases herror
  | error _ _ hc =>
    simp only [Client.next] at hc
    unfold ReplyInv at I
    split at hc <;> rename_i hpc
    · simp only [hpc] at I
    · simp only [hpc] at I
    · simp only [hpc] at I
    · cases hc
      simp only [Reply.rank, hpc]
      omega
    · cases hc

theorem replyInv_start (c : Client) : ReplyInv stream (Reply.start e c stream) := by
  simp [ReplyInv, Reply.start]

/-- A client that can do nothing has ended. -/
theorem ended_of_final (hends : 4 ≤ stream.length ∨ ending = .error) (I : ReplyInv stream r)
    (hfin : Final (ReplyStep e ending) r) :
    ((∃ v, r.client.pc = .done v) ∧ stream.length = 4 + r.incoming.length) ∨
      r.client.pc = .failed := by
  unfold ReplyInv at I
  cases hpc : r.client.pc with
  | readResult total mem =>
    simp only [hpc] at I
    exfalso
    cases hin : r.incoming with
    | nil =>
      rw [hin, List.length_nil] at I
      rcases hends with hlong | herror
      · omega
      · have hc : r.client.next e .callFailed = some { r.client with pc := .failed } := by
          simp only [Client.next, hpc]
        exact hfin _ _ (.error herror hin hc)
    | cons b rest =>
      obtain ⟨c, hc⟩ := can_receive (e := e) hpc I.1 b
      exact hfin _ _ (.received (List.cons_ne_nil b []) hin hc)
  | print v =>
    exfalso
    have hc : r.client.next e .internal = some { r.client with pc := .done v } := by
      simp only [Client.next, Client.internal, hpc]
    exact hfin _ _ (.internal hc)
  | done v =>
    simp only [hpc] at I
    exact .inl ⟨⟨v, rfl⟩, I⟩
  | failed => exact .inr rfl
  | sendSize total => simp only [hpc] at I
  | fileTest total => simp only [hpc] at I
  | readFile total => simp only [hpc] at I
  | sendChunk total buffer => simp only [hpc] at I

/-! ## A connection closed too early -/

/-- A `read` that returns 0 leaves the client where it is. -/
theorem closed_loop {total : Nat} {mem : List UInt8} (hpc : r.client.pc = .readResult total mem)
    (htotal : total < 4) (hnil : r.incoming = []) :
    ReplyStep e .closed r (.received []) r := by
  have hmem : overwrite mem total [] = mem := by simp [overwrite]
  have hc : r.client.next e (.received []) = some r.client := by
    simp only [Client.next, Client.received, hpc, List.length_nil, Nat.zero_le, if_true,
      Nat.add_zero, if_pos htotal, hmem]
    rw [← hpc]
  exact .closed rfl hnil hc

/-- After fewer than four bytes the client reads the closed connection for ever. -/
theorem not_halts_of_closed (c : Client) (hshort : stream.length < 4) :
    ¬Halts (ReplyStep e .closed) (Reply.start e c stream) := by
  intro hhalts
  by_cases hnil : stream = []
  · refine not_halts_of_loop (closed_loop (r := Reply.start e c stream) rfl ?_ hnil) hhalts
    omega
  · -- the whole stream in one `read`, and then the loop
    have hc : (Reply.start e c stream).client.next e (.received stream) =
        some { c with
          pc := .readResult (0 + stream.length) (overwrite (uint32Bytes e 0) 0 stream) } := by
      have hle : stream.length ≤ 4 - 0 := by omega
      have hlt : 0 + stream.length < 4 := by omega
      simp only [Reply.start, Client.next, Client.received, if_pos hle, if_pos hlt]
    have hstep : ReplyStep e .closed (Reply.start e c stream) (.received stream) ⟨_, []⟩ :=
      .received hnil (List.append_nil stream).symm hc
    refine not_halts_of_loop (closed_loop rfl ?_ rfl) (hhalts.step hstep)
    omega

/-! ## The result -/

/-- **The client ends exactly when its server sends four bytes or the stream ends by an error.** -/
theorem client_ends_iff (e : Endian) (ending : Ending) (c : Client) (stream : List UInt8) :
    ClientEnds e ending c stream ↔ 4 ≤ stream.length ∨ ending = .error := by
  constructor
  · rintro ⟨hhalts, -⟩
    cases ending with
    | error => exact .inr rfl
    | closed =>
      refine .inl (Nat.le_of_not_lt fun hshort => ?_)
      exact not_halts_of_closed c hshort hhalts
  · intro hends
    refine ⟨Halts.of_rank (P := ReplyInv stream) Reply.rank ?_ (replyInv_start c), ?_⟩
    · intro s a t I hs
      exact ⟨replyInv_step I hs, reply_rank_step hends I hs⟩
    · intro h r hr hfin
      have I := hr.invariant (P := ReplyInv stream) (replyInv_start c)
        fun _ _ _ I hs => replyInv_step I hs
      exact ended_of_final hends I hfin

/-- A server that closes the connection after two bytes, as it does when its `write` fails. -/
theorem closed_after_two_bytes : ¬ClientEnds .little .closed (Client.start .little 0) [0, 1] := by
  rintro ⟨hhalts, -⟩
  exact not_halts_of_closed _ (by decide) hhalts

end OSCourse.Pcc
