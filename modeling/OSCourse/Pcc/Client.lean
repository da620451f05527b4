import OSCourse.Pcc.Session

/-!
# The client (`pcc_client.c`)

The steps are as in the server: a statement, or the return of a system call.  The file and the
connection were opened; what is left of `main` is the transfer.

* `Client.next` — the step.
* `clientSent`, `clientGot`, `fileRead` — the bytes written to the socket, read from it and read
  from the file, as a history of the client tells them.
* `ClientInv`, `client_run` — at every point of the program the local variables describe the
  transfer so far: what is written is the size in network order, then the file as it was read.
-/

set_option autoImplicit false

namespace OSCourse.Pcc

open Bytes Transition

inductive ClientPc where
  /-- in the `write` of `write_stream_size_to_server` -/
  | sendSize (total_bytes_written : Nat)
  /-- `while (total_bytes_read < bytes_to_send)` -/
  | fileTest (total_bytes_read : Nat)
  /-- in the `read` of the file -/
  | readFile (total_bytes_read : Nat)
  /-- in the inner loop of `write_file_to_socket`; `buffer` is what is left to send -/
  | sendChunk (total_bytes_read : Nat) (buffer : List UInt8)
  /-- in the `read` of `read_result_from_server`; `mem` is `pcc_from_server` in memory -/
  | readResult (total_bytes_read : Nat) (mem : List UInt8)
  /-- before the `printf` -/
  | print (pcc_from_server : BitVec 32)
  /-- returned, after this number was printed -/
  | done (printed : BitVec 32)
  /-- `exit(EXIT_FAILURE)` -/
  | failed
  deriving DecidableEq, Repr

/-- The locals of `main` that the transfer uses. -/
structure Client where
  pc : ClientPc
  /-- the bytes of `file_length_net` in memory -/
  stream_size : List UInt8
  /-- `file_length` as an `int` -/
  bytes_to_send : Int
  deriving DecidableEq, Repr

/-- `input_file_length`: the size of the file as a `uint32_t`. -/
def inputFileLength (st_size : Nat) : BitVec 32 := BitVec.ofNat 32 st_size

/-- The client after `connect`, with a file of `st_size` bytes. -/
def Client.start (e : Endian) (st_size : Nat) : Client :=
  ⟨.sendSize 0, uint32Bytes e (htonl e (inputFileLength st_size)), (inputFileLength st_size).toInt⟩

inductive ClientEvent where
  | internal
  /-- `write` on the socket took these bytes -/
  | sent (bytes : List UInt8)
  /-- `read` on the file returned these bytes, none at its end -/
  | fileRead (bytes : List UInt8)
  /-- `read` on the socket returned these bytes, none at its end -/
  | received (bytes : List UInt8)
  /-- a system call returned -1 -/
  | callFailed
  deriving DecidableEq, Repr

def Client.internal (e : Endian) (c : Client) : Option Client :=
  match c.pc with
  | .fileTest total =>
    -- `total_bytes_read` is an `int`, which wraps when the file has grown past `2 ^ 31` bytes
    if (BitVec.ofNat 32 total).toInt < c.bytes_to_send then some { c with pc := .readFile total }
    else some { c with pc := .readResult 0 (uint32Bytes e 0) }
  | .sendChunk total buffer =>
    match buffer with
    | [] => some { c with pc := .fileTest total }
    | _ :: _ => none
  | .print pcc_from_server => some { c with pc := .done pcc_from_server }
  | .sendSize _ | .readFile _ | .readResult .. | .done _ | .failed => none

def Client.sent (c : Client) (bytes : List UInt8) : Option Client :=
  match c.pc with
  | .sendSize total =>
    if bytes <+: c.stream_size.drop total then
      let total := total + bytes.length
      some { c with pc := if total < 4 then .sendSize total else .fileTest 0 }
    else none
  | .sendChunk total buffer =>
    if buffer ≠ [] ∧ bytes <+: buffer then
      some { c with pc := .sendChunk total (buffer.drop bytes.length) }
    else none
  | _ => none

def Client.fileRead (e : Endian) (c : Client) (bytes : List UInt8) : Option Client :=
  match c.pc with
  | .readFile total =>
    if BUFFER_SZIE < bytes.length then none
    else if bytes = [] then some { c with pc := .readResult 0 (uint32Bytes e 0) }
    else some { c with pc := .sendChunk (total + bytes.length) bytes }
  | _ => none

def Client.received (e : Endian) (c : Client) (bytes : List UInt8) : Option Client :=
  match c.pc with
  | .readResult total mem =>
    if bytes.length ≤ 4 - total then
      let mem := overwrite mem total bytes
      let total := total + bytes.length
      if total < 4 then some { c with pc := .readResult total mem }
      else some { c with pc := .print (htonl e (uint32OfBytes e mem)) }
    else none
  | _ => none

/-- One step of the client. -/
def Client.next (e : Endian) (c : Client) : ClientEvent → Option Client
  | .internal => c.internal e
  | .sent bytes => c.sent bytes
  | .fileRead bytes => c.fileRead e bytes
  | .received bytes => c.received e bytes
  | .callFailed =>
    match c.pc with
    | .sendSize _ | .readFile _ | .sendChunk _ (_ :: _) | .readResult .. => some { c with pc := .failed }
    | _ => none

def ClientStep (e : Endian) (c : Client) (ev : ClientEvent) (c' : Client) : Prop :=
  c.next e ev = some c'

/-! ## Transfers in a history -/

/-- The bytes written to the socket. -/
def clientSent : List ClientEvent → List UInt8
  | [] => []
  | .sent bytes :: h => clientSent h ++ bytes
  | _ :: h => clientSent h

/-- The bytes read from the socket. -/
def clientGot : List ClientEvent → List UInt8
  | [] => []
  | .received bytes :: h => clientGot h ++ bytes
  | _ :: h => clientGot h

/-- The bytes read from the file. -/
def fileRead : List ClientEvent → List UInt8
  | [] => []
  | .fileRead bytes :: h => fileRead h ++ bytes
  | _ :: h => fileRead h

/-- The size in network order. -/
def headerOf (st_size : Nat) : List UInt8 := bigBytes 4 (inputFileLength st_size).toNat

/-- The whole file was sent: up to its announced length, or up to its end. -/
structure FileSent (st_size : Nat) (h : List ClientEvent) : Prop where
  sent : clientSent h = headerOf st_size ++ fileRead h
  all : (inputFileLength st_size).toInt ≤ (fileRead h).length ∨ .fileRead [] ∈ h

/-- What the program point says about the transfer. -/
def TransferInv (st_size : Nat) (h : List ClientEvent) : ClientPc → Prop
  | .sendSize total => total < 4 ∧ clientSent h = (headerOf st_size).take total ∧
      fileRead h = [] ∧ clientGot h = []
  | .fileTest total | .readFile total => clientSent h = headerOf st_size ++ fileRead h ∧
      total = (fileRead h).length ∧ clientGot h = []
  | .sendChunk total buffer => clientSent h ++ buffer = headerOf st_size ++ fileRead h ∧
      total = (fileRead h).length ∧ clientGot h = []
  | .readResult total mem => FileSent st_size h ∧ total < 4 ∧ mem.length = 4 ∧
      clientGot h = mem.take total
  | .print v | .done v => FileSent st_size h ∧ (clientGot h).length = 4 ∧
      v = BitVec.ofNat 32 (ofBig (clientGot h))
  | .failed => True

structure ClientInv (st_size : Nat) (h : List ClientEvent) (c : Client) : Prop where
  size : c.stream_size = headerOf st_size
  bytes : c.bytes_to_send = (inputFileLength st_size).toInt
  transfer : TransferInv st_size h c.pc

theorem FileSent.cons {st_size : Nat} {h : List ClientEvent} (F : FileSent st_size h)
    {ev : ClientEvent} (hs : clientSent (ev :: h) = clientSent h)
    (hf : fileRead (ev :: h) = fileRead h) : FileSent st_size (ev :: h) :=
  ⟨by rw [hs, hf]; exact F.sent, by rw [hf]; exact F.all.imp_right (List.mem_cons_of_mem _)⟩

theorem clientInv_start (e : Endian) (st_size : Nat) :
    ClientInv st_size [] (Client.start e st_size) :=
  ⟨uint32Bytes_htonl e _, rfl, by simp [Client.start, TransferInv, clientSent, fileRead, clientGot]⟩

/-- An `int` that was counted up to `n` is at most `n`, wrapped or not. -/
theorem toInt_ofNat_le (n : Nat) : (BitVec.ofNat 32 n).toInt ≤ n := by
  have hmod := Nat.mod_le n (2 ^ 32)
  rw [BitVec.toInt_eq_toNat_cond, BitVec.toNat_ofNat]
  split <;> omega

theorem clientInv_internal {e : Endian} {st_size : Nat} {h : List ClientEvent} {c c' : Client}
    (I : ClientInv st_size h c) (hs : c.internal e = some c') :
    ClientInv st_size (.internal :: h) c' := by
  have T := I.transfer
  unfold Client.internal at hs
  split at hs
  · rename_i total hpc
    rw [hpc] at T
    obtain ⟨hsent, htotal, hgot⟩ := T
    split at hs
    · cases hs
      exact ⟨I.size, I.bytes, hsent, htotal, hgot⟩
    · rename_i hge
      cases hs
      refine ⟨I.size, I.bytes, ⟨hsent, .inl ?_⟩, by omega, by simp [uint32Bytes], hgot⟩
      have hfile : fileRead (.internal :: h) = fileRead h := rfl
      have hle := toInt_ofNat_le total
      rw [← I.bytes, hfile]
      omega
  · rename_i total buffer hpc
    rw [hpc] at T
    obtain ⟨hsent, htotal, hgot⟩ := T
    cases buffer with
    | nil =>
      cases hs
      exact ⟨I.size, I.bytes, by rwa [List.append_nil] at hsent, htotal, hgot⟩
    | cons => cases hs
  · rename_i v hpc
    rw [hpc] at T
    cases hs
    exact ⟨I.size, I.bytes, T.1.cons rfl rfl, T.2⟩
  all_goals cases hs

theorem clientInv_sent {st_size : Nat} {h : List ClientEvent} {c c' : Client} {bytes : List UInt8}
    (I : ClientInv st_size h c) (hs : c.sent bytes = some c') :
    ClientInv st_size (.sent bytes :: h) c' := by
  have T := I.transfer
  unfold Client.sent at hs
  split at hs
  · rename_i total hpc
    rw [hpc] at T
    obtain ⟨htotal, hsent, hfile, hgot⟩ := T
    split at hs
    · rename_i hb
      obtain ⟨rest, hrest⟩ := hb
      rw [I.size] at hrest
      have hsent' : clientSent h ++ bytes = (headerOf st_size).take (total + bytes.length) := by
        rw [hsent, List.take_add, ← hrest, List.take_left']
        rfl
      cases hs
      refine ⟨I.size, I.bytes, ?_⟩
      by_cases hlt : total + bytes.length < 4
      · simp only [hlt, if_true]
        exact ⟨hlt, hsent', hfile, hgot⟩
      · simp only [hlt, if_false]
        rw [List.take_of_length_le (by rw [headerOf, bigBytes_length]; omega)] at hsent'
        have hfile' : fileRead (.sent bytes :: h) = [] := hfile
        refine ⟨?_, by rw [hfile']; rfl, hgot⟩
        rw [clientSent, hsent', hfile', List.append_nil]
    · cases hs
  · rename_i total buffer hpc
    rw [hpc] at T
    obtain ⟨hsent, htotal, hgot⟩ := T
    split at hs
    · rename_i hb
      obtain ⟨-, rest, rfl⟩ := hb
      cases hs
      refine ⟨I.size, I.bytes, ?_, htotal, hgot⟩
      rw [List.drop_left', clientSent, List.append_assoc]
      · exact hsent
      · rfl
    · cases hs
  · cases hs

theorem clientInv_fileRead {e : Endian} {st_size : Nat} {h : List ClientEvent} {c c' : Client}
    {bytes : List UInt8} (I : ClientInv st_size h c) (hs : c.fileRead e bytes = some c') :
    ClientInv st_size (.fileRead bytes :: h) c' := by
  have T := I.transfer
  unfold Client.fileRead at hs
  split at hs
  · rename_i total hpc
    rw [hpc] at T
    obtain ⟨hsent, htotal, hgot⟩ := T
    split at hs
    · cases hs
    · split at hs
      · rename_i hnil
        subst hnil
        cases hs
        refine ⟨I.size, I.bytes, ⟨?_, .inr (List.mem_cons_self ..)⟩, by omega,
          by simp [uint32Bytes], hgot⟩
        rw [fileRead, List.append_nil]
        exact hsent
      · cases hs
        refine ⟨I.size, I.bytes, ?_, ?_, hgot⟩
        · rw [fileRead, ← List.append_assoc, ← hsent]; rfl
        · rw [fileRead, List.length_append, htotal]
  · cases hs

/-- A `read` of the reply, and whether it was the last. -/
theorem received_cases {e : Endian} {c c' : Client} {bytes : List UInt8}
    (hc : c.next e (.received bytes) = some c') : ∃ total mem, c.pc = .readResult total mem ∧
      bytes.length ≤ 4 - total ∧ c' = { c with
        pc := if total + bytes.length < 4 then
            .readResult (total + bytes.length) (overwrite mem total bytes)
          else .print (htonl e (uint32OfBytes e (overwrite mem total bytes))) } := by
  simp only [Client.next, Client.received] at hc
  split at hc
  · rename_i total mem hpc
    split at hc
    · rename_i hlen
      refine ⟨total, mem, hpc, hlen, ?_⟩
      split at hc <;> rename_i hlt <;> cases hc
      · rw [if_pos hlt]
      · rw [if_neg hlt]
    · cases hc
  · cases hc

/-- A client that waits for its reply can take the next byte. -/
theorem can_receive {e : Endian} {c : Client} {total : Nat} {mem : List UInt8}
    (hpc : c.pc = .readResult total mem) (htotal : total < 4) (b : UInt8) :
    ∃ c', c.next e (.received [b]) = some c' := by
  have hfits : [b].length ≤ 4 - total := by simp only [List.length_singleton]; omega
  simp only [Client.next, Client.received, hpc, if_pos hfits]
  split <;> exact ⟨_, rfl⟩

theorem clientInv_received {e : Endian} {st_size : Nat} {h : List ClientEvent} {c c' : Client}
    {bytes : List UInt8} (I : ClientInv st_size h c) (hs : c.next e (.received bytes) = some c') :
    ClientInv st_size (.received bytes :: h) c' := by
  obtain ⟨total, mem, hpc, hlen, rfl⟩ := received_cases hs
  have T := I.transfer
  rw [hpc] at T
  obtain ⟨F, htotal, hmem, hgot⟩ := T
  have hgot' : clientGot h ++ bytes =
      (overwrite mem total bytes).take (total + bytes.length) := by
    rw [take_overwrite (by omega), hgot]
  have hmem' : (overwrite mem total bytes).length = 4 := by
    rw [overwrite_length (by omega), hmem]
  have F' : FileSent st_size (.received bytes :: h) := F.cons rfl rfl
  refine ⟨I.size, I.bytes, ?_⟩
  by_cases hlt : total + bytes.length < 4
  · simp only [if_pos hlt]
    exact ⟨F', hlt, hmem', hgot'⟩
  · simp only [if_neg hlt]
    rw [List.take_of_length_le (by omega)] at hgot'
    have hgot'' : clientGot (.received bytes :: h) = overwrite mem total bytes := hgot'
    exact ⟨F', by rw [hgot'', hmem'], by rw [hgot'', htonl_ofBytes e hmem']⟩

/-- **Every step keeps the client's invariant.** -/
theorem clientInv_step {e : Endian} {st_size : Nat} {h : List ClientEvent} {c c' : Client}
    {ev : ClientEvent} (I : ClientInv st_size h c) (hs : ClientStep e c ev c') :
    ClientInv st_size (ev :: h) c' := by
  cases ev with
  | internal => exact clientInv_internal I hs
  | sent bytes => exact clientInv_sent I hs
  | fileRead bytes => exact clientInv_fileRead I hs
  | received bytes => exact clientInv_received I hs
  | callFailed =>
    simp only [ClientStep, Client.next] at hs
    split at hs <;> cases hs <;> exact ⟨I.size, I.bytes, trivial⟩

theorem client_run {e : Endian} {st_size : Nat} {h : List ClientEvent} {c : Client}
    (hr : Run (ClientStep e) (Client.start e st_size) h c) : ClientInv st_size h c :=
  hr.historyInvariant (clientInv_start e st_size) fun _ _ _ _ I hs => clientInv_step I hs

/-- The client writes nothing but its header and its file. -/
theorem clientSent_upto {st_size : Nat} {h : List ClientEvent} {c : Client} {file : List UInt8}
    (I : ClientInv st_size h c) (hc : c.pc ≠ .failed) (hf : fileRead h <+: file) :
    clientSent h <+: headerOf st_size ++ file := by
  have hpre : headerOf st_size ++ fileRead h <+: headerOf st_size ++ file :=
    List.prefix_append_right_inj _ |>.2 hf
  have T := I.transfer
  cases hpc : c.pc with
  | sendSize total =>
    rw [hpc] at T
    rw [T.2.1]
    exact (List.take_prefix _ _).trans (List.prefix_append _ _)
  | fileTest total => rw [hpc] at T; rw [T.1]; exact hpre
  | readFile total => rw [hpc] at T; rw [T.1]; exact hpre
  | sendChunk total buffer =>
    rw [hpc] at T
    exact (List.prefix_append _ buffer).trans (T.1 ▸ hpre)
  | readResult total mem => rw [hpc] at T; rw [T.1.sent]; exact hpre
  | print v => rw [hpc] at T; rw [T.1.sent]; exact hpre
  | done v => rw [hpc] at T; rw [T.1.sent]; exact hpre
  | failed => exact absurd hpc hc

/-- A client whose system calls succeed does not give up. -/
theorem client_alive {e : Endian} {c c' : Client} {ev : ClientEvent} (hev : ev ≠ .callFailed)
    (hs : c.next e ev = some c') : c'.pc ≠ .failed := by
  unfold Client.next at hs
  cases ev with
  | internal =>
    simp only [Client.internal] at hs
    split at hs
    · split at hs <;> cases hs <;> simp
    · split at hs <;> cases hs
      simp
    · cases hs; simp
    all_goals cases hs
  | sent bytes =>
    simp only [Client.sent] at hs
    split at hs
    · split at hs <;> cases hs
      simp only
      split <;> simp
    · split at hs <;> cases hs
      simp
    · cases hs
  | fileRead bytes =>
    simp only [Client.fileRead] at hs
    split at hs
    · split at hs
      · cases hs
      · split at hs <;> cases hs <;> simp
    · cases hs
  | received bytes =>
    simp only [Client.received] at hs
    split at hs
    · split at hs
      · split at hs <;> cases hs <;> simp
      · cases hs
    · cases hs
  | callFailed => exact absurd rfl hev

end OSCourse.Pcc
