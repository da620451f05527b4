import OSCourse.Lib.Halting
import OSCourse.Pcc.Client

/-!
# The client sends its file

`write_stream_size_to_server` and `write_file_to_socket` on every file and with every size of the
single transfers.

* `UploadStep` — a step of the client, with what it takes from a file that does not change; no
  system call fails, and a transfer moves at least one byte unless the file has ended.
* `Client.rank`, `upload_progress` — the transfer goes on until it is complete, and ends.
* `frames_file_iff` — the socket carries the header and the file exactly when the length of the
  file is the `int` that the loop is bounded by.
* `body_fits_iff` — when the file may change: no more is sent than was announced exactly when no
  `read` of the file goes beyond the announced length.
-/

set_option autoImplicit false

namespace OSCourse.Pcc

open Bytes Transition

/-- A client and what it has not read of its file. -/
structure Upload where
  client : Client
  unread : List UInt8

inductive UploadStep (e : Endian) (u : Upload) : ClientEvent → Upload → Prop
  | internal {c : Client} : u.client.next e .internal = some c →
      UploadStep e u .internal { u with client := c }
  | sent {c : Client} {bytes : List UInt8} : bytes ≠ [] → u.client.next e (.sent bytes) = some c →
      UploadStep e u (.sent bytes) { u with client := c }
  | fileRead {c : Client} {bytes rest : List UInt8} : u.unread = bytes ++ rest →
      (bytes = [] → rest = []) → u.client.next e (.fileRead bytes) = some c →
      UploadStep e u (.fileRead bytes) ⟨c, rest⟩

/-- The client after `connect`, with its file. -/
def Upload.start (e : Endian) (file : List UInt8) : Upload := ⟨Client.start e file.length, file⟩

/-- The transfer ends, and the socket then has the length and the bytes of the file. -/
def FramesFile (e : Endian) (file : List UInt8) : Prop :=
  Halts (UploadStep e) (Upload.start e file) ∧
  ∀ h u, Run (UploadStep e) (Upload.start e file) h u → Final (UploadStep e) u →
    (∃ total mem, u.client.pc = .readResult total mem) ∧
      clientSent h = bigBytes 4 file.length ++ file

/-! ## The transfer ends -/

/-- The bytes that the client still has to write when `u` bytes of its file are unread. -/
def Client.unsent (c : Client) (u : Nat) : Nat :=
  match c.pc with
  | .sendSize total => (4 - total) + u
  | .fileTest _ | .readFile _ => u
  | .sendChunk _ buffer => buffer.length + u
  | .readResult .. | .print _ | .done _ | .failed => 0

/-- A bound on the steps that the client still takes. -/
def Client.rank (c : Client) (u : Nat) : Nat :=
  match c.pc with
  | .sendSize total => 4 * u + 8 + (4 - total)
  | .fileTest _ => 4 * u + 7
  | .readFile _ => 4 * u + 6
  | .sendChunk _ buffer => 4 * u + buffer.length + 8
  | .readResult total _ => 1 + (4 - total)
  | .print _ => 1
  | .done _ | .failed => 0

/-- What a step of the client does to its rank and to the bytes it has to write. -/
theorem client_rank_internal {e : Endian} {c c' : Client} (hs : c.next e .internal = some c')
    (u : Nat) : c'.rank u < c.rank u ∧ c'.unsent u ≤ c.unsent u := by
  simp only [Client.next, Client.internal] at hs
  split at hs
  · rename_i hpc
    split at hs <;> cases hs <;> simp only [Client.rank, Client.unsent, hpc] <;> omega
  · rename_i hpc
    split at hs <;> cases hs
    simp only [Client.rank, Client.unsent, hpc, List.length_nil]; omega
  · rename_i hpc
    cases hs
    simp only [Client.rank, Client.unsent, hpc]; omega
  all_goals cases hs

theorem client_rank_sent {e : Endian} {st_size : Nat} {c c' : Client} {hc : List ClientEvent}
    (I : ClientInv st_size hc c) {bytes : List UInt8} (hne : bytes ≠ [])
    (hs : c.next e (.sent bytes) = some c') (u : Nat) :
    c'.rank u < c.rank u ∧ bytes.length + c'.unsent u ≤ c.unsent u := by
  have hpos := List.length_pos_of_ne_nil hne
  have T := I.transfer
  simp only [Client.next, Client.sent] at hs
  split at hs
  · rename_i total hpc
    rw [hpc] at T
    obtain ⟨htotal, -⟩ := T
    split at hs
    · rename_i hb
      have hle := hb.length_le
      rw [List.length_drop, I.size, headerOf, bigBytes_length] at hle
      cases hs
      by_cases hlt : total + bytes.length < 4
      · simp only [Client.rank, Client.unsent, hpc, hlt, if_true]; omega
      · simp only [Client.rank, Client.unsent, hpc, hlt, if_false]; omega
    · cases hs
  · rename_i total buffer hpc
    split at hs
    · rename_i hb
      have hle := hb.2.length_le
      cases hs
      simp only [Client.rank, Client.unsent, hpc, List.length_drop]; omega
    · cases hs
  · cases hs

theorem client_rank_fileRead {e : Endian} {c c' : Client} {bytes rest : List UInt8}
    (hend : bytes = [] → rest = []) (hs : c.next e (.fileRead bytes) = some c') :
    c'.rank rest.length < c.rank (bytes.length + rest.length) ∧
      c'.unsent rest.length ≤ c.unsent (bytes.length + rest.length) := by
  simp only [Client.next, Client.fileRead] at hs
  split at hs
  · rename_i hpc
    split at hs
    · cases hs
    · split at hs
      · rename_i hnil
        cases hs
        simp only [Client.rank, Client.unsent, hpc, hnil, hend hnil, List.length_nil]; omega
      · rename_i hne
        have hpos := List.length_pos_of_ne_nil hne
        cases hs
        simp only [Client.rank, Client.unsent, hpc]; omega
  · cases hs

theorem client_rank_received {e : Endian} {st_size : Nat} {c c' : Client} {hc : List ClientEvent}
    (I : ClientInv st_size hc c) {bytes : List UInt8} (hne : bytes ≠ [])
    (hs : c.next e (.received bytes) = some c') (u : Nat) :
    c'.rank u < c.rank u ∧ c'.unsent u ≤ c.unsent u := by
  have hpos := List.length_pos_of_ne_nil hne
  obtain ⟨total, mem, hpc, -, rfl⟩ := received_cases hs
  have T := I.transfer
  rw [hpc] at T
  obtain ⟨-, htotal, -⟩ := T
  by_cases hlt : total + bytes.length < 4
  · simp only [Client.rank, Client.unsent, hpc, if_pos hlt]; omega
  · simp only [Client.rank, Client.unsent, hpc, if_neg hlt]; omega

/-- Until it waits for the reply, the client can take a step. -/
theorem upload_progress {e : Endian} {st_size : Nat} {h : List ClientEvent} {u : Upload}
    (I : ClientInv st_size h u.client) : (∃ ev u', UploadStep e u ev u') ∨
      (∃ total mem, u.client.pc = .readResult total mem) ∨ (∃ v, u.client.pc = .done v) ∨
      u.client.pc = .failed := by
  have T := I.transfer
  have hinternal : ∀ {c}, u.client.internal e = some c → ∃ ev u', UploadStep e u ev u' :=
    fun hc => ⟨_, _, .internal hc⟩
  cases hpc : u.client.pc with
  | sendSize total =>
    rw [hpc] at T
    obtain ⟨htotal, -⟩ := T
    have hpos : 0 < (u.client.stream_size.drop total).length := by
      rw [List.length_drop, I.size, headerOf, bigBytes_length]; omega
    obtain ⟨b, rest, hb⟩ := List.exists_cons_of_length_pos hpos
    have hc : u.client.next e (.sent [b]) =
        some { u.client with pc := if total + 1 < 4 then .sendSize (total + 1) else .fileTest 0 } := by
      simp [Client.next, Client.sent, hpc, hb]
    exact .inl ⟨_, _, .sent (List.cons_ne_nil b []) hc⟩
  | fileTest total =>
    refine .inl ?_
    by_cases hlt : (BitVec.ofNat 32 total).toInt < u.client.bytes_to_send
    · exact hinternal (by simp only [Client.internal, hpc, if_pos hlt]; rfl)
    · exact hinternal (by simp only [Client.internal, hpc, if_neg hlt]; rfl)
  | readFile total =>
    refine .inl ?_
    cases hu : u.unread with
    | nil =>
      have hc : u.client.next e (.fileRead []) =
          some { u.client with pc := .readResult 0 (uint32Bytes e 0) } := by
        simp [Client.next, Client.fileRead, hpc]
      exact ⟨_, _, .fileRead (show u.unread = [] ++ [] from hu) (fun _ => rfl) hc⟩
    | cons b rest =>
      have hc : u.client.next e (.fileRead [b]) =
          some { u.client with pc := .sendChunk (total + 1) [b] } := by
        simp [Client.next, Client.fileRead, hpc, BUFFER_SZIE]
      exact ⟨_, _, .fileRead (show u.unread = [b] ++ rest from hu) (fun hb => by cases hb) hc⟩
  | sendChunk total buffer =>
    refine .inl ?_
    cases buffer with
    | nil => exact hinternal (by simp only [Client.internal, hpc]; rfl)
    | cons b rest =>
      have hc : u.client.next e (.sent [b]) =
          some { u.client with pc := .sendChunk total rest } := by
        simp [Client.next, Client.sent, hpc]
      exact ⟨_, _, .sent (List.cons_ne_nil b []) hc⟩
  | readResult total mem => exact .inr (.inl ⟨total, mem, rfl⟩)
  | print v => exact .inl (hinternal (by simp only [Client.internal, hpc]; rfl))
  | done v => exact .inr (.inr (.inl ⟨v, rfl⟩))
  | failed => exact .inr (.inr (.inr rfl))

/-! ## A file that does not change -/

theorem fileLength_toInt {file : List UInt8} (hN : file.length ≤ 2 ^ 31 - 1) :
    (inputFileLength file.length).toInt = file.length := by
  rw [inputFileLength, BitVec.toInt_eq_toNat_of_lt]
  · rw [BitVec.toNat_ofNat]; omega
  · rw [BitVec.toNat_ofNat]; omega

/-- **A client that has left its file loop has sent the whole file.** -/
theorem FileSent.whole {file unread : List UInt8} {h : List ClientEvent}
    (F : FileSent file.length h) (hN : file.length ≤ 2 ^ 31 - 1)
    (hread : fileRead h ++ unread = file) (heof : .fileRead [] ∈ h → unread = []) :
    clientSent h = headerOf file.length ++ file := by
  have hnil : unread = [] := by
    rcases F.all with hle | hend
    · rw [fileLength_toInt hN] at hle
      have hlen := congrArg List.length hread
      rw [List.length_append] at hlen
      exact List.length_eq_zero_iff.1 (by omega)
    · exact heof hend
  rw [hnil, List.append_nil] at hread
  rw [F.sent, hread]

/-- The points up to the first `read` of the reply. -/
def ClientPc.uploading : ClientPc → Bool
  | .print _ | .done _ | .failed => false
  | _ => true

structure UploadInv (e : Endian) (file : List UInt8) (h : List ClientEvent) (u : Upload) : Prop where
  client : Run (ClientStep e) (Client.start e file.length) h u.client
  unread : fileRead h ++ u.unread = file
  eof : .fileRead [] ∈ h → u.unread = []
  uploading : u.client.pc.uploading = true

section

variable {e : Endian} {file : List UInt8} {h : List ClientEvent} {u u' : Upload} {ev : ClientEvent}

theorem uploading_step (hpc : u.client.pc.uploading = true) (hs : UploadStep e u ev u') :
    u'.client.pc.uploading = true := by
  cases hs with
  | internal hc =>
    simp only [Client.next, Client.internal] at hc
    split at hc
    · split at hc <;> cases hc <;> rfl
    · split at hc <;> cases hc
      rfl
    · rename_i h
      rw [h] at hpc; cases hpc
    all_goals cases hc
  | sent _ hc =>
    simp only [Client.next, Client.sent] at hc
    split at hc
    · split at hc <;> cases hc
      simp only
      split <;> rfl
    · split at hc <;> cases hc
      rfl
    · cases hc
  | fileRead _ _ hc =>
    simp only [Client.next, Client.fileRead] at hc
    split at hc
    · split at hc
      · cases hc
      · split at hc <;> cases hc <;> rfl
    · cases hc

theorem uploadInv_start : UploadInv e file [] (Upload.start e file) where
  client := .nil
  unread := rfl
  eof := by simp
  uploading := rfl

theorem uploadInv_step (I : UploadInv e file h u) (hs : UploadStep e u ev u') :
    UploadInv e file (ev :: h) u' := by
  have huploading := uploading_step I.uploading hs
  cases hs with
  | internal hc =>
    exact { I with client := I.client.step hc, uploading := huploading,
                   eof := fun hm => I.eof (by simpa using hm) }
  | sent _ hc =>
    exact { I with client := I.client.step hc, uploading := huploading,
                   eof := fun hm => I.eof (by simpa using hm) }
  | @fileRead c bytes rest hbytes hend hc =>
    refine ⟨I.client.step hc, ?_, fun hm => ?_, huploading⟩
    · rw [fileRead, List.append_assoc, ← hbytes, I.unread]
    · rcases List.mem_cons.1 hm with heq | hm
      · cases heq; exact hend rfl
      · have hnil := I.eof hm
        rw [hbytes] at hnil
        exact (List.append_eq_nil_iff.1 hnil).2

theorem upload_run (hr : Run (UploadStep e) (Upload.start e file) h u) : UploadInv e file h u :=
  hr.historyInvariant uploadInv_start fun _ _ _ _ I hs => uploadInv_step I hs

theorem upload_rank_step (I : UploadInv e file h u) (hs : UploadStep e u ev u') :
    u'.client.rank u'.unread.length < u.client.rank u.unread.length := by
  cases hs with
  | internal hc => exact (client_rank_internal hc u.unread.length).1
  | sent hne hc => exact (client_rank_sent (client_run I.client) hne hc u.unread.length).1
  | fileRead hbytes hend hc =>
    simp only [hbytes, List.length_append]
    exact (client_rank_fileRead hend hc).1

theorem upload_halts : Halts (UploadStep e) (Upload.start e file) := by
  refine Halts.of_rank (P := fun u => ∃ h, UploadInv e file h u)
    (fun u => u.client.rank u.unread.length) ?_ ⟨[], uploadInv_start⟩
  rintro u ev u' ⟨h, I⟩ hs
  exact ⟨⟨_, uploadInv_step I hs⟩, upload_rank_step I hs⟩

/-- A transfer that cannot go on waits for the reply. -/
theorem UploadInv.complete (I : UploadInv e file h u) (hfin : Final (UploadStep e) u) :
    ∃ total mem, u.client.pc = .readResult total mem := by
  have hpc := I.uploading
  rcases upload_progress (client_run I.client) with ⟨ev, u', hs⟩ | hread | ⟨v, hv⟩ | hfail
  · exact absurd hs (hfin ev u')
  · exact hread
  · rw [hv] at hpc; cases hpc
  · rw [hfail] at hpc; cases hpc

theorem framesFile_of_short (hN : file.length < 2 ^ 31) : FramesFile e file := by
  refine ⟨upload_halts, fun h u hr hfin => ?_⟩
  have I := upload_run hr
  obtain ⟨total, mem, hpc⟩ := I.complete hfin
  refine ⟨⟨total, mem, hpc⟩, ?_⟩
  have T := (client_run I.client).transfer
  rw [hpc] at T
  rw [T.1.whole (by omega) I.unread I.eof, headerOf, inputFileLength, BitVec.toNat_ofNat,
    Nat.mod_eq_of_lt (by omega)]

/-- A length that is negative as an `int` keeps the loop from its first round: the header goes out
in one `write`, and then the client waits for the reply. -/
theorem not_framesFile_of_long (hL : file.length < 2 ^ 32) (hlong : 2 ^ 31 ≤ file.length) :
    ¬FramesFile e file := by
  rintro ⟨-, hall⟩
  have hsize : (Client.start e file.length).stream_size = headerOf file.length :=
    (clientInv_start e file.length).size
  have hlen : (headerOf file.length).length = 4 := bigBytes_length ..
  have hheader : (Client.start e file.length).next e (.sent (headerOf file.length)) =
      some { Client.start e file.length with pc := .fileTest 0 } := by
    have hfull : headerOf file.length <+: (Client.start e file.length).stream_size.drop 0 := by
      rw [hsize]; exact List.prefix_refl _
    have hpc : (Client.start e file.length).pc = .sendSize 0 := rfl
    simp only [Client.next, Client.sent, hpc, if_pos hfull, hlen]
    rfl
  have hneg : ¬(BitVec.ofNat 32 0).toInt < (Client.start e file.length).bytes_to_send := by
    have hcond := BitVec.toInt_eq_toNat_cond (inputFileLength file.length)
    rw [inputFileLength, BitVec.toNat_ofNat, Nat.mod_eq_of_lt hL, if_neg (by omega)] at hcond
    simp only [Client.start, inputFileLength, hcond, BitVec.toInt_zero]
    omega
  have hleave : Client.next e { Client.start e file.length with pc := .fileTest 0 } .internal =
      some { Client.start e file.length with pc := .readResult 0 (uint32Bytes e 0) } := by
    simp only [Client.next, Client.internal, if_neg hneg]
  have hr : Run (UploadStep e) (Upload.start e file) [.internal, .sent (headerOf file.length)]
      ⟨{ Client.start e file.length with pc := .readResult 0 (uint32Bytes e 0) }, file⟩ :=
    (Run.nil.step (.sent (List.ne_nil_of_length_pos (by omega)) hheader)).step (.internal hleave)
  have hfin : Final (UploadStep e)
      ⟨{ Client.start e file.length with pc := .readResult 0 (uint32Bytes e 0) }, file⟩ := by
    intro ev u' hs
    cases hs with
    | internal hc => cases hc
    | sent _ hc => cases hc
    | fileRead _ _ hc => cases hc
  have hsent := congrArg List.length (hall _ _ hr hfin).2
  simp only [clientSent, List.nil_append, hlen, List.length_append, bigBytes_length] at hsent
  omega

end

/-- **The client frames a file exactly when its length is not negative as an `int`.** -/
theorem frames_file_iff (e : Endian) {file : List UInt8} (hL : file.length < 2 ^ 32) :
    FramesFile e file ↔ file.length < 2 ^ 31 := by
  constructor
  · intro hframes
    by_contra hlong
    exact not_framesFile_of_long hL (Nat.le_of_not_lt hlong) hframes
  · exact framesFile_of_short

theorem frames_file_two : FramesFile .little [65, 10] :=
  (frames_file_iff .little (by decide)).2 (by decide)

/-- A file of `2 ^ 31` bytes: the server is told its length and sent nothing. -/
theorem long_file_not_framed : ¬FramesFile .little (List.replicate (2 ^ 31) 0) :=
  not_framesFile_of_long (by rw [List.length_replicate]; omega) (by rw [List.length_replicate])

/-! ## A file that changes -/

/-- The bytes that `write_file_to_socket` has written to the socket. -/
def bodySent (h : List ClientEvent) : List UInt8 := (clientSent h).drop 4

/-- A `read` of the file does not go beyond the announced length. -/
def FitsAnnounced (st_size : Nat) (c : Client) (ev : ClientEvent) : Prop :=
  match ev, c.pc with
  | .fileRead bytes, .readFile total => total + bytes.length ≤ st_size
  | _, _ => True

section

variable {e : Endian} {st_size : Nat} {h h' : List ClientEvent} {c c' : Client} {ev : ClientEvent}

theorem fileRead_suffix (hsuf : h' <:+ h) : fileRead h' <+: fileRead h := by
  induction h with
  | nil => rw [List.suffix_nil.1 hsuf]
  | cons ev h ih =>
    rcases List.suffix_cons_iff.1 hsuf with rfl | hsuf
    · exact List.prefix_refl _
    · refine (ih hsuf).trans ?_
      cases ev with
      | fileRead bytes => exact List.prefix_append _ bytes
      | _ => exact List.prefix_refl _

/-- The `read` of a file, at the number of bytes read so far. -/
theorem fileRead_cases {bytes : List UInt8} (I : ClientInv st_size h c)
    (hs : ClientStep e c (.fileRead bytes) c') : c.pc = .readFile (fileRead h).length := by
  simp only [ClientStep, Client.next, Client.fileRead] at hs
  have T := I.transfer
  split at hs
  · rename_i total hpc
    rw [hpc] at T
    rw [hpc, T.2.1]
  · cases hs

/-- **What is sent of the body was read from the file.** -/
theorem bodySent_le (hr : Run (ClientStep e) (Client.start e st_size) h c) :
    (bodySent h).length ≤ (fileRead h).length := by
  have hlive : ∀ {h c}, ClientInv st_size h c → c.pc ≠ .failed →
      (bodySent h).length ≤ (fileRead h).length := by
    intro h c I hc
    have hpre := (clientSent_upto I hc (List.prefix_refl _)).length_le
    rw [List.length_append, headerOf, bigBytes_length] at hpre
    rw [bodySent, List.length_drop]
    omega
  cases hr with
  | nil => exact Nat.le_refl 0
  | @step h c₁ _ ev hr hs =>
    cases ev with
    | callFailed =>
      -- the transfer is as it was before the call that failed
      apply hlive (h := h) (client_run hr)
      intro hpc
      simp only [ClientStep, Client.next, hpc] at hs
      cases hs
    | internal => exact hlive (client_run (hr.step hs)) (client_alive (by simp) hs)
    | sent bytes => exact hlive (client_run (hr.step hs)) (client_alive (by simp) hs)
    | fileRead bytes => exact hlive (client_run (hr.step hs)) (client_alive (by simp) hs)
    | received bytes => exact hlive (client_run (hr.step hs)) (client_alive (by simp) hs)

/-- Reads that fit never take more than was announced. -/
theorem fileRead_le (hr : Run (ClientStep e) (Client.start e st_size) h c)
    (hfits : Run.EachStep (ClientStep e) (Client.start e st_size) (FitsAnnounced st_size) h) :
    (fileRead h).length ≤ st_size := by
  refine (hr.historyInvariantOn
    (P := fun h c => ClientInv st_size h c ∧ (fileRead h).length ≤ st_size)
    ⟨clientInv_start e st_size, Nat.zero_le _⟩ ?_ hfits).2
  rintro h c ev c' ⟨I, hle⟩ hfit hs
  refine ⟨clientInv_step I hs, ?_⟩
  cases ev with
  | fileRead bytes =>
    simp only [FitsAnnounced, fileRead_cases I hs] at hfit
    rw [fileRead, List.length_append]
    exact hfit
  | _ => exact hle

/-- A transfer that took no more than was announced has reads that fit. -/
theorem fits_of_fileRead_le
    (hle : (fileRead h).length ≤ st_size) :
    Run.EachStep (ClientStep e) (Client.start e st_size) (FitsAnnounced st_size) h := by
  intro ev h' hsuf t ht
  have I := client_run ht
  cases ev with
  | fileRead bytes =>
    cases hpc : t.pc with
    | readFile total =>
      have T := I.transfer
      rw [hpc] at T
      have hread := (fileRead_suffix hsuf).length_le
      rw [fileRead, List.length_append] at hread
      simp only [FitsAnnounced, hpc, T.2.1]
      omega
    | _ => simp only [FitsAnnounced, hpc]
  | _ => trivial

end

/-- **The client sends no more than it announced exactly when no `read` of the file goes beyond the
announced length**: never more in any run of such reads, and once the body is complete only then. -/
theorem body_fits_iff {e : Endian} {st_size : Nat} {h : List ClientEvent} {c : Client}
    (hr : Run (ClientStep e) (Client.start e st_size) h c) :
    (Run.EachStep (ClientStep e) (Client.start e st_size) (FitsAnnounced st_size) h →
      (bodySent h).length ≤ st_size) ∧
    ((∃ total mem, c.pc = .readResult total mem) → ((bodySent h).length ≤ st_size ↔
      Run.EachStep (ClientStep e) (Client.start e st_size) (FitsAnnounced st_size) h)) := by
  have henough : Run.EachStep (ClientStep e) (Client.start e st_size) (FitsAnnounced st_size) h →
      (bodySent h).length ≤ st_size := fun hfits => (bodySent_le hr).trans (fileRead_le hr hfits)
  refine ⟨henough, ?_⟩
  rintro ⟨total, mem, hpc⟩
  refine ⟨fun hle => fits_of_fileRead_le ?_, henough⟩
  have T := (client_run hr).transfer
  rw [hpc] at T
  have hheader : (headerOf st_size).length = 4 := bigBytes_length ..
  rwa [bodySent, T.1.sent, ← hheader, List.drop_left'] at hle
  rfl

/-- A file of two bytes, read and sent while it is as long as announced. -/
theorem body_fits_two : Run.EachStep (ClientStep .little) (Client.start .little 2) (FitsAnnounced 2)
    [.internal, .internal, .sent [10], .sent [65], .fileRead [65, 10], .internal,
      .sent [0, 0, 0, 2]] := by
  have hr : Run (ClientStep .little) (Client.start .little 2)
      [.internal, .internal, .sent [10], .sent [65], .fileRead [65, 10], .internal,
        .sent [0, 0, 0, 2]]
      { Client.start .little 2 with pc := .readResult 0 (uint32Bytes .little 0) } :=
    .step (.step (.step (.step (.step (.step (.step .nil rfl) rfl) rfl) rfl) rfl) rfl) rfl
  exact ((body_fits_iff hr).2 ⟨_, _, rfl⟩).1 (by decide)

/-- The file has grown by a byte between `stat` and `read`. -/
theorem grown_file_exceeds : ¬∀ h c, Run (ClientStep .little) (Client.start .little 1) h c →
    (bodySent h).length ≤ 1 := by
  intro hall
  have hr : Run (ClientStep .little) (Client.start .little 1)
      [.sent [65, 66], .fileRead [65, 66], .internal, .sent [0, 0, 0, 1]]
      { Client.start .little 1 with pc := .sendChunk 2 [] } :=
    .step (.step (.step (.step .nil rfl) rfl) rfl) rfl
  have hle := hall _ _ hr
  revert hle
  decide

end OSCourse.Pcc
