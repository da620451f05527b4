import OSCourse.Pcc.Link
import OSCourse.Pcc.Upload

/-!
# The client and the server agree

* `file_sent` — a client that waits for the result has sent its whole file.
* `not_bothBlocked` — the two never wait for each other's bytes with none in flight.
* `link_progress`, `rank_step` — until both are done some step is possible, and each step lowers a
  rank, so that every run ends.
* `client_server_agree` — the printed number and the totals.
-/

set_option autoImplicit false

namespace OSCourse.Pcc

open Bytes Transition

/-- Both parties are in a `read` on the socket, and nothing is in flight. -/
def Link.BothBlocked (l : Link) : Prop :=
  (∃ total mem, l.client.pc = .readResult total mem) ∧
  ((∃ total mem, l.server.pc = .readSize total mem) ∨ ∃ total n, l.server.pc = .readStream total n) ∧
  l.toServer = [] ∧ l.toClient = []

/-- The client returned, and the server waits for the next connection. -/
def Link.Finished (l : Link) : Prop :=
  (∃ v, l.client.pc = .done v) ∧ l.server.pc = .accept ∧ l.pending = false

section

variable {ec es : Endian} {file : List UInt8} {s₀ : Server} {h : List LinkEvent} {l l' : Link}

/-! ## No deadlock -/

/-- **A client that has left its file loop has sent the whole file.** -/
theorem file_sent (hN : file.length ≤ 2 ^ 31 - 1) (I : LinkInv ec es file s₀ h l)
    (F : FileSent file.length (clientPart h)) :
    clientSent (clientPart h) = headerOf file.length ++ file :=
  F.whole hN I.unread I.eof

/-- A server that has received the header and the file is not in a `read`. -/
theorem server_not_reading (hN : file.length ≤ 2 ^ 31 - 1) (hidle : Idle s₀)
    (I : LinkInv ec es file s₀ h l)
    (hall : (sessionOf (serverPart h)).received = headerOf file.length ++ file) :
    (∀ total mem, l.server.pc ≠ .readSize total mem) ∧
      ∀ total n, l.server.pc ≠ .readStream total n := by
  have S := I.sessionInv hidle
  have hheader : (headerOf file.length).length = 4 := bigBytes_length ..
  constructor
  · intro total mem hpc
    simp only [SessionInv, hpc] at S
    obtain ⟨htotal, hmem, hrec, -⟩ := S
    have hlen := congrArg List.length (hall.symm.trans hrec)
    rw [List.length_append, List.length_take] at hlen
    omega
  · intro total n hpc
    simp only [SessionInv, hpc] at S
    obtain ⟨hc, -, -, hlt⟩ := S
    have hstream : (sessionOf (serverPart h)).stream = file := by
      rw [Session.stream, hall, ← hheader, List.drop_left']
      rfl
    have hsize : l.server.stream_byte_size = BitVec.ofNat 32 file.length := by
      rw [hc.announced.2, hall, ← hheader, List.take_left' rfl, header_ofBig hN]
    rw [hc.length, hstream, hsize] at hlt
    exact Nat.lt_irrefl _ hlt

/-- The bytes of the reply that were written, unless the session is over. -/
theorem reply_sent (hidle : Idle s₀) (I : LinkInv ec es file s₀ h l) :
    (sessionOf (serverPart h)).sent.length < 4 ∨
      (sessionOf (serverPart h)).sent = bigBytes 4 (printableOf file).toNat := by
  have S := I.sessionInv hidle
  have P := I.phase
  unfold SessionInv at S
  cases hpc : l.server.pc <;> simp only [hpc] at S <;> simp only [hpc, Phase] at P
  case loop => exact .inr P.2.sent
  case accept =>
    rcases P with ⟨hp, -⟩ | ⟨-, hrep⟩
    · exact .inl (by rw [I.pending hp]; decide)
    · exact .inr hrep.sent
  case setProcessing => exact .inl (by rw [S]; decide)
  case readSize => exact .inl (by rw [S.2.2.2]; decide)
  case resetClient => exact .inl (by rw [S.2.2.1]; decide)
  case readTest => exact .inl (by rw [S.2.2]; decide)
  case readStream => exact .inl (by rw [S.2.2.1]; decide)
  case updateClient =>
    obtain ⟨counted, -, -, -, hsent⟩ := S
    exact .inl (by rw [hsent]; decide)
  case convert => exact .inl (by rw [S.2.2]; decide)
  case sendReply =>
    obtain ⟨-, -, htotal, hsent⟩ := S
    exact .inl (by rw [hsent, List.length_take]; omega)
  case updateTotal => exact .inr P.2.sent
  case closeDone => exact .inr P.2.sent
  case clearProcessing => exact .inr P.2.sent

/-- **The two are never blocked on each other.** -/
theorem not_bothBlocked (hN : file.length ≤ 2 ^ 31 - 1) (hidle : Idle s₀)
    (I : LinkInv ec es file s₀ h l) : ¬l.BothBlocked := by
  rintro ⟨⟨total, mem, hpc⟩, hserver, htoServer, -⟩
  have T := I.clientInv.transfer
  rw [hpc] at T
  have hall := I.toServer
  rw [file_sent hN I T.1, htoServer, List.append_nil] at hall
  have hno := server_not_reading hN hidle I hall.symm
  rcases hserver with ⟨total, mem, hs⟩ | ⟨total, n, hs⟩
  · exact hno.1 total mem hs
  · exact hno.2 total n hs

/-- What the client does on its own, it does in the link. -/
theorem linkStep_of_upload (es : Endian) {u' : Upload} {ev : ClientEvent}
    (hs : UploadStep ec ⟨l.client, l.unread⟩ ev u') : ∃ l', LinkStep ec es l (.client ev) l' := by
  cases hs with
  | internal hc => exact ⟨_, .clientInternal hc⟩
  | sent hne hc => exact ⟨_, .clientSent hne hc⟩
  | fileRead hbytes hend hc => exact ⟨_, .clientFileRead hbytes hend hc⟩

/-- Until it blocks or returns, the client can take a step. -/
theorem client_progress (I : LinkInv ec es file s₀ h l) :
    (∃ ev l', LinkStep ec es l ev l') ∨ (∃ v, l.client.pc = .done v) ∨
      ((∃ total mem, l.client.pc = .readResult total mem) ∧ l.toClient = []) := by
  rcases upload_progress (u := ⟨l.client, l.unread⟩) I.clientInv with
    ⟨ev, u', hs⟩ | ⟨total, mem, hpc⟩ | hdone | hfail
  · obtain ⟨l', hs'⟩ := linkStep_of_upload es hs
    exact .inl ⟨_, l', hs'⟩
  · have hpc : l.client.pc = .readResult total mem := hpc
    have T := I.clientInv.transfer
    rw [hpc] at T
    obtain ⟨-, htotal, -⟩ := T
    cases ht : l.toClient with
    | nil => exact .inr (.inr ⟨⟨total, mem, hpc⟩, rfl⟩)
    | cons b rest =>
      obtain ⟨c, hc⟩ := can_receive (e := ec) hpc htotal b
      have ht : l.toClient = [b] ++ rest := ht
      exact .inl ⟨_, _, .clientReceived (List.cons_ne_nil b []) ht hc⟩
  · exact .inr (.inl hdone)
  · exact absurd hfail I.alive

/-- Until it waits for bytes or for the next connection, the server can take a step. -/
theorem server_progress (hidle : Idle s₀) (I : LinkInv ec es file s₀ h l) :
    (∃ ev l', LinkStep ec es l ev l') ∨ (l.server.pc = .accept ∧ l.pending = false) ∨
      (((∃ total mem, l.server.pc = .readSize total mem) ∨
        ∃ total n, l.server.pc = .readStream total n) ∧ l.toServer = []) := by
  have S := I.sessionInv hidle
  have P := I.phase
  have hinternal : ∀ {s}, l.server.internal es = some s → ∃ ev l', LinkStep ec es l ev l' :=
    fun hs => ⟨_, _, .serverInternal hs⟩
  unfold SessionInv at S
  cases hpc : l.server.pc <;> simp only [hpc] at S <;> simp only [hpc, Phase] at P
  case accept =>
    cases hpend : l.pending with
    | false => exact .inr (.inl ⟨rfl, rfl⟩)
    | true =>
      have hs : l.server.next es .accepted = some { l.server with pc := .setProcessing } := by
        simp [Server.next, hpc]
      exact .inl ⟨_, _, .serverAccepted hpend hs⟩
  case readSize total mem =>
    cases ht : l.toServer with
    | nil => exact .inr (.inr ⟨.inl ⟨total, mem, rfl⟩, rfl⟩)
    | cons b rest =>
      have hs : ∃ s, l.server.next es (.received [b]) = some s := by
        have hfits : [b] ≠ [] ∧ [b].length ≤ 4 - total :=
          ⟨List.cons_ne_nil b [], by simp only [List.length_singleton]; omega⟩
        simp only [Server.next, Server.received, hpc, if_pos hfits]
        split <;> exact ⟨_, rfl⟩
      obtain ⟨s, hs⟩ := hs
      have ht : l.toServer = [b] ++ rest := ht
      exact .inl ⟨_, _, .serverReceived (List.cons_ne_nil b []) ht hs⟩
  case readStream total n =>
    cases ht : l.toServer with
    | nil => exact .inr (.inr ⟨.inr ⟨total, n, rfl⟩, rfl⟩)
    | cons b rest =>
      have hs : ∃ s, l.server.next es (.received [b]) = some s := by
        have hfits : [b] ≠ [] ∧ [b].length ≤ BUFFER_SZIE :=
          ⟨List.cons_ne_nil b [], by simp [BUFFER_SZIE]⟩
        simp only [Server.next, Server.received, hpc, if_pos hfits]
        exact ⟨_, rfl⟩
      obtain ⟨s, hs⟩ := hs
      have ht : l.toServer = [b] ++ rest := ht
      exact .inl ⟨_, _, .serverReceived (List.cons_ne_nil b []) ht hs⟩
  case sendReply data total =>
    obtain ⟨-, hdata, htotal, -⟩ := S
    have hpos : 0 < (data.drop total).length := by
      rw [List.length_drop, hdata, replyOf, bigBytes_length]; omega
    obtain ⟨b, rest, hb⟩ := List.exists_cons_of_length_pos hpos
    have hs : l.server.next es (.sent [b]) = some { l.server with
        pc := if total + 1 < 4 then .sendReply data (total + 1) else .updateTotal 0 } := by
      simp [Server.next, Server.sent, hpc, hb]
    exact .inl ⟨_, _, .serverSent (List.cons_ne_nil b []) hs⟩
  case updateClient total n recieve_buff counter =>
    cases recieve_buff <;> exact .inl (hinternal (by simp only [Server.internal, hpc]; rfl))
  case resetClient i =>
    by_cases hi : i < PRINABLE_CHARS_AMOUNT
    · exact .inl (hinternal (by simp only [Server.internal, hpc, if_pos hi]; rfl))
    · exact .inl (hinternal (by simp only [Server.internal, hpc, if_neg hi]; rfl))
  case updateTotal i =>
    by_cases hi : i < PRINABLE_CHARS_AMOUNT
    · exact .inl (hinternal (by simp only [Server.internal, hpc, if_pos hi]; rfl))
    · exact .inl (hinternal (by simp only [Server.internal, hpc, if_neg hi]; rfl))
  case readTest total n =>
    by_cases hlt : total.toNat < l.server.stream_byte_size.toNat
    · exact .inl (hinternal (by simp only [Server.internal, hpc, if_pos hlt]; rfl))
    · exact .inl (hinternal (by simp only [Server.internal, hpc, if_neg hlt]; rfl))
  all_goals exact .inl (hinternal (by simp only [Server.internal, hpc]; rfl))

/-- **Until both are done some step is possible.** -/
theorem link_progress (hN : file.length ≤ 2 ^ 31 - 1) (hidle : Idle s₀)
    (I : LinkInv ec es file s₀ h l) : l.Finished ∨ ∃ ev l', LinkStep ec es l ev l' := by
  rcases client_progress I with hstep | hclient
  · exact .inr hstep
  rcases server_progress hidle I with hstep | hserver
  · exact .inr hstep
  have T := I.clientInv.transfer
  -- the client has sent everything, so a server that waits in a `read` has bytes to come
  have hsent : clientSent (clientPart h) = headerOf file.length ++ file := by
    rcases hclient with ⟨v, hpc⟩ | ⟨⟨total, mem, hpc⟩, -⟩ <;> rw [hpc] at T
    · exact file_sent hN I T.1
    · exact file_sent hN I T.1
  rcases hserver with ⟨haccept, hpend⟩ | ⟨hread, hnil⟩
  · rcases hclient with hdone | ⟨⟨total, mem, hpc⟩, hnil⟩
    · exact .inl ⟨hdone, haccept, hpend⟩
    · rw [hpc] at T
      obtain ⟨-, htotal, hmem, hgot⟩ := T
      have P := I.phase
      rw [haccept] at P
      rcases P with ⟨htrue, -⟩ | ⟨-, hrep⟩
      · rw [hpend] at htrue; cases htrue
      · have hlen := congrArg List.length (hrep.sent.symm.trans I.toClient)
        rw [hnil, List.append_nil, hgot, bigBytes_length, List.length_take] at hlen
        omega
  · have hall := I.toServer
    rw [hsent, hnil, List.append_nil] at hall
    have hno := server_not_reading hN hidle I hall.symm
    rcases hread with ⟨total, mem, hs⟩ | ⟨total, n, hs⟩
    · exact absurd hs (hno.1 total mem)
    · exact absurd hs (hno.2 total n)

/-! ## Every run ends -/

/-- A bound on the steps that the server still takes when `r` bytes are to come. -/
def Server.rank (s : Server) (pending : Bool) (r : Nat) : Nat :=
  match s.pc with
  | .accept => if pending then 4 * r + 206 else 0
  | .setProcessing => 4 * r + 205
  | .readSize .. => 4 * r + 204
  | .resetClient i => 4 * r + 108 + (PRINABLE_CHARS_AMOUNT - i)
  | .readTest .. => 4 * r + 107
  | .readStream .. => 4 * r + 106
  | .updateClient _ _ recieve_buff _ => 4 * r + 108 + recieve_buff.length
  | .convert _ => 105
  | .sendReply _ total => 100 + (4 - total)
  | .updateTotal i => 4 + (PRINABLE_CHARS_AMOUNT - i)
  | .closeDone => 3
  | .clearProcessing => 2
  | .loop => 1
  | .closeFailed | .print _ | .exited => 0

def Link.rank (l : Link) : Nat :=
  l.client.rank l.unread.length +
    l.server.rank l.pending (l.toServer.length + l.client.unsent l.unread.length)

theorem server_rank_mono (s : Server) (pending : Bool) {r r' : Nat} (hr : r ≤ r') :
    s.rank pending r ≤ s.rank pending r' := by
  unfold Server.rank
  cases s.pc <;> simp only <;> (try split) <;> omega

/-- What a step of the server does to its rank. -/
theorem server_rank_internal {e : Endian} {s s' : Server} {g : Session}
    {streams : List (List UInt8)} {pending : Bool} (hrun : s.g_server_is_running = true)
    (P : Phase file g streams pending s.pc) (hs : s.next e .internal = some s') (r : Nat) :
    s'.rank pending r < s.rank pending r := by
  simp only [Server.next, Server.internal] at hs
  split at hs
  · rename_i hpc
    rw [hpc] at P
    cases hs
    simp [Server.rank, hpc, hrun, P.1]
  · rename_i hpc
    cases hs
    simp only [Server.rank, hpc]; omega
  · rename_i hpc
    split at hs <;> cases hs <;> simp only [Server.rank, hpc] <;> omega
  · rename_i hpc
    split at hs <;> cases hs <;> simp only [Server.rank, hpc] <;> omega
  · rename_i recieve_buff _ hpc
    cases recieve_buff <;> cases hs <;>
      simp only [Server.rank, hpc, List.length_cons, List.length_nil] <;> omega
  · rename_i hpc
    cases hs
    simp only [Server.rank, hpc]; omega
  · rename_i hpc
    split at hs <;> cases hs <;> simp only [Server.rank, hpc] <;> omega
  · rename_i hpc; rw [hpc] at P; exact P.elim
  · rename_i hpc
    cases hs
    simp only [Server.rank, hpc]; omega
  · rename_i hpc
    cases hs
    simp only [Server.rank, hpc]; omega
  · rename_i hpc; rw [hpc] at P; exact P.elim
  all_goals cases hs

theorem server_rank_received {e : Endian} {s s' : Server} {pending : Bool} {bytes : List UInt8}
    (hs : s.next e (.received bytes) = some s') (r : Nat) :
    s'.rank pending r < s.rank pending (bytes.length + r) := by
  simp only [Server.next, Server.received] at hs
  split at hs
  · rename_i hpc
    split at hs
    · rename_i hb
      have hpos := List.length_pos_of_ne_nil hb.1
      split at hs <;> cases hs <;> simp only [Server.rank, hpc, PRINABLE_CHARS_AMOUNT] <;> omega
    · cases hs
  · rename_i hpc
    split at hs
    · rename_i hb
      have hpos := List.length_pos_of_ne_nil hb.1
      cases hs
      simp only [Server.rank, hpc]; omega
    · cases hs
  · cases hs

theorem server_rank_sent {e : Endian} {s s' : Server} {g : Session} {pending : Bool}
    {bytes : List UInt8} (S : SessionInv s g) (hs : s.next e (.sent bytes) = some s') (r : Nat) :
    s'.rank pending r < s.rank pending r := by
  simp only [Server.next, Server.sent] at hs
  unfold SessionInv at S
  split at hs
  · rename_i data total hpc
    simp only [hpc] at S
    obtain ⟨-, -, htotal, -⟩ := S
    split at hs
    · rename_i hb
      have hpos := List.length_pos_of_ne_nil hb.1
      cases hs
      by_cases hlt : total + bytes.length < 4
      · simp only [Server.rank, hpc, hlt, if_true]; omega
      · simp only [Server.rank, hpc, hlt, PRINABLE_CHARS_AMOUNT, if_false]; omega
    · cases hs
  · cases hs

/-- **Every step lowers the rank.** -/
theorem rank_step (hidle : Idle s₀) (I : LinkInv ec es file s₀ h l) {ev : LinkEvent}
    (hs : LinkStep ec es l ev l') : l'.rank < l.rank := by
  unfold Link.rank
  -- the fewer bytes the client still has to send, the fewer steps the server still has
  have hserver : ∀ {a b : Nat}, a ≤ b → l.server.rank l.pending (l.toServer.length + a) ≤
      l.server.rank l.pending (l.toServer.length + b) := fun hab =>
    server_rank_mono l.server l.pending (Nat.add_le_add_left hab l.toServer.length)
  cases hs with
  | @clientInternal c hc =>
    obtain ⟨hrank, hunsent⟩ := client_rank_internal hc l.unread.length
    have hmono := hserver hunsent
    simp only; omega
  | @clientSent c bytes hne hc =>
    obtain ⟨hrank, hunsent⟩ := client_rank_sent I.clientInv hne hc l.unread.length
    have hmono := hserver hunsent
    rw [← Nat.add_assoc] at hmono
    simp only [List.length_append]; omega
  | @clientFileRead c bytes rest hbytes hend hc =>
    obtain ⟨hrank, hunsent⟩ := client_rank_fileRead hend hc
    have hmono := hserver hunsent
    simp only [hbytes, List.length_append]; omega
  | @clientReceived c bytes rest hne hbytes hc =>
    obtain ⟨hrank, hunsent⟩ := client_rank_received I.clientInv hne hc l.unread.length
    have hmono := hserver hunsent
    simp only; omega
  | serverInternal hs =>
    exact Nat.add_lt_add_left (server_rank_internal I.running I.phase hs _) _
  | @serverAccepted s hpending hs =>
    simp only [Server.next] at hs
    split at hs <;> cases hs
    rename_i hpc
    refine Nat.add_lt_add_left ?_ _
    simp only [Server.rank, hpc, hpending, if_true]; omega
  | @serverReceived s bytes rest hne hbytes hs =>
    simp only [hbytes, List.length_append, Nat.add_assoc]
    exact Nat.add_lt_add_left (server_rank_received hs _) _
  | serverSent hne hs =>
    exact Nat.add_lt_add_left (server_rank_sent (I.sessionInv hidle) hs _) _

/-! ## The result -/

/-- The number that the client prints. -/
theorem printed_count (hN : file.length ≤ 2 ^ 31 - 1) (hidle : Idle s₀)
    (I : LinkInv ec es file s₀ h l) {v : BitVec 32} (hv : l.client.pc = .done v) :
    v.toNat = file.countP isPrintable := by
  have T := I.clientInv.transfer
  rw [hv] at T
  obtain ⟨-, hlen, hv⟩ := T
  have hfifo := I.toClient
  have hreply : clientGot (clientPart h) = bigBytes 4 (printableOf file).toNat := by
    rcases reply_sent hidle I with hshort | hall
    · rw [hfifo, List.length_append] at hshort; omega
    · rw [hall] at hfifo
      have hlens := congrArg List.length hfifo
      rw [bigBytes_length, List.length_append] at hlens
      have hnil : l.toClient = [] := List.length_eq_zero_iff.1 (by omega)
      rw [hnil, List.append_nil] at hfifo
      exact hfifo.symm
  have hle : file.countP isPrintable ≤ file.length := List.countP_le_length
  rw [hv, hreply, ofBig_bigBytes, printableOf, BitVec.toNat_ofNat, BitVec.toNat_ofNat]
  omega

/-- What the server has added when it is idle again. -/
theorem totals_added (hidle : Idle s₀) (I : LinkInv ec es file s₀ h l) (hp : l.pending = false)
    (hl : Idle l.server) (i : Fin PRINABLE_CHARS_AMOUNT) :
    l.server.pcc_total i = s₀.pcc_total i + countsOf file i := by
  have hstreams : completed (serverPart h) = [file] := by
    have P := I.phase
    rcases hl with hpc | hpc
    · rw [hpc] at P; exact P.2.streams
    · rw [hpc] at P
      rcases P with ⟨htrue, -⟩ | ⟨-, hrep⟩
      · rw [hp] at htrue; cases htrue
      · exact hrep.streams
  have hsettled := settled_run hidle I.server i
  rw [settled_eq (by rcases hl with hpc | hpc <;> rw [hpc] <;> rfl), hstreams, sumOf_cons,
    sumOf_nil, BitVec.add_zero] at hsettled
  exact hsettled

end

/-- **The client and the server agree.**  In every run for a file of at most `2 ^ 31 - 1` bytes:
the printed number is that of the printable characters of the file, the server has added the
occurrences of each character once it is idle again, the two are never blocked on each other, and
the run goes on until both are done, within a fixed number of steps. -/
theorem client_server_agree {ec es : Endian} {file : List UInt8} (hN : file.length ≤ 2 ^ 31 - 1)
    {s₀ : Server} (hpc : s₀.pc = .accept) (hrun : s₀.g_server_is_running = true)
    {h : List LinkEvent} {l : Link} (hr : Run (LinkStep ec es) (Link.start ec file s₀) h l) :
    (∀ v, l.client.pc = .done v → v.toNat = file.countP isPrintable) ∧
    (l.pending = false → Idle l.server → ∀ i, l.server.pcc_total i =
      s₀.pcc_total i + BitVec.ofNat 32 (file.count (charOf i))) ∧
    ¬l.BothBlocked ∧
    (l.Finished ∨ ∃ ev l', LinkStep ec es l ev l') ∧
    h.length ≤ 8 * file.length + 234 := by
  have hidle : Idle s₀ := .inr hpc
  have I := linkInv_run hN hpc hrun hr
  refine ⟨fun v hv => printed_count hN hidle I hv, fun hp hl i => totals_added hidle I hp hl i,
    not_bothBlocked hN hidle I, link_progress hN hidle I, ?_⟩
  have hbound := hr.length_add_rank_le (P := fun h l => LinkInv ec es file s₀ h l)
    (linkInv_start hpc hrun) (fun _ _ _ _ I hs => linkInv_step hN hidle I hs)
    (fun _ _ _ _ I hs => rank_step hidle I hs)
  have hstart : (Link.start ec file s₀).rank = 8 * file.length + 234 := by
    simp only [Link.rank, Link.start, Client.start, Client.rank, Client.unsent, Server.rank, hpc,
      List.length_nil, if_true]
    omega
  omega

/-- A file of two bytes, a printable one and a newline, is sent and counted. -/
theorem client_server_agree_two :
    ∃ h l, Run (LinkStep .little .big)
        (Link.start .little [65, 10] { Server.init with pc := .accept }) h l ∧
      (∃ v, l.client.pc = .done v ∧ v.toNat = 1) ∧ l.server.pcc_total 33 = 1 := by
  have hagree := fun h l (hr : Run (LinkStep .little .big)
      (Link.start .little [65, 10] { Server.init with pc := .accept }) h l) =>
    client_server_agree (by simp) rfl rfl hr
  obtain ⟨h, l, hr, ⟨v, hv⟩, hpc, hpending⟩ :=
    Run.exists_done (fun h l hr => (hagree h l hr).2.2.2.2) fun h l hr => (hagree h l hr).2.2.2.1
  obtain ⟨hcount, htotals, -⟩ := hagree h l hr
  exact ⟨h, l, hr, ⟨v, hv, hcount v hv⟩, htotals hpending (.inr hpc) 33⟩

end OSCourse.Pcc
