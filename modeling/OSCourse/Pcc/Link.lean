import OSCourse.Pcc.Client
import OSCourse.Pcc.Statistics

/-!
# One client and the server

The two programs run side by side, joined by two reliable byte channels.  No system call fails and
no signal arrives; every transfer moves at least one byte, and otherwise as many as it likes.

* `LinkStep` — a step of either party, with its effect on the channels and the file.
* `LinkInv`, `linkInv_run` — both parties are in runs of their own, and what one wrote is what the
  other read followed by the bytes in flight.
* `whole_stream` — a server that has read the announced number of bytes has read the file.
-/

set_option autoImplicit false

namespace OSCourse.Pcc

open Bytes Transition

/-- The two parties, what the client has not read of its file, and the bytes in flight; `pending`
tells that the server has not accepted the connection yet. -/
structure Link where
  client : Client
  unread : List UInt8
  toServer : List UInt8
  toClient : List UInt8
  pending : Bool
  server : Server

/-- After the `connect` of the client. -/
def Link.start (ec : Endian) (file : List UInt8) (server : Server) : Link :=
  ⟨Client.start ec file.length, file, [], [], true, server⟩

inductive LinkEvent where
  | client (ev : ClientEvent)
  | server (ev : ServerEvent)
  deriving DecidableEq, Repr

/-- A step of the client on a machine of order `ec` or of the server on one of order `es`. -/
inductive LinkStep (ec es : Endian) (l : Link) : LinkEvent → Link → Prop
  | clientInternal {c : Client} : l.client.next ec .internal = some c →
      LinkStep ec es l (.client .internal) { l with client := c }
  | clientSent {c : Client} {bytes : List UInt8} : bytes ≠ [] →
      l.client.next ec (.sent bytes) = some c →
      LinkStep ec es l (.client (.sent bytes))
        { l with client := c, toServer := l.toServer ++ bytes }
  | clientFileRead {c : Client} {bytes rest : List UInt8} : l.unread = bytes ++ rest →
      (bytes = [] → rest = []) → l.client.next ec (.fileRead bytes) = some c →
      LinkStep ec es l (.client (.fileRead bytes)) { l with client := c, unread := rest }
  | clientReceived {c : Client} {bytes rest : List UInt8} : bytes ≠ [] →
      l.toClient = bytes ++ rest → l.client.next ec (.received bytes) = some c →
      LinkStep ec es l (.client (.received bytes)) { l with client := c, toClient := rest }
  | serverInternal {s : Server} : l.server.next es .internal = some s →
      LinkStep ec es l (.server .internal) { l with server := s }
  | serverAccepted {s : Server} : l.pending = true → l.server.next es .accepted = some s →
      LinkStep ec es l (.server .accepted) { l with server := s, pending := false }
  | serverReceived {s : Server} {bytes rest : List UInt8} : bytes ≠ [] →
      l.toServer = bytes ++ rest → l.server.next es (.received bytes) = some s →
      LinkStep ec es l (.server (.received bytes)) { l with server := s, toServer := rest }
  | serverSent {s : Server} {bytes : List UInt8} : bytes ≠ [] →
      l.server.next es (.sent bytes) = some s →
      LinkStep ec es l (.server (.sent bytes))
        { l with server := s, toClient := l.toClient ++ bytes }

/-- The client's share of a history. -/
def clientPart : List LinkEvent → List ClientEvent
  | [] => []
  | .client ev :: h => ev :: clientPart h
  | .server _ :: h => clientPart h

/-- The server's share of a history. -/
def serverPart : List LinkEvent → List ServerEvent
  | [] => []
  | .client _ :: h => serverPart h
  | .server ev :: h => ev :: serverPart h

/-! ## The invariant -/

/-- The session was replied to with the count of the file, and no other session was. -/
structure Replied (file : List UInt8) (g : Session) (streams : List (List UInt8)) : Prop where
  streams : streams = [file]
  sent : g.sent = bigBytes 4 (printableOf file).toNat

/-- Where the server is on its way through the one session. -/
def Phase (file : List UInt8) (g : Session) (streams : List (List UInt8)) (pending : Bool) :
    ServerPc → Prop
  | .accept => (pending = true ∧ streams = []) ∨ (pending = false ∧ Replied file g streams)
  | .loop | .updateTotal _ | .closeDone | .clearProcessing =>
      pending = false ∧ Replied file g streams
  | .print _ | .exited | .closeFailed => False
  | .setProcessing | .readSize .. | .resetClient _ | .readTest .. | .readStream ..
  | .updateClient .. | .convert _ | .sendReply .. => pending = false ∧ streams = []

structure LinkInv (ec es : Endian) (file : List UInt8) (s₀ : Server) (h : List LinkEvent)
    (l : Link) : Prop where
  client : Run (ClientStep ec) (Client.start ec file.length) (clientPart h) l.client
  server : Run (ServerStep es) s₀ (serverPart h) l.server
  alive : l.client.pc ≠ .failed
  running : l.server.g_server_is_running = true
  unread : fileRead (clientPart h) ++ l.unread = file
  eof : .fileRead [] ∈ clientPart h → l.unread = []
  toServer : clientSent (clientPart h) = (sessionOf (serverPart h)).received ++ l.toServer
  toClient : (sessionOf (serverPart h)).sent = clientGot (clientPart h) ++ l.toClient
  pending : l.pending = true → serverPart h = []
  phase : Phase file (sessionOf (serverPart h)) (completed (serverPart h)) l.pending l.server.pc

section

variable {ec es : Endian} {file : List UInt8} {s₀ : Server} {h : List LinkEvent} {l l' : Link}

theorem LinkInv.clientInv (I : LinkInv ec es file s₀ h l) :
    ClientInv file.length (clientPart h) l.client := client_run I.client

theorem LinkInv.sessionInv (I : LinkInv ec es file s₀ h l) (hidle : Idle s₀) :
    SessionInv l.server (sessionOf (serverPart h)) := session_run hidle I.server

theorem header_ofBig (hN : file.length ≤ 2 ^ 31 - 1) : ofBig (headerOf file.length) = file.length := by
  rw [headerOf, ofBig_bigBytes, inputFileLength, BitVec.toNat_ofNat]
  omega

/-- A server that has read the announced number of bytes, all of them from a client, has read its
file. -/
theorem Tallied.stream_eq (hN : file.length ≤ 2 ^ 31 - 1) {size : BitVec 32} {client : Counters}
    {g : Session} (T : Tallied size client g) (hpre : g.received <+: headerOf file.length ++ file) :
    g.stream = file := by
  obtain ⟨rest, hrest⟩ := hpre
  obtain ⟨hlen, hsize⟩ := T.announced
  have hheader : (headerOf file.length).length = 4 := bigBytes_length ..
  have hhead : g.received.take 4 = headerOf file.length := by
    have htake := congrArg (List.take 4) hrest
    rwa [List.take_append_of_le_length hlen, ← hheader, List.take_left' rfl] at htake
  have hstream : g.stream ++ rest = file := by
    have hdrop := congrArg (List.drop 4) hrest
    rwa [List.drop_append_of_le_length hlen, ← hheader, List.drop_left' rfl] at hdrop
  have henough := T.enough
  rw [hsize, hhead, header_ofBig hN] at henough
  have hle := congrArg List.length hstream
  simp only [BitVec.toNat_ofNat, List.length_append] at henough hle
  have hnil : rest = [] := List.length_eq_zero_iff.1 (by omega)
  rwa [hnil, List.append_nil] at hstream

/-- **A server that has read the announced number of bytes has read the file.** -/
theorem whole_stream (hN : file.length ≤ 2 ^ 31 - 1) (I : LinkInv ec es file s₀ h l)
    {size : BitVec 32} {client : Counters}
    (T : Tallied size client (sessionOf (serverPart h))) :
    (sessionOf (serverPart h)).stream = file := by
  refine T.stream_eq hN ?_
  have hsent := clientSent_upto I.clientInv I.alive ⟨l.unread, I.unread⟩
  rw [I.toServer] at hsent
  exact (List.prefix_append _ _).trans hsent

theorem linkInv_start (hpc : s₀.pc = .accept) (hrun : s₀.g_server_is_running = true) :
    LinkInv ec es file s₀ [] (Link.start ec file s₀) where
  client := .nil
  server := .nil
  alive := by simp [Link.start, Client.start]
  running := hrun
  unread := rfl
  eof := by simp [clientPart]
  toServer := rfl
  toClient := rfl
  pending := fun _ => rfl
  phase := by simp [Link.start, hpc, Phase, serverPart, completed]

theorem phase_iff_of_working {g : Session} {streams : List (List UInt8)} {pending : Bool}
    {pc : ServerPc} (h : pc.working = true) :
    Phase file g streams pending pc ↔ pending = false ∧ streams = [] := by
  cases pc <;> first | exact Iff.rfl | cases h

theorem Works.phase {s s' : Server} {g g' : Session} {streams : List (List UInt8)} {pending : Bool}
    (w : Works s s') (P : Phase file g streams pending s.pc) :
    Phase file g' streams pending s'.pc :=
  (phase_iff_of_working w.after).2 ((phase_iff_of_working w.before).1 P)

theorem phase_internal {e : Endian} {s s' : Server} {g : Session} {streams : List (List UInt8)}
    {pending : Bool} (hrun : s.g_server_is_running = true)
    (P : Phase file g streams pending s.pc) (hs : s.internal e = some s') :
    Phase file g streams pending s'.pc ∧ s'.g_server_is_running = true := by
  cases moves_of_internal hs with
  | internal w => exact ⟨w.phase P, w.running.trans hrun⟩
  | enter hpc _ => rw [hpc] at P; exact ⟨.inr P, hrun⟩
  | leave hpc hstop => rw [hrun] at hstop; cases hstop
  | raise hpc => rw [hpc] at P; exact ⟨P, hrun⟩
  | add hpc hi => rw [hpc] at P; exact ⟨P, hrun⟩
  | added hpc hi => rw [hpc] at P; exact ⟨P, hrun⟩
  | closeFailed hpc => rw [hpc] at P; exact P.elim
  | closeDone hpc => rw [hpc] at P; exact ⟨P, hrun⟩
  | lower hpc => rw [hpc] at P; exact ⟨P, hrun⟩
  | print hpc => rw [hpc] at P; exact P.elim
  | printed hpc => rw [hpc] at P; exact P.elim

theorem phase_received {e : Endian} {s s' : Server} {g : Session} {streams : List (List UInt8)}
    {pending : Bool} {bytes : List UInt8} (hrun : s.g_server_is_running = true)
    (P : Phase file g streams pending s.pc) (hs : s.received e bytes = some s') :
    Phase file (g.after (.received bytes)) streams pending s'.pc ∧
      s'.g_server_is_running = true := by
  cases moves_of_received hs with
  | received w => exact ⟨w.phase P, w.running.trans hrun⟩

/-- The last byte of the reply ends the session, and the stream was the file. -/
theorem phase_sent (hN : file.length ≤ 2 ^ 31 - 1) (hidle : Idle s₀)
    (I : LinkInv ec es file s₀ h l) {s' : Server} {bytes : List UInt8}
    (hs : l.server.sent bytes = some s') :
    Phase file ((sessionOf (serverPart h)).after (.sent bytes))
        (completed (.sent bytes :: serverPart h)) l.pending s'.pc ∧
      s'.g_server_is_running = true := by
  have P := I.phase
  have S := I.sessionInv hidle
  have S' := session_sent S hs
  obtain ⟨data, total, hpc, T, hlen, hle, rfl⟩ := sent_cases S hs
  rw [hpc] at P
  refine ⟨?_, I.running⟩
  by_cases hlt : total + bytes.length < 4
  · have hmore : ¬(sessionOf (serverPart h)).sent.length + bytes.length = 4 := by omega
    simp only [hlt, if_true, completed, if_neg hmore]
    exact P
  · have hlast : (sessionOf (serverPart h)).sent.length + bytes.length = 4 := by omega
    have hstream := whole_stream hN I T
    simp only [hlt, if_false, completed, if_pos hlast]
    refine ⟨P.1, by rw [P.2, hstream], ?_⟩
    simp only [SessionInv, hlt, if_false] at S'
    rw [S'.2, replyOf]
    simp only [Session.stream, Session.after] at hstream ⊢
    rw [hstream]

/-- A connection that was not accepted has no server at work on it. -/
theorem phase_pending {g : Session} {streams : List (List UInt8)} {pending : Bool} {pc : ServerPc}
    (P : Phase file g streams pending pc) (hpc : pc ≠ .accept) : pending = false := by
  cases pc <;> first | exact absurd rfl hpc | exact P.1 | exact P.elim

theorem next_not_accept {e : Endian} {s s' : Server} {ev : ServerEvent} (hs : s.next e ev = some s')
    (hev : ev = .internal ∨ (∃ bytes, ev = .received bytes) ∨ ∃ bytes, ev = .sent bytes) :
    s.pc ≠ .accept := by
  intro hpc
  rcases hev with rfl | ⟨bytes, rfl⟩ | ⟨bytes, rfl⟩
  · simp [Server.next, Server.internal, hpc] at hs
  · simp [Server.next, Server.received, hpc] at hs
  · simp [Server.next, Server.sent, hpc] at hs

/-- **Every step of the link keeps its invariant.** -/
theorem linkInv_step (hN : file.length ≤ 2 ^ 31 - 1) (hidle : Idle s₀)
    (I : LinkInv ec es file s₀ h l) {ev : LinkEvent} (hs : LinkStep ec es l ev l') :
    LinkInv ec es file s₀ (ev :: h) l' := by
  cases hs with
  | clientInternal hc =>
    exact { I with client := I.client.step hc, alive := client_alive (by simp) hc,
                   eof := fun hm => I.eof (by simpa [clientPart] using hm) }
  | clientSent hne hc =>
    exact { I with client := I.client.step hc, alive := client_alive (by simp) hc,
                   eof := fun hm => I.eof (by simpa [clientPart] using hm),
                   toServer := by
                     simp only [clientPart, clientSent, serverPart]
                     rw [I.toServer, List.append_assoc] }
  | @clientFileRead c bytes rest hbytes hend hc =>
    exact { I with client := I.client.step hc, alive := client_alive (by simp) hc,
                   unread := by
                     simp only [clientPart, fileRead]
                     rw [List.append_assoc, ← hbytes, I.unread]
                   eof := fun hm => by
                     rcases List.mem_cons.1 hm with heq | hm
                     · cases heq; exact hend rfl
                     · have hnil := I.eof hm
                       rw [hbytes] at hnil
                       exact (List.append_eq_nil_iff.1 hnil).2 }
  | clientReceived hne hbytes hc =>
    exact { I with client := I.client.step hc, alive := client_alive (by simp) hc,
                   eof := fun hm => I.eof (by simpa [clientPart] using hm),
                   toClient := by
                     simp only [clientPart, clientGot, serverPart]
                     rw [I.toClient, hbytes, List.append_assoc] }
  | serverInternal hs =>
    have hfalse := phase_pending I.phase (next_not_accept hs (.inl rfl))
    have P := phase_internal I.running I.phase hs
    exact { I with server := I.server.step hs, running := P.2,
                   pending := fun hp => by rw [hfalse] at hp; cases hp
                   phase := P.1 }
  | serverAccepted hpending hs =>
    have hnil := I.pending hpending
    have hstart : (sessionOf (serverPart h)) = .empty := by rw [hnil]; rfl
    have hstreams : completed (serverPart h) = [] := by rw [hnil]; rfl
    have hserver := I.server.step hs
    cases moves_of_next hs with
    | accepted hpc =>
      exact { I with server := hserver,
                     toServer := by have hfifo := I.toServer; rw [hstart] at hfifo; exact hfifo
                     toClient := by have hfifo := I.toClient; rw [hstart] at hfifo; exact hfifo
                     pending := fun hp => by cases hp
                     phase := ⟨rfl, hstreams⟩ }
  | serverReceived hne hbytes hs =>
    have hfalse := phase_pending I.phase (next_not_accept hs (.inr (.inl ⟨_, rfl⟩)))
    have P := phase_received I.running I.phase hs
    exact { I with server := I.server.step hs, running := P.2,
                   toServer := by
                     simp only [clientPart, serverPart, sessionOf, Session.after]
                     rw [I.toServer, hbytes, List.append_assoc]
                   pending := fun hp => by rw [hfalse] at hp; cases hp
                   phase := P.1 }
  | serverSent hne hs =>
    have hfalse := phase_pending I.phase (next_not_accept hs (.inr (.inr ⟨_, rfl⟩)))
    have P := phase_sent hN hidle I hs
    exact { I with server := I.server.step hs, running := P.2,
                   toClient := by
                     simp only [clientPart, serverPart, sessionOf, Session.after]
                     rw [I.toClient, List.append_assoc]
                   pending := fun hp => by rw [hfalse] at hp; cases hp
                   phase := P.1 }

theorem linkInv_run (hN : file.length ≤ 2 ^ 31 - 1) (hpc : s₀.pc = .accept)
    (hrun : s₀.g_server_is_running = true)
    (hr : Run (LinkStep ec es) (Link.start ec file s₀) h l) : LinkInv ec es file s₀ h l :=
  hr.historyInvariant (P := fun h l => LinkInv ec es file s₀ h l) (linkInv_start hpc hrun)
    fun _ _ _ _ I hs => linkInv_step hN (.inr hpc) I hs

end

end OSCourse.Pcc
