import OSCourse.Pcc.Agreement
import OSCourse.Pcc.Interrupt

/-!
# Many clients and the server

Any number of clients have connected, each with a file of its own, and send while the server serves
one of them after the other.  Every system call of every party may fail, and SIGINT may come at any
time.

* `NetStep` — a step of one of the clients or of the server.
* `sessionWith` — what the server has read from and written to a client, `Served` — all of its reply.
* `NetInv`, `net_run` — no byte of one client gets to another one.
* `every_client_gets_its_own_count` — **a client that prints a number prints the count of its own
  file, and the statistics count the files of the clients that were served and nothing else**.
-/

set_option autoImplicit false

namespace OSCourse.Pcc

open Bytes Transition

/-- A client, what it has not read of its file, and the bytes in flight; `waiting` tells that the
server has not accepted its connection yet. -/
structure Peer where
  client : Client
  unread : List UInt8
  toServer : List UInt8
  toClient : List UInt8
  waiting : Bool

/-- `current` is the client whose connection was accepted last. -/
structure Network (ι : Type) where
  peer : ι → Peer
  current : Option ι
  server : Server

/-- After the `connect` of each client. -/
def Peer.start (e : Endian) (file : List UInt8) : Peer :=
  ⟨Client.start e file.length, file, [], [], true⟩

variable {ι : Type}

def Network.start (ec : ι → Endian) (file : ι → List UInt8) : Network ι :=
  ⟨fun i => Peer.start (ec i) (file i), none, Server.init⟩

/-- The server has closed the connection, or has exited. -/
def Network.Closed (u : Network ι) (i : ι) : Prop :=
  u.server.pc = .exited ∨
    (u.peer i).waiting = false ∧ ¬(u.current = some i ∧ u.server.pc.connected = true)

/-- A step of a client on a machine of order `e`.  `read` on the socket returns 0 when all that was
sent has been read and the connection is closed. -/
inductive PeerStep (e : Endian) (closed : Prop) (p : Peer) : ClientEvent → Peer → Prop
  | internal {c : Client} : p.client.next e .internal = some c →
      PeerStep e closed p .internal { p with client := c }
  | sent {c : Client} {bytes : List UInt8} : p.client.next e (.sent bytes) = some c →
      PeerStep e closed p (.sent bytes) { p with client := c, toServer := p.toServer ++ bytes }
  | fileRead {c : Client} {bytes rest : List UInt8} : p.unread = bytes ++ rest →
      (bytes = [] → rest = []) → p.client.next e (.fileRead bytes) = some c →
      PeerStep e closed p (.fileRead bytes) { p with client := c, unread := rest }
  | received {c : Client} {bytes rest : List UInt8} : p.toClient = bytes ++ rest →
      (bytes = [] → rest = [] ∧ closed) → p.client.next e (.received bytes) = some c →
      PeerStep e closed p (.received bytes) { p with client := c, toClient := rest }
  | failed {c : Client} : p.client.next e .callFailed = some c →
      PeerStep e closed p .callFailed { p with client := c }

inductive NetEvent (ι : Type) where
  | client (i : ι) (ev : ClientEvent)
  /-- the server accepts the connection of this client -/
  | accepted (i : ι)
  | server (ev : ServerEvent)

/-- The steps of the server that move no bytes and accept no connection. -/
def ServerEvent.isSilent : ServerEvent → Bool
  | .internal | .acceptFailed | .readFailed | .writeFailed | .sigint => true
  | .accepted | .received _ | .sent _ => false

section

variable [DecidableEq ι]

def Network.setPeer (u : Network ι) (i : ι) (p : Peer) : Network ι :=
  { u with peer := Function.update u.peer i p }

inductive NetStep (ec : ι → Endian) (es : Endian) (u : Network ι) : NetEvent ι → Network ι → Prop
  | client {i : ι} {ev : ClientEvent} {p : Peer} : PeerStep (ec i) (u.Closed i) (u.peer i) ev p →
      NetStep ec es u (.client i ev) (u.setPeer i p)
  | accepted {i : ι} {s : Server} : (u.peer i).waiting = true → u.server.next es .accepted = some s →
      NetStep ec es u (.accepted i)
        { u.setPeer i { u.peer i with waiting := false } with current := some i, server := s }
  | received {i : ι} {s : Server} {bytes rest : List UInt8} : u.current = some i →
      (u.peer i).toServer = bytes ++ rest → u.server.next es (.received bytes) = some s →
      NetStep ec es u (.server (.received bytes))
        { u.setPeer i { u.peer i with toServer := rest } with server := s }
  | sent {i : ι} {s : Server} {bytes : List UInt8} : u.current = some i →
      u.server.next es (.sent bytes) = some s →
      NetStep ec es u (.server (.sent bytes))
        { u.setPeer i { u.peer i with toClient := (u.peer i).toClient ++ bytes } with server := s }
  | silent {ev : ServerEvent} {s : Server} : ev.isSilent = true → u.server.next es ev = some s →
      NetStep ec es u (.server ev) { u with server := s }

/-! ## Shares of a history -/

/-- The share of a client. -/
def eventsOf (i : ι) : List (NetEvent ι) → List ClientEvent
  | [] => []
  | .client j ev :: h => if j = i then ev :: eventsOf i h else eventsOf i h
  | .accepted _ :: h => eventsOf i h
  | .server _ :: h => eventsOf i h

/-- The server's share. -/
def serverEvents : List (NetEvent ι) → List ServerEvent
  | [] => []
  | .client _ _ :: h => serverEvents h
  | .accepted _ :: h => .accepted :: serverEvents h
  | .server ev :: h => ev :: serverEvents h

/-- The client whose connection was accepted last. -/
def lastAccepted : List (NetEvent ι) → Option ι
  | [] => none
  | .accepted i :: _ => some i
  | .client _ _ :: h => lastAccepted h
  | .server _ :: h => lastAccepted h

/-- What the server has read from and written to a client. -/
def sessionWith (i : ι) : List (NetEvent ι) → Session
  | [] => .empty
  | .client _ _ :: h => sessionWith i h
  | .accepted _ :: h => sessionWith i h
  | .server ev :: h =>
    if lastAccepted h = some i then (sessionWith i h).after ev else sessionWith i h

/-- All four bytes of the reply to the client have been written. -/
def Served (h : List (NetEvent ι)) (i : ι) : Prop := (sessionWith i h).sent.length = 4

instance (h : List (NetEvent ι)) (i : ι) : Decidable (Served h i) :=
  inferInstanceAs (Decidable (_ = _))

/-- The clients that have been served, latest first. -/
def servedClients : List (NetEvent ι) → List ι
  | [] => []
  | .client _ _ :: h => servedClients h
  | .accepted _ :: h => servedClients h
  | .server (.sent bytes) :: h =>
    if (sessionOf (serverEvents h)).sent.length + bytes.length = 4 then
      (lastAccepted h).toList ++ servedClients h
    else servedClients h
  | .server _ :: h => servedClients h

end

/-! ## What the parties know of each other -/

/-- **A client writes nothing but its header and its file**, whether it gives up or not. -/
theorem clientSent_prefix {e : Endian} {file : List UInt8} {h : List ClientEvent} {c : Client}
    (hr : Run (ClientStep e) (Client.start e file.length) h c) (hread : fileRead h <+: file) :
    clientSent h <+: headerOf file.length ++ file := by
  induction hr with
  | nil => exact List.nil_prefix
  | @step h c c' ev hr hs ih =>
    by_cases hfail : c'.pc = .failed
    · -- the step in which the client gives up writes nothing
      have hev : ev = .callFailed := by
        by_contra hne
        exact client_alive hne hs hfail
      subst hev
      exact ih hread
    · exact clientSent_upto (client_run (hr.step hs)) hfail hread

/-! ## The invariant -/

section

variable [DecidableEq ι] {ec : ι → Endian} {es : Endian} {file : ι → List UInt8}
  {h : List (NetEvent ι)} {u u' : Network ι} {i j : ι}

@[simp] theorem setPeer_self (u : Network ι) (i : ι) (p : Peer) : (u.setPeer i p).peer i = p :=
  Function.update_self ..

theorem setPeer_of_ne (u : Network ι) (p : Peer) (hj : j ≠ i) : (u.setPeer i p).peer j = u.peer j :=
  Function.update_of_ne hj ..

/-- What one client, the bytes in flight on its connection and its session have to do with each
other. -/
structure PeerInv (e : Endian) (file : List UInt8) (h : List ClientEvent) (g : Session) (p : Peer) :
    Prop where
  client : Run (ClientStep e) (Client.start e file.length) h p.client
  unread : fileRead h ++ p.unread = file
  toServer : clientSent h = g.received ++ p.toServer
  toClient : g.sent = clientGot h ++ p.toClient

structure NetInv (ec : ι → Endian) (es : Endian) (file : ι → List UInt8) (h : List (NetEvent ι))
    (u : Network ι) : Prop where
  peer : ∀ i, PeerInv (ec i) (file i) (eventsOf i h) (sessionWith i h) (u.peer i)
  server : Run (ServerStep es) Server.init (serverEvents h) u.server
  current : u.current = lastAccepted h
  waiting : ∀ i, (u.peer i).waiting = true → sessionWith i h = .empty ∧ lastAccepted h ≠ some i
  session : ∀ i, lastAccepted h = some i → sessionWith i h = sessionOf (serverEvents h)
  reply : ∀ i, (sessionWith i h).sent.length < 4 ∨
    (i ∈ servedClients h ∧ (sessionWith i h).sent = bigBytes 4 (printableOf (file i)).toNat)
  served : ∀ i ∈ servedClients h, Served h i
  nodup : (servedClients h).Nodup
  completed : completed (serverEvents h) = (servedClients h).map file

theorem netInv_start : NetInv ec es file [] (Network.start ec file) where
  peer i := ⟨.nil, rfl, rfl, rfl⟩
  server := .nil
  current := rfl
  waiting i _ := ⟨rfl, by simp [lastAccepted]⟩
  session i h := by cases h
  reply i := .inl (by simp [sessionWith, Session.empty])
  served i h := by cases h
  nodup := List.nodup_nil
  completed := rfl

theorem peerInv_step {e : Endian} {file : List UInt8} {h : List ClientEvent} {g : Session}
    {p p' : Peer} {ev : ClientEvent} {closed : Prop} (I : PeerInv e file h g p)
    (hs : PeerStep e closed p ev p') : PeerInv e file (ev :: h) g p' := by
  cases hs with
  | internal hc => exact { I with client := I.client.step hc }
  | failed hc => exact { I with client := I.client.step hc }
  | sent hc =>
    exact { I with client := I.client.step hc,
                   toServer := by rw [clientSent, I.toServer, List.append_assoc] }
  | fileRead hbytes _ hc =>
    exact { I with client := I.client.step hc,
                   unread := by rw [fileRead, List.append_assoc, ← hbytes, I.unread] }
  | received hbytes _ hc =>
    exact { I with client := I.client.step hc,
                   toClient := by rw [clientGot, I.toClient, hbytes, List.append_assoc] }

/-- A step that leaves the clients served as they are. -/
theorem NetInv.congr {ev : NetEvent ι} (I : NetInv ec es file h u)
    (hpeer : ∀ i, PeerInv (ec i) (file i) (eventsOf i (ev :: h)) (sessionWith i (ev :: h)) (u'.peer i))
    (hserver : Run (ServerStep es) Server.init (serverEvents (ev :: h)) u'.server)
    (hcurrent : u'.current = lastAccepted (ev :: h))
    (hwaiting : ∀ i, (u'.peer i).waiting = true →
      sessionWith i (ev :: h) = .empty ∧ lastAccepted (ev :: h) ≠ some i)
    (hsession : ∀ i, lastAccepted (ev :: h) = some i →
      sessionWith i (ev :: h) = sessionOf (serverEvents (ev :: h)))
    (hsent : ∀ i, (sessionWith i (ev :: h)).sent = (sessionWith i h).sent)
    (hserved : servedClients (ev :: h) = servedClients h)
    (hcompleted : Pcc.completed (serverEvents (ev :: h)) = Pcc.completed (serverEvents h)) :
    NetInv ec es file (ev :: h) u' where
  peer := hpeer
  server := hserver
  current := hcurrent
  waiting := hwaiting
  session := hsession
  reply i := by
    rw [hsent, hserved]
    exact I.reply i
  served i hi := by
    rw [Served, hsent]
    exact I.served i (hserved ▸ hi)
  nodup := hserved ▸ I.nodup
  completed := by rw [hcompleted, hserved, I.completed]

theorem peerStep_waiting {e : Endian} {p p' : Peer} {ev : ClientEvent} {closed : Prop}
    (hs : PeerStep e closed p ev p') : p'.waiting = p.waiting := by
  cases hs <;> rfl

theorem netInv_client {ev : ClientEvent} {p : Peer} (I : NetInv ec es file h u)
    (hs : PeerStep (ec i) (u.Closed i) (u.peer i) ev p) :
    NetInv ec es file (.client i ev :: h) (u.setPeer i p) := by
  refine I.congr (fun j => ?_) I.server I.current (fun j hj => I.waiting j ?_) I.session
    (fun _ => rfl) rfl rfl
  · rcases eq_or_ne j i with rfl | hne
    · rw [setPeer_self, eventsOf, if_pos rfl]
      exact peerInv_step (I.peer j) hs
    · rw [setPeer_of_ne u p hne, eventsOf, if_neg hne.symm]
      exact I.peer j
  · rcases eq_or_ne j i with rfl | hne
    · rw [setPeer_self, peerStep_waiting hs] at hj
      exact hj
    · rwa [setPeer_of_ne u p hne] at hj

theorem netInv_accepted {s : Server} (I : NetInv ec es file h u) (hwait : (u.peer i).waiting = true)
    (hs : u.server.next es .accepted = some s) :
    NetInv ec es file (.accepted i :: h)
      { u.setPeer i { u.peer i with waiting := false } with current := some i, server := s } := by
  refine I.congr (fun j => ?_) (I.server.step hs) rfl (fun j hj => ?_) (fun j hj => ?_) (fun _ => rfl)
    rfl rfl
  · show PeerInv _ _ _ _ ((u.setPeer i _).peer j)
    rcases eq_or_ne j i with rfl | hne
    · rw [setPeer_self]
      exact { I.peer j with }
    · rw [setPeer_of_ne u _ hne]
      exact I.peer j
  · have hj : ((u.setPeer i { u.peer i with waiting := false }).peer j).waiting = true := hj
    rcases eq_or_ne j i with rfl | hne
    · rw [setPeer_self] at hj
      cases hj
    · rw [setPeer_of_ne u _ hne] at hj
      exact ⟨(I.waiting j hj).1, fun h => hne (Option.some.inj h).symm⟩
  · cases Option.some.inj hj
    exact (I.waiting i hwait).1

theorem sessionWith_other (ev : ServerEvent) (hcur : lastAccepted h = some i) (hj : j ≠ i) :
    sessionWith j (.server ev :: h) = sessionWith j h := by
  rw [sessionWith, if_neg]
  intro hcur'
  exact hj (Option.some.inj (hcur'.symm.trans hcur))

theorem sessionWith_current (ev : ServerEvent) (hcur : lastAccepted h = some i) :
    sessionWith i (.server ev :: h) = (sessionWith i h).after ev := if_pos hcur

/-- What a transfer of the server does to the connections. -/
theorem NetInv.transfer (I : NetInv ec es file h u) {ev : ServerEvent} {p : Peer}
    (hcur : lastAccepted h = some i)
    (hp : PeerInv (ec i) (file i) (eventsOf i h) ((sessionWith i h).after ev) p) (j : ι) :
    PeerInv (ec j) (file j) (eventsOf j (.server ev :: h)) (sessionWith j (.server ev :: h))
      ((u.setPeer i p).peer j) := by
  rcases eq_or_ne j i with rfl | hne
  · rw [setPeer_self, sessionWith_current ev hcur]
    exact hp
  · rw [setPeer_of_ne u p hne, sessionWith_other ev hcur hne]
    exact I.peer j

/-- No client waits whose connection is the current one. -/
theorem NetInv.still_waiting (I : NetInv ec es file h u) {ev : ServerEvent} {p : Peer}
    (hcur : lastAccepted h = some i) (hp : p.waiting = (u.peer i).waiting)
    (hj : ((u.setPeer i p).peer j).waiting = true) :
    sessionWith j (.server ev :: h) = .empty ∧ lastAccepted h ≠ some j := by
  rcases eq_or_ne j i with rfl | hne
  · rw [setPeer_self, hp] at hj
    exact absurd hcur (I.waiting j hj).2
  · rw [setPeer_of_ne u p hne] at hj
    rw [sessionWith_other ev hcur hne]
    exact I.waiting j hj

theorem NetInv.session_step (I : NetInv ec es file h u) {ev : ServerEvent} (hj : lastAccepted h = some j) :
    sessionWith j (.server ev :: h) = sessionOf (serverEvents (.server ev :: h)) := by
  rw [sessionWith_current ev hj, I.session j hj]
  rfl

theorem netInv_received {s : Server} {bytes rest : List UInt8} (I : NetInv ec es file h u)
    (hcur : u.current = some i) (hbytes : (u.peer i).toServer = bytes ++ rest)
    (hs : u.server.next es (.received bytes) = some s) :
    NetInv ec es file (.server (.received bytes) :: h)
      { u.setPeer i { u.peer i with toServer := rest } with server := s } := by
  have hcur : lastAccepted h = some i := I.current.symm.trans hcur
  have P := I.peer i
  refine I.congr (I.transfer hcur { P with toServer := ?_ }) (I.server.step hs) I.current
    (fun j hj => I.still_waiting (p := { u.peer i with toServer := rest }) hcur rfl hj)
    (fun j hj => I.session_step hj) (fun j => ?_) rfl rfl
  · rw [P.toServer, hbytes, ← List.append_assoc]
    rfl
  · rcases eq_or_ne j i with rfl | hne
    · rw [sessionWith_current _ hcur]
      rfl
    · rw [sessionWith_other _ hcur hne]

theorem netInv_silent {ev : ServerEvent} {s : Server} (I : NetInv ec es file h u)
    (hev : ev.isSilent = true) (hs : u.server.next es ev = some s) :
    NetInv ec es file (.server ev :: h) { u with server := s } := by
  have hafter : ∀ g : Session, g.after ev = g := by
    intro g
    cases ev <;> first | rfl | cases hev
  have hwith : ∀ j, sessionWith j (.server ev :: h) = sessionWith j h := by
    intro j
    rw [sessionWith, hafter, ite_self]
  refine I.congr (fun j => ?_) (I.server.step hs) I.current (fun j hj => ?_)
    (fun j hj => I.session_step hj) (fun j => ?_) ?_ ?_
  · rw [hwith]
    exact I.peer j
  · rw [hwith]
    exact I.waiting j hj
  · rw [hwith]
  · cases ev <;> first | rfl | cases hev
  · cases ev <;> first | rfl | cases hev

theorem sent_ne_nil {s s' : Server} {bytes : List UInt8} (hs : s.sent bytes = some s') :
    bytes ≠ [] := by
  unfold Server.sent at hs
  split at hs
  · split at hs
    · rename_i hb
      exact hb.1
    · cases hs
  · cases hs

/-- The reply to a client of which all bytes were read is the count of its file. -/
theorem NetInv.stream_eq (I : NetInv ec es file h u) (hN : (file i).length ≤ 2 ^ 31 - 1)
    (hcur : lastAccepted h = some i) {size : BitVec 32} {client : Counters}
    (T : Tallied size client (sessionOf (serverEvents h))) :
    (sessionOf (serverEvents h)).stream = file i := by
  have P := I.peer i
  refine T.stream_eq hN ?_
  rw [← I.session i hcur]
  have hsent := clientSent_prefix P.client ⟨(u.peer i).unread, P.unread⟩
  rw [P.toServer] at hsent
  exact (List.prefix_append _ _).trans hsent

/-- **The last byte of a reply serves the current client**, no other byte serves anyone. -/
theorem netInv_sent {s : Server} {bytes : List UInt8} (hN : ∀ i, (file i).length ≤ 2 ^ 31 - 1)
    (I : NetInv ec es file h u) (hcur : u.current = some i)
    (hs : u.server.next es (.sent bytes) = some s) :
    NetInv ec es file (.server (.sent bytes) :: h)
      { u.setPeer i { u.peer i with toClient := (u.peer i).toClient ++ bytes } with server := s } := by
  have hcur : lastAccepted h = some i := I.current.symm.trans hcur
  have P := I.peer i
  have S := session_run (.inl rfl) I.server
  have hs : u.server.sent bytes = some s := hs
  have S' := session_sent S hs
  have hne := sent_ne_nil hs
  obtain ⟨data, total, -, T, hlen, hle, rfl⟩ := sent_cases S hs
  have hwith := I.session i hcur
  have hself : (sessionWith i (.server (.sent bytes) :: h)).sent =
      (sessionOf (serverEvents h)).sent ++ bytes := by
    rw [sessionWith_current _ hcur, hwith]
    rfl
  have hother : ∀ j, j ≠ i → sessionWith j (.server (.sent bytes) :: h) = sessionWith j h :=
    fun j hj => sessionWith_other _ hcur hj
  have hpeer : ∀ j, PeerInv (ec j) (file j) (eventsOf j (.server (.sent bytes) :: h))
      (sessionWith j (.server (.sent bytes) :: h))
      ((u.setPeer i { u.peer i with toClient := (u.peer i).toClient ++ bytes }).peer j) := by
    refine I.transfer hcur { P with toClient := ?_ }
    show (sessionWith i h).sent ++ bytes = _
    rw [P.toClient, List.append_assoc]
  have hwaiting : ∀ j, ((u.setPeer i { u.peer i with
      toClient := (u.peer i).toClient ++ bytes }).peer j).waiting = true →
      sessionWith j (.server (.sent bytes) :: h) = .empty ∧ lastAccepted h ≠ some j :=
    fun j hj => I.still_waiting (p := { u.peer i with
      toClient := (u.peer i).toClient ++ bytes }) hcur rfl hj
  by_cases hlast : (sessionOf (serverEvents h)).sent.length + bytes.length = 4
  · have hmore : ¬total + bytes.length < 4 := by omega
    have hserved : servedClients (.server (.sent bytes) :: h) = i :: servedClients h := by
      rw [servedClients, if_pos hlast, hcur]
      rfl
    have hstream := I.stream_eq (hN i) hcur T
    have hnew : i ∉ servedClients h := by
      intro hmem
      have hfour : (sessionWith i h).sent.length = 4 := I.served i hmem
      rw [hwith] at hfour
      exact hne (List.length_eq_zero_iff.1 (by omega))
    have hreply : (sessionOf (serverEvents h)).sent ++ bytes =
        bigBytes 4 (printableOf (file i)).toNat := by
      simp only [SessionInv, hmore, if_false] at S'
      rw [← hstream]
      exact S'.2
    refine ⟨hpeer, I.server.step hs, I.current, hwaiting, fun j hj => I.session_step hj, fun j => ?_,
      fun j hj => ?_, ?_, ?_⟩
    · rcases eq_or_ne j i with rfl | hj
      · refine .inr ⟨?_, hself.trans hreply⟩
        rw [hserved]
        exact List.mem_cons_self ..
      · rw [hother j hj, hserved]
        exact (I.reply j).imp_right fun hr => ⟨List.mem_cons_of_mem i hr.1, hr.2⟩
    · rw [hserved] at hj
      rcases eq_or_ne j i with rfl | hji
      · rw [Served, hself, List.length_append]
        exact hlast
      · rw [Served, hother j hji]
        exact I.served j ((List.mem_cons.1 hj).resolve_left hji)
    · rw [hserved]
      exact List.nodup_cons.2 ⟨hnew, I.nodup⟩
    · rw [hserved, serverEvents, Pcc.completed, if_pos hlast, I.completed, hstream]
      rfl
  · have hserved : servedClients (.server (.sent bytes) :: h) = servedClients h := by
      rw [servedClients, if_neg hlast]
    refine ⟨hpeer, I.server.step hs, I.current, hwaiting, fun j hj => I.session_step hj, fun j => ?_,
      fun j hj => ?_, ?_, ?_⟩
    · rcases eq_or_ne j i with rfl | hj
      · left
        rw [hself, List.length_append]
        omega
      · rw [hother j hj, hserved]
        exact I.reply j
    · rw [hserved] at hj
      rcases eq_or_ne j i with rfl | hji
      · -- a client that has been served is not written to any more
        have hfour : (sessionWith j h).sent.length = 4 := I.served j hj
        rw [hwith] at hfour
        exact absurd (List.length_eq_zero_iff.1 (by omega)) hne
      · rw [Served, hother j hji]
        exact I.served j hj
    · rw [hserved]
      exact I.nodup
    · rw [hserved, serverEvents, Pcc.completed, if_neg hlast]
      exact I.completed

/-- **Every step of the network keeps the connections apart.** -/
theorem netInv_step (hN : ∀ i, (file i).length ≤ 2 ^ 31 - 1) (I : NetInv ec es file h u)
    {ev : NetEvent ι} (hs : NetStep ec es u ev u') : NetInv ec es file (ev :: h) u' := by
  cases hs with
  | client hs => exact netInv_client I hs
  | accepted hwait hs => exact netInv_accepted I hwait hs
  | received hcur hbytes hs => exact netInv_received I hcur hbytes hs
  | sent hcur hs => exact netInv_sent hN I hcur hs
  | silent hev hs => exact netInv_silent I hev hs

theorem net_run (hN : ∀ i, (file i).length ≤ 2 ^ 31 - 1)
    (hr : Run (NetStep ec es) (Network.start ec file) h u) : NetInv ec es file h u :=
  hr.historyInvariant netInv_start fun _ _ _ _ I hs => netInv_step hN I hs

/-! ## What the clients and the statistics say -/

/-- A client that prints has got the whole reply of its own session. -/
theorem NetInv.printed (I : NetInv ec es file h u) (hN : (file i).length ≤ 2 ^ 31 - 1)
    {v : BitVec 32} (hv : (u.peer i).client.pc = .done v) :
    v.toNat = (file i).countP isPrintable ∧ Served h i := by
  have P := I.peer i
  have T := (client_run P.client).transfer
  rw [hv] at T
  obtain ⟨-, hlen, hv⟩ := T
  have hfifo := P.toClient
  rcases I.reply i with hshort | ⟨hserved, hall⟩
  · rw [hfifo, List.length_append] at hshort
    omega
  · have hlens := congrArg List.length (hall.symm.trans hfifo)
    rw [bigBytes_length, List.length_append] at hlens
    have hnil : (u.peer i).toClient = [] := List.length_eq_zero_iff.1 (by omega)
    rw [hnil, List.append_nil, hall] at hfifo
    have hle : (file i).countP isPrintable ≤ (file i).length := List.countP_le_length
    refine ⟨?_, I.served i hserved⟩
    rw [hv, ← hfifo, ofBig_bigBytes, printableOf, BitVec.toNat_ofNat, BitVec.toNat_ofNat]
    omega

theorem NetInv.mem_served (I : NetInv ec es file h u) : i ∈ servedClients h ↔ Served h i := by
  refine ⟨I.served i, fun hserved => ?_⟩
  have hserved : (sessionWith i h).sent.length = 4 := hserved
  rcases I.reply i with hshort | hall
  · omega
  · exact hall.1

/-- The completed sessions are those of the clients that have been served. -/
theorem NetInv.sumOf_completed [Fintype ι] (I : NetInv ec es file h u)
    (k : Fin PRINABLE_CHARS_AMOUNT) : sumOf (Pcc.completed (serverEvents h)) k =
      BitVec.ofNat 32 (∑ i with Served h i, (file i).count (charOf k)) := by
  have hfinset : (Finset.univ.filter fun i => Served h i) = (servedClients h).toFinset := by
    ext i
    rw [Finset.mem_filter, List.mem_toFinset, I.mem_served]
    exact and_iff_right (Finset.mem_univ i)
  rw [sumOf, I.completed, List.map_map, hfinset, List.sum_toFinset _ I.nodup]
  rfl

/-- **Every client gets the count of its own file, and the statistics count the clients that were
served.**  Any number of clients have connected and send at the same time, each a file of at most
`2 ^ 31 - 1` bytes; system calls of the clients and of the server may fail, and SIGINT may come at any
time.  A client that prints a number prints the number of printable characters of its file, and has
been served; and whatever counter the server prints, in the handler or after its loop, is the number
of occurrences in the files of the clients that were served until then. -/
theorem every_client_gets_its_own_count [Fintype ι] (hN : ∀ i, (file i).length ≤ 2 ^ 31 - 1)
    (hr : Run (NetStep ec es) (Network.start ec file) h u) :
    (∀ i v, (u.peer i).client.pc = .done v → v.toNat = (file i).countP isPrintable ∧ Served h i) ∧
      ∀ ev s k v, ServerStep es u.server ev s → u.server.printed ev k = some v →
        v = BitVec.ofNat 32 (∑ i with Served h i, (file i).count (charOf k)) := by
  have I := net_run hN hr
  refine ⟨fun i v hv => I.printed (hN i) hv, fun ev s k v _ hv => ?_⟩
  rw [printed_settled I.server hv]
  exact I.sumOf_completed k

end

end OSCourse.Pcc
