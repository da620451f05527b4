import OSCourse.Pcc.Network

/-!
# All clients are served

No system call fails and no signal comes.  Seen from one client the network is the link of
`Pcc.Link`: while it waits for the server the server does not touch it, and after its session no more.

* `Tracks` — the connection of each client is in a run of `LinkStep` of its own.
* `network_progress`, `network_rank_step` — until all are done some step is possible, and each step
  lowers a rank.
* `all_clients_are_served` — **every run ends, with every client served and the totals those of all
  files**.
-/

set_option autoImplicit false

namespace OSCourse.Pcc

open Bytes Transition

variable {ι : Type}

/-- The events of a network in which every call succeeds and moves at least one byte. -/
def NetEvent.Healthy : NetEvent ι → Prop
  | .client _ (.sent bytes) | .client _ (.received bytes) => bytes ≠ []
  | .client _ .callFailed => False
  | .client _ .internal | .client _ (.fileRead _) | .accepted _ => True
  | .server .internal | .server (.received _) | .server (.sent _) => True
  | .server .accepted | .server .acceptFailed | .server .readFailed | .server .writeFailed
  | .server .sigint => False

/-- What a client and a server see of each other. -/
def Network.link (u : Network ι) (i : ι) (s : Server) : Link :=
  ⟨(u.peer i).client, (u.peer i).unread, (u.peer i).toServer, (u.peer i).toClient,
    (u.peer i).waiting, s⟩

def HealthyStep [DecidableEq ι] (ec : ι → Endian) (es : Endian) (u : Network ι) (ev : NetEvent ι)
    (u' : Network ι) : Prop :=
  NetStep ec es u ev u' ∧ ev.Healthy

variable {ec : ι → Endian} {es : Endian} {file : ι → List UInt8} {h : List (NetEvent ι)}
  {u u' : Network ι} {i j : ι}

/-! ## The link of each client -/

/-- The client and the server `s` are in a run of their own. -/
def InLink (ec : ι → Endian) (es : Endian) (file : ι → List UInt8) (u : Network ι) (i : ι)
    (s : Server) : Prop :=
  ∃ s₀ h, s₀.pc = .accept ∧ s₀.g_server_is_running = true ∧
    Run (LinkStep (ec i) es) (Link.start (ec i) (file i) s₀) h (u.link i s)

structure Tracks (ec : ι → Endian) (es : Endian) (file : ι → List UInt8) (u : Network ι) : Prop where
  running : u.server.g_server_is_running = true
  waiting : ∀ i, (u.peer i).waiting = true → u.current ≠ some i ∧
    ∀ s, s.pc = .accept → s.g_server_is_running = true → InLink ec es file u i s
  current : ∀ i, u.current = some i → (u.peer i).waiting = false ∧ InLink ec es file u i u.server
  past : ∀ i, (u.peer i).waiting = false → u.current ≠ some i →
    ∃ s, s.pc = .accept ∧ InLink ec es file u i s
  first : u.current = none → Idle u.server

theorem InLink.inv {s : Server} (hN : (file i).length ≤ 2 ^ 31 - 1) (L : InLink ec es file u i s) :
    ∃ s₀ h, Idle s₀ ∧ LinkInv (ec i) es (file i) s₀ h (u.link i s) := by
  obtain ⟨s₀, h, hpc, hrun, hr⟩ := L
  exact ⟨s₀, h, .inr hpc, linkInv_run hN hpc hrun hr⟩

theorem InLink.step {s s' : Server} {ev : LinkEvent} (L : InLink ec es file u i s)
    (hs : LinkStep (ec i) es (u.link i s) ev (u'.link i s')) : InLink ec es file u' i s' := by
  obtain ⟨s₀, h, hpc, hrun, hr⟩ := L
  exact ⟨s₀, ev :: h, hpc, hrun, hr.step hs⟩

theorem InLink.congr {s : Server} (L : InLink ec es file u i s) (hpeer : u'.peer i = u.peer i) :
    InLink ec es file u' i s := by
  obtain ⟨s₀, h, hpc, hrun, hr⟩ := L
  refine ⟨s₀, h, hpc, hrun, ?_⟩
  rw [Network.link, hpeer]
  exact hr

theorem tracks_start : Tracks ec es file (Network.start ec file) where
  running := rfl
  waiting i _ := ⟨by simp [Network.start], fun s hpc hrun => ⟨s, [], hpc, hrun, .nil⟩⟩
  current i h := by cases h
  past i h := by cases h
  first _ := .inl rfl

/-- A server in `accept` does nothing on a connection that it has accepted. -/
theorem not_serverStep {s : Server} {ev : ServerEvent} {l : Link} (hpc : s.pc = .accept)
    (hwait : (u.peer i).waiting = false) :
    ¬LinkStep (ec i) es (u.link i s) (.server ev) l := by
  intro hs
  cases hs with
  | serverInternal hs => exact next_not_accept hs (.inl rfl) hpc
  | serverAccepted hpending hs => cases hwait.symm.trans hpending
  | serverReceived _ _ hs => exact next_not_accept hs (.inr (.inl ⟨_, rfl⟩)) hpc
  | serverSent _ hs => exact next_not_accept hs (.inr (.inr ⟨_, rfl⟩)) hpc

theorem server_rank_congr {s s' : Server} (hpc : s.pc = s'.pc) (pending : Bool) (r : Nat) :
    s.rank pending r = s'.rank pending r := by
  unfold Server.rank
  rw [hpc]

theorem link_rank_congr {s s' : Server} (hpc : s.pc = s'.pc) (hpeer : u.peer i = u'.peer i) :
    (u.link i s).rank = (u'.link i s').rank := by
  rw [Link.rank, Link.rank, Network.link, Network.link, hpeer]
  exact congrArg _ (server_rank_congr hpc _ _)

section

variable [DecidableEq ι]

/-- What a client does in the network, it does in its link, whatever the server does. -/
theorem linkStep_of_peerStep {closed : Prop} {ev : ClientEvent} {p : Peer}
    (hs : PeerStep (ec i) closed (u.peer i) ev p) (hev : (NetEvent.client i ev).Healthy) (s : Server) :
    LinkStep (ec i) es (u.link i s) (.client ev) ((u.setPeer i p).link i s) := by
  rw [Network.link, Network.link, setPeer_self]
  cases hs with
  | internal hc => exact .clientInternal hc
  | sent hc => exact .clientSent hev hc
  | fileRead hbytes hend hc => exact .clientFileRead hbytes hend hc
  | received hbytes _ hc => exact .clientReceived hev hbytes hc
  | failed hc => cases hev

theorem tracks_client {ev : ClientEvent} {p : Peer} (T : Tracks ec es file u)
    (hs : PeerStep (ec i) (u.Closed i) (u.peer i) ev p) (hev : (NetEvent.client i ev).Healthy) :
    Tracks ec es file (u.setPeer i p) := by
  have hlink : ∀ j s, InLink ec es file u j s → InLink ec es file (u.setPeer i p) j s := by
    intro j s L
    rcases eq_or_ne j i with rfl | hne
    · exact L.step (linkStep_of_peerStep hs hev s)
    · exact L.congr (setPeer_of_ne u p hne)
  have hwaiting : ∀ j, ((u.setPeer i p).peer j).waiting = (u.peer j).waiting := by
    intro j
    rcases eq_or_ne j i with rfl | hne
    · rw [setPeer_self, peerStep_waiting hs]
    · rw [setPeer_of_ne u p hne]
  refine ⟨T.running, fun j hj => ?_, fun j hj => ?_, fun j hj hcur => ?_, T.first⟩
  · obtain ⟨hne, hall⟩ := T.waiting j ((hwaiting j).symm.trans hj)
    exact ⟨hne, fun s hpc hrun => hlink j s (hall s hpc hrun)⟩
  · obtain ⟨hwait, L⟩ := T.current j hj
    exact ⟨(hwaiting j).trans hwait, hlink j _ L⟩
  · obtain ⟨s, hpc, L⟩ := T.past j ((hwaiting j).symm.trans hj) hcur
    exact ⟨s, hpc, hlink j s L⟩

theorem tracks_accepted {s : Server} (T : Tracks ec es file u) (hwait : (u.peer i).waiting = true)
    (hs : u.server.next es .accepted = some s) :
    Tracks ec es file
      { u.setPeer i { u.peer i with waiting := false } with current := some i, server := s } := by
  obtain ⟨hpc, hrun⟩ : u.server.pc = .accept ∧ s.g_server_is_running = true := by
    cases moves_of_next hs with
    | accepted hpc => exact ⟨hpc, T.running⟩
  have hother : ∀ j, j ≠ i → (u.setPeer i { u.peer i with waiting := false }).peer j = u.peer j :=
    fun j hj => setPeer_of_ne u _ hj
  refine ⟨hrun, fun j hj => ?_, fun j hj => ?_, fun j hj hcur => ?_, by simp⟩
  · have hj : ((u.setPeer i { u.peer i with waiting := false }).peer j).waiting = true := hj
    have hne : j ≠ i := by
      rintro rfl
      rw [setPeer_self] at hj
      cases hj
    rw [hother j hne] at hj
    obtain ⟨-, hall⟩ := T.waiting j hj
    exact ⟨fun heq => hne (Option.some.inj heq).symm, fun s hpc hrun =>
      (hall s hpc hrun).congr (hother j hne)⟩
  · cases Option.some.inj hj
    have L := (T.waiting i hwait).2 u.server hpc T.running
    have hlink : LinkStep (ec i) es (u.link i u.server) _ _ := .serverAccepted hwait hs
    refine ⟨?_, L.step (by simpa [Network.link] using hlink)⟩
    show ((u.setPeer i _).peer i).waiting = false
    rw [setPeer_self]
  · have hne : j ≠ i := fun heq => hcur (congrArg some heq.symm)
    have hj : ((u.setPeer i { u.peer i with waiting := false }).peer j).waiting = false := hj
    rw [hother j hne] at hj
    by_cases hold : u.current = some j
    · exact ⟨u.server, hpc, ((T.current j hold).2).congr (hother j hne)⟩
    · obtain ⟨s, hpc, L⟩ := T.past j hj hold
      exact ⟨s, hpc, L.congr (hother j hne)⟩

/-- A step of the server on the current connection. -/
theorem Tracks.serve (hN : ∀ i, (file i).length ≤ 2 ^ 31 - 1) (T : Tracks ec es file u)
    (hcur : u.current = some i) {s : Server} {p : Peer} {ev : ServerEvent}
    (hp : p.waiting = (u.peer i).waiting)
    (hs : LinkStep (ec i) es (u.link i u.server) (.server ev)
      (Network.link { u.setPeer i p with server := s } i s)) :
    Tracks ec es file { u.setPeer i p with server := s } := by
  obtain ⟨hwait, L⟩ := T.current i hcur
  have L' : InLink ec es file { u.setPeer i p with server := s } i s := L.step hs
  have hother : ∀ j, j ≠ i → (u.setPeer i p).peer j = u.peer j := fun j hj => setPeer_of_ne u p hj
  obtain ⟨s₀, h, -, I⟩ := L'.inv (hN i)
  refine ⟨I.running, fun j hj => ?_, fun j hj => ?_, fun j hj hne => ?_, fun hnone => ?_⟩
  · have hj : ((u.setPeer i p).peer j).waiting = true := hj
    have hne : j ≠ i := by
      rintro rfl
      rw [setPeer_self, hp, hwait] at hj
      cases hj
    rw [hother j hne] at hj
    obtain ⟨hcur', hall⟩ := T.waiting j hj
    exact ⟨hcur', fun s hpc hrun => (hall s hpc hrun).congr (hother j hne)⟩
  · cases Option.some.inj (hcur.symm.trans hj)
    refine ⟨?_, L'⟩
    show ((u.setPeer i p).peer i).waiting = false
    rw [setPeer_self, hp, hwait]
  · have hne' : j ≠ i := fun heq => hne (heq ▸ hcur)
    have hj : ((u.setPeer i p).peer j).waiting = false := hj
    rw [hother j hne'] at hj
    obtain ⟨s, hpc, L⟩ := T.past j hj hne
    exact ⟨s, hpc, L.congr (hother j hne')⟩
  · cases hcur.symm.trans hnone

theorem received_ne_nil {e : Endian} {s s' : Server} {bytes : List UInt8}
    (hs : s.received e bytes = some s') : bytes ≠ [] := by
  unfold Server.received at hs
  split at hs
  · split at hs
    · rename_i hb
      exact hb.1
    · cases hs
  · split at hs
    · rename_i hb
      exact hb.1
    · cases hs
  · cases hs

/-- A step of the server without effect on a connection. -/
theorem Tracks.internal (hN : ∀ i, (file i).length ≤ 2 ^ 31 - 1) (T : Tracks ec es file u)
    {s : Server} (hs : u.server.next es .internal = some s) :
    Tracks ec es file { u with server := s } := by
  rcases Option.eq_none_or_eq_some u.current with hcur | ⟨i, hcur⟩
  · have hloop : u.server.pc = .loop := by
      rcases T.first hcur with hpc | hpc
      · exact hpc
      · exact absurd hpc (next_not_accept hs (.inl rfl))
    cases moves_of_internal hs with
    | enter hpc hrun =>
      refine ⟨hrun, T.waiting, fun i hi => ?_, T.past, fun _ => .inr rfl⟩
      cases hcur.symm.trans hi
    | leave hpc hstop => cases hstop.symm.trans T.running
    | internal w =>
      have hwork := w.before
      rw [hloop] at hwork
      cases hwork
    | raise hpc | add hpc _ | added hpc _ | closeFailed hpc | closeDone hpc | lower hpc | print hpc
    | printed hpc => cases hloop.symm.trans hpc
  · have hlink : LinkStep (ec i) es (u.link i u.server) _ _ := .serverInternal hs
    have hu : u.setPeer i (u.peer i) = u := by
      rw [Network.setPeer, Function.update_eq_self]
    have T' := T.serve hN hcur (p := u.peer i) rfl (by simpa [Network.link, hu] using hlink)
    rw [hu] at T'
    exact T'

theorem tracks_step (hN : ∀ i, (file i).length ≤ 2 ^ 31 - 1) (T : Tracks ec es file u)
    {ev : NetEvent ι} (hs : HealthyStep ec es u ev u') : Tracks ec es file u' := by
  obtain ⟨hs, hev⟩ := hs
  cases hs with
  | client hs => exact tracks_client T hs hev
  | accepted hwait hs => exact tracks_accepted T hwait hs
  | @received i s bytes rest hcur hbytes hs =>
    have hlink : LinkStep (ec i) es (u.link i u.server) _ _ :=
      .serverReceived (received_ne_nil hs) hbytes hs
    exact T.serve hN hcur (p := { u.peer i with toServer := rest }) rfl
      (by simpa [Network.link] using hlink)
  | @sent i s bytes hcur hs =>
    have hlink : LinkStep (ec i) es (u.link i u.server) _ _ := .serverSent (sent_ne_nil hs) hs
    exact T.serve hN hcur (p := { u.peer i with toClient := (u.peer i).toClient ++ bytes }) rfl
      (by simpa [Network.link] using hlink)
  | @silent ev s hsil hs =>
    cases ev with
    | internal => exact T.internal hN hs
    | received bytes | sent bytes => cases hsil
    | accepted | acceptFailed | readFailed | writeFailed | sigint => cases hev

theorem tracks_run (hN : ∀ i, (file i).length ≤ 2 ^ 31 - 1)
    (hr : Run (HealthyStep ec es) (Network.start ec file) h u) : Tracks ec es file u :=
  hr.invariant tracks_start fun _ _ _ T hs => tracks_step hN T hs

/-! ## Progress -/

/-- What a client can do in its link, it can do in the network. -/
theorem netStep_of_clientStep {s : Server} {ev : ClientEvent} {l : Link}
    (hs : LinkStep (ec i) es (u.link i s) (.client ev) l) :
    ∃ ev u', HealthyStep ec es u ev u' := by
  cases hs with
  | clientInternal hc => exact ⟨_, _, .client (.internal hc), trivial⟩
  | clientSent hne hc => exact ⟨_, _, .client (.sent hc), hne⟩
  | clientFileRead hbytes hend hc => exact ⟨_, _, .client (.fileRead hbytes hend hc), trivial⟩
  | clientReceived hne hbytes hc =>
    exact ⟨_, _, .client (.received hbytes (fun h => absurd h hne) hc), hne⟩

/-- What the server can do on the current connection, it can do in the network. -/
theorem netStep_of_serverStep {ev : ServerEvent} {l : Link} (hcur : u.current = some i)
    (hwait : (u.peer i).waiting = false)
    (hs : LinkStep (ec i) es (u.link i u.server) (.server ev) l) :
    ∃ ev u', HealthyStep ec es u ev u' := by
  cases hs with
  | serverInternal hs => exact ⟨_, _, .silent rfl hs, trivial⟩
  | serverAccepted hpending hs => cases hwait.symm.trans hpending
  | serverReceived _ hbytes hs => exact ⟨_, _, .received hcur hbytes hs, trivial⟩
  | serverSent _ hs => exact ⟨_, _, .sent hcur hs, trivial⟩

/-- All clients have returned, and the server waits for more. -/
def Network.AllDone (u : Network ι) : Prop :=
  u.server.pc = .accept ∧ ∀ i, ∃ v, (u.peer i).client.pc = .done v

/-- **Until all clients are done some step is possible.** -/
theorem network_progress (hN : ∀ i, (file i).length ≤ 2 ^ 31 - 1) (T : Tracks ec es file u) :
    u.AllDone ∨ ∃ ev u', HealthyStep ec es u ev u' := by
  refine or_iff_not_imp_right.2 fun hstuck => ?_
  have haccept : u.server.pc = .accept := by
    rcases Option.eq_none_or_eq_some u.current with hcur | ⟨i, hcur⟩
    · refine (T.first hcur).resolve_left fun hpc => hstuck ?_
      have hs : u.server.next es .internal = some { u.server with pc := .accept } := by
        simp only [Server.next, Server.internal, hpc, T.running, if_true]
      exact ⟨_, _, .silent rfl hs, trivial⟩
    · obtain ⟨hwait, L⟩ := T.current i hcur
      obtain ⟨s₀, h, hidle, I⟩ := L.inv (hN i)
      rcases link_progress (hN i) hidle I with hfin | ⟨ev, l, hs⟩
      · exact hfin.2.1
      · cases ev with
        | client ev => exact absurd (netStep_of_clientStep hs) hstuck
        | server ev => exact absurd (netStep_of_serverStep hcur hwait hs) hstuck
  refine ⟨haccept, fun i => ?_⟩
  have hwait : (u.peer i).waiting = false := by
    by_contra hwait
    have hs : u.server.next es .accepted = some { u.server with pc := .setProcessing } := by
      simp only [Server.next, haccept, if_true]
    exact hstuck ⟨_, _, .accepted (Bool.eq_true_of_not_eq_false hwait) hs, trivial⟩
  obtain ⟨s, hpc, L⟩ : ∃ s, s.pc = .accept ∧ InLink ec es file u i s := by
    by_cases hcur : u.current = some i
    · exact ⟨u.server, haccept, (T.current i hcur).2⟩
    · exact T.past i hwait hcur
  obtain ⟨s₀, h, hidle, I⟩ := L.inv (hN i)
  rcases link_progress (hN i) hidle I with hfin | ⟨ev, l, hs⟩
  · exact hfin.1
  · cases ev with
    | client ev => exact absurd (netStep_of_clientStep hs) hstuck
    | server ev => exact absurd hs (not_serverStep hpc hwait)

/-! ## Every run ends -/

/-- A server between two sessions. -/
def idleServer : Server := { Server.init with pc := .accept }

/-- The server as the client `i` sees it. -/
def Network.serverOf (u : Network ι) (i : ι) : Server :=
  if u.current = some i then u.server else idleServer

/-- A bound on the steps that are still taken. -/
def Network.rank [Fintype ι] (u : Network ι) : Nat :=
  ∑ i, (u.link i (u.serverOf i)).rank + if u.current = none ∧ u.server.pc = .loop then 1 else 0

theorem Tracks.inLink (T : Tracks ec es file u) (i : ι) :
    ∃ s, s.pc = (u.serverOf i).pc ∧ InLink ec es file u i s := by
  rw [Network.serverOf]
  by_cases hcur : u.current = some i
  · rw [if_pos hcur]
    exact ⟨u.server, rfl, (T.current i hcur).2⟩
  · rw [if_neg hcur]
    cases hwait : (u.peer i).waiting with
    | true => exact ⟨idleServer, rfl, (T.waiting i hwait).2 idleServer rfl rfl⟩
    | false => exact T.past i hwait hcur

/-- A step that one client sees lowers the rank. -/
theorem network_rank_lt [Fintype ι] (hN : (file i).length ≤ 2 ^ 31 - 1) {s s' : Server} {ev : LinkEvent}
    (L : InLink ec es file u i s) (hs : LinkStep (ec i) es (u.link i s) ev (u'.link i s'))
    (hpc : s.pc = (u.serverOf i).pc) (hpc' : s'.pc = (u'.serverOf i).pc)
    (hother : ∀ j, j ≠ i → u'.peer j = u.peer j ∧ (u'.serverOf j).pc = (u.serverOf j).pc)
    (hlast : (u'.current = none ∧ u'.server.pc = .loop) → u.current = none ∧ u.server.pc = .loop) :
    u'.rank < u.rank := by
  obtain ⟨s₀, h, hidle, I⟩ := L.inv hN
  have hlt := rank_step hidle I hs
  rw [link_rank_congr hpc rfl, link_rank_congr hpc' rfl] at hlt
  have hsum : ∑ j, (u'.link j (u'.serverOf j)).rank < ∑ j, (u.link j (u.serverOf j)).rank := by
    refine Finset.sum_lt_sum (fun j _ => ?_) ⟨i, Finset.mem_univ i, hlt⟩
    rcases eq_or_ne j i with rfl | hj
    · exact hlt.le
    · exact (link_rank_congr (hother j hj).2 (hother j hj).1).le
  rw [Network.rank, Network.rank]
  split
  · rename_i h
    rw [if_pos (hlast h)]
    exact Nat.add_lt_add_right hsum 1
  · exact Nat.lt_of_lt_of_le hsum (Nat.le_add_right ..)

/-- A step of the server on the current connection lowers the rank. -/
theorem rank_serve [Fintype ι] (hN : (file i).length ≤ 2 ^ 31 - 1) (T : Tracks ec es file u)
    (hcur : u.current = some i) {s : Server} {p : Peer} {ev : LinkEvent}
    (hs : LinkStep (ec i) es (u.link i u.server) ev
      (Network.link { u.setPeer i p with server := s } i s)) :
    Network.rank { u.setPeer i p with server := s } < u.rank := by
  refine network_rank_lt hN (T.current i hcur).2 hs ?_ ?_ (fun j hj => ⟨setPeer_of_ne u p hj, ?_⟩) ?_
  · rw [Network.serverOf, if_pos hcur]
  · show s.pc = (if u.current = some i then s else idleServer).pc
    rw [if_pos hcur]
  · have hne : u.current ≠ some j := fun h => hj (Option.some.inj (h.symm.trans hcur))
    show (if u.current = some j then s else idleServer).pc = _
    rw [if_neg hne, Network.serverOf, if_neg hne]
  · rintro ⟨hnone, -⟩
    cases hcur.symm.trans hnone

/-- The first step of the server, before any connection. -/
theorem rank_first [Fintype ι] (T : Tracks ec es file u) (hcur : u.current = none) {s : Server}
    (hs : u.server.next es .internal = some s) :
    Network.rank { u with server := s } < u.rank := by
  have hloop : u.server.pc = .loop :=
    (T.first hcur).resolve_right fun hpc => next_not_accept hs (.inl rfl) hpc
  have haccept : s.pc = .accept := by
    simp only [Server.next, Server.internal, hloop, T.running, if_true] at hs
    cases hs
    rfl
  have hsame : ∀ j, (Network.link { u with server := s } j
      (Network.serverOf { u with server := s } j)).rank = (u.link j (u.serverOf j)).rank := by
    intro j
    have hne : u.current ≠ some j := fun h => by cases hcur.symm.trans h
    refine link_rank_congr ?_ rfl
    rw [Network.serverOf, Network.serverOf, if_neg hne, if_neg hne]
  rw [Network.rank, Network.rank, Finset.sum_congr rfl fun j _ => hsame j, if_neg,
    if_pos ⟨hcur, hloop⟩]
  · exact Nat.lt_succ_self _
  · rintro ⟨-, h⟩
    cases haccept.symm.trans h

/-- **Every step lowers the rank.** -/
theorem network_rank_step [Fintype ι] (hN : ∀ i, (file i).length ≤ 2 ^ 31 - 1)
    (T : Tracks ec es file u) {ev : NetEvent ι} (hs : HealthyStep ec es u ev u') :
    u'.rank < u.rank := by
  obtain ⟨hs, hev⟩ := hs
  cases hs with
  | @client i ev p hs =>
    obtain ⟨s, hpc, L⟩ := T.inLink i
    exact network_rank_lt (hN i) L (linkStep_of_peerStep hs hev s) hpc hpc
      (fun j hj => ⟨setPeer_of_ne u p hj, rfl⟩) id
  | @accepted i s hwait hs =>
    obtain ⟨hcur, hall⟩ := T.waiting i hwait
    have hpc : u.server.pc = .accept := by
      cases moves_of_next hs with
      | accepted hpc => exact hpc
    have hlink : LinkStep (ec i) es (u.link i u.server) _ _ := .serverAccepted hwait hs
    have hlink : LinkStep (ec i) es (u.link i u.server) (.server .accepted)
        (Network.link { u.setPeer i { u.peer i with waiting := false } with
          server := s, current := some i } i s) := by
      simpa [Network.link] using hlink
    refine network_rank_lt (hN i) (hall u.server hpc T.running) hlink ?_ ?_
      (fun j hj => ⟨setPeer_of_ne u _ hj, ?_⟩) ?_
    · rw [Network.serverOf, if_neg hcur]
      exact hpc
    · show s.pc = (if some i = some i then s else idleServer).pc
      rw [if_pos rfl]
    · have hne : ¬some i = some j := fun h => hj (Option.some.inj h).symm
      show (if some i = some j then s else idleServer).pc = _
      rw [if_neg hne, Network.serverOf]
      split
      · exact hpc.symm
      · rfl
    · rintro ⟨hnone, -⟩
      cases hnone
  | @received i s bytes rest hcur hbytes hs =>
    have hlink : LinkStep (ec i) es (u.link i u.server) _ _ :=
      .serverReceived (received_ne_nil hs) hbytes hs
    exact rank_serve (hN i) T hcur (by simpa [Network.link] using hlink)
  | @sent i s bytes hcur hs =>
    have hlink : LinkStep (ec i) es (u.link i u.server) _ _ := .serverSent (sent_ne_nil hs) hs
    exact rank_serve (hN i) T hcur (by simpa [Network.link] using hlink)
  | @silent ev s hsil hs =>
    cases ev with
    | internal =>
      rcases Option.eq_none_or_eq_some u.current with hcur | ⟨i, hcur⟩
      · exact rank_first T hcur hs
      · have hlink : LinkStep (ec i) es (u.link i u.server) _ _ := .serverInternal hs
        have hu : u.setPeer i (u.peer i) = u := by
          rw [Network.setPeer, Function.update_eq_self]
        have hlt := rank_serve (hN i) T hcur (s := s) (p := u.peer i)
          (by simpa [Network.link, hu] using hlink)
        rw [hu] at hlt
        exact hlt
    | received bytes | sent bytes => cases hsil
    | accepted | acceptFailed | readFailed | writeFailed | sigint => cases hev

/-! ## The result -/

theorem rank_start [Fintype ι] :
    (Network.start ec file).rank = ∑ i, (8 * (file i).length + 234) + 1 := by
  have hlink : ∀ i, ((Network.start ec file).link i ((Network.start ec file).serverOf i)).rank =
      8 * (file i).length + 234 := by
    intro i
    have hserver : (Network.start ec file).serverOf i = idleServer := if_neg (by simp [Network.start])
    rw [hserver]
    simp only [Link.rank, Network.link, Network.start, Peer.start, Client.start, Client.rank,
      Client.unsent, Server.rank, idleServer, List.length_nil, if_true]
    omega
  rw [Network.rank, Finset.sum_congr rfl fun i _ => hlink i, if_pos ⟨rfl, rfl⟩]

/-- No run is longer than a bound on the lengths of the files. -/
theorem healthy_bound [Fintype ι] (hN : ∀ i, (file i).length ≤ 2 ^ 31 - 1)
    (hr : Run (HealthyStep ec es) (Network.start ec file) h u) :
    h.length ≤ ∑ i, (8 * (file i).length + 234) + 1 := by
  have hbound := hr.length_add_rank_le (P := fun _ u => Tracks ec es file u) tracks_start
    (fun _ _ _ _ T hs => tracks_step hN T hs) (fun _ _ _ _ T hs => network_rank_step hN T hs)
  rw [rank_start] at hbound
  omega

/-- **All clients are served.**  As long as system calls succeed and no signal comes, the clients that
have connected, each with a file of at most `2 ^ 31 - 1` bytes, and the server never block each other:
every run can be continued until each client has printed the count of its file and the server, with
the occurrences in all files in its totals, waits for more; and no run is longer than a bound on the
lengths of the files. -/
theorem all_clients_are_served [Fintype ι] (hN : ∀ i, (file i).length ≤ 2 ^ 31 - 1)
    (hr : Run (HealthyStep ec es) (Network.start ec file) h u) :
    h.length ≤ ∑ i, (8 * (file i).length + 234) + 1 ∧
      ((∃ ev u', HealthyStep ec es u ev u') ∨
        u.server.pc = .accept ∧
          (∀ i, ∃ v, (u.peer i).client.pc = .done v ∧ v.toNat = (file i).countP isPrintable) ∧
          ∀ k, u.server.pcc_total k = BitVec.ofNat 32 (∑ i, (file i).count (charOf k))) := by
  constructor
  · exact healthy_bound hN hr
  · refine (network_progress hN (tracks_run hN hr)).symm.imp_right fun ⟨hpc, hdone⟩ => ?_
    have I := net_run hN (hr.mono fun _ _ _ hs => hs.1)
    refine ⟨hpc, fun i => ?_, fun k => ?_⟩
    · obtain ⟨v, hv⟩ := hdone i
      exact ⟨v, hv, (I.printed (hN i) hv).1⟩
    · have hserved : (Finset.univ.filter fun i => Served h i) = Finset.univ := by
        refine Finset.filter_true_of_mem fun i _ => ?_
        obtain ⟨v, hv⟩ := hdone i
        exact (I.printed (hN i) hv).2
      rw [total_of_completed I.server (by rw [hpc]; rfl), I.sumOf_completed, hserved]

/-- The files of two clients. -/
def twoFiles (i : Fin 2) : List UInt8 := if i = 0 then [65] else [66, 10]

theorem twoFiles_length : ∀ i, (twoFiles i).length ≤ 2 ^ 31 - 1 := by decide

theorem all_clients_are_served_two :
    ∃ h u, Run (HealthyStep (fun _ => .little) .big) (Network.start (fun _ => .little) twoFiles) h u ∧
      (∀ i, ∃ v, (u.peer i).client.pc = .done v ∧ v.toNat = (twoFiles i).countP isPrintable) ∧
      u.server.pcc_total 33 = 1 := by
  have hserved := fun h u (hr : Run (HealthyStep (fun _ => .little) .big)
      (Network.start (fun _ => .little) twoFiles) h u) => all_clients_are_served twoFiles_length hr
  obtain ⟨h, u, hr, -, hdone, htotals⟩ :=
    Run.exists_done (fun h u hr => (hserved h u hr).1) fun h u hr => (hserved h u hr).2.symm
  exact ⟨h, u, hr, hdone, htotals 33⟩

/-! ### The statistics when all have been served -/

omit [DecidableEq ι] in
theorem outcome_of_healthy (hh : ∀ ev ∈ h, ev.Healthy) : lastOutcome (serverEvents h) ≠ .failed := by
  induction h with
  | nil =>
    show Outcome.none ≠ .failed
    decide
  | cons ev h ih =>
    have ih := ih fun ev hmem => hh ev (List.mem_cons_of_mem _ hmem)
    have hev := hh ev (List.mem_cons_self ..)
    cases ev with
    | client i ev => exact ih
    | accepted i =>
      show Outcome.unfinished ≠ .failed
      decide
    | server ev =>
      cases ev with
      | internal | received bytes => exact ih
      | sent bytes =>
        rw [serverEvents, lastOutcome]
        split
        · decide
        · exact ih
      | accepted | acceptFailed | readFailed | writeFailed | sigint => exact hev.elim

/-- A server that has met no failure has its flag down in `accept`. -/
theorem flag_of_healthy (hN : ∀ i, (file i).length ≤ 2 ^ 31 - 1)
    (hr : Run (HealthyStep ec es) (Network.start ec file) h u) (hpc : u.server.pc = .accept) :
    u.server.g_server_is_processing = false := by
  have hh : ∀ ev ∈ h, ev.Healthy := by
    refine hr.historyInvariant (P := fun h _ => ∀ ev ∈ h, ev.Healthy) nofun ?_
    intro h u ev u' ih hs b hb
    rcases List.mem_cons.1 hb with rfl | hb
    · exact hs.2
    · exact ih b hb
  have F := follows_run (net_run hN (hr.mono fun _ _ _ hs => hs.1)).server
  unfold Follows at F
  simp only [hpc] at F
  exact Bool.eq_false_iff.2 fun hup => outcome_of_healthy hh (F.2.1 hup)

/-- Both clients have been served when SIGINT comes. -/
theorem every_client_gets_its_own_count_two :
    ∃ h u, Run (NetStep (fun _ => .little) .big) (Network.start (fun _ => .little) twoFiles) h u ∧
      (∀ i, ∃ v, (u.peer i).client.pc = .done v ∧ v.toNat = (twoFiles i).countP isPrintable) ∧
      u.server.printed .sigint 33 = some 1 := by
  have hprogress := fun h u (hr : Run (HealthyStep (fun _ => .little) .big)
      (Network.start (fun _ => .little) twoFiles) h u) =>
    network_progress twoFiles_length (tracks_run twoFiles_length hr)
  obtain ⟨h, u, hr, hpc, hdone⟩ :=
    Run.exists_done (fun h u hr => healthy_bound twoFiles_length hr) hprogress
  have hr' := hr.mono fun _ _ _ hs => hs.1
  obtain ⟨hprints, hstatistics⟩ := every_client_gets_its_own_count twoFiles_length hr'
  have hflag := flag_of_healthy twoFiles_length hr hpc
  have hstep : ServerStep .big u.server .sigint (sigIntHandler u.server) := by
    simp [ServerStep, Server.next, hpc]
  have hprinted : u.server.printed .sigint 33 = some (u.server.pcc_total 33) := by
    simp [Server.printed, hflag]
  refine ⟨h, u, hr', fun i => ?_, ?_⟩
  · obtain ⟨v, hv⟩ := hdone i
    exact ⟨v, hv, (hprints i v hv).1⟩
  · have hall : (Finset.univ.filter fun i => Served h i) = Finset.univ := by
      refine Finset.filter_true_of_mem fun i _ => ?_
      obtain ⟨v, hv⟩ := hdone i
      exact (hprints i v hv).2
    rw [hprinted, hstatistics _ _ _ _ hstep hprinted, hall]
    rfl

end

end OSCourse.Pcc
