import OSCourse.Pcc.Statistics

/-!
# SIGINT

The handler stops the server at once unless `g_server_is_processing` is up, which is to tell whether
a client is being served.

* `Outcome` — how the last accepted session of a history ended, if it did.
* `Follows` — what the program point and the flag say about it; `follows_run`.
* `idle_server_obeys` — **a server in `accept` stops at once iff no session was accepted yet or the
  last one was replied to**.
* `exit_cases` — the three ways to end.
* `sigint_abandons_none` — **no client is abandoned in a run iff SIGINT never comes between `accept`
  and the raising of the flag**.
-/

set_option autoImplicit false

namespace OSCourse.Pcc

open Bytes Transition

/-- The end of the last accepted session. -/
inductive Outcome where
  /-- none was accepted -/
  | none
  | unfinished
  /-- a call on the connection failed -/
  | failed
  /-- the reply was written completely -/
  | replied
  deriving DecidableEq, Repr

def lastOutcome : List ServerEvent → Outcome
  | [] => .none
  | .accepted :: _ => .unfinished
  | .readFailed :: _ => .failed
  | .writeFailed :: _ => .failed
  | .sent bytes :: h =>
    if (sessionOf h).sent.length + bytes.length = 4 then .replied else lastOutcome h
  | _ :: h => lastOutcome h

/-- What the program point and the flag say about the last session. -/
def Follows (s : Server) (o : Outcome) : Prop :=
  match s.pc with
  | .loop | .accept | .print _ => o ≠ .unfinished ∧ (s.g_server_is_processing = true ↔ o = .failed)
  | .setProcessing => o = .unfinished
  | .readSize .. | .resetClient _ | .readTest .. | .readStream .. | .updateClient .. | .convert _
  | .sendReply .. => s.g_server_is_processing = true ∧ o = .unfinished
  | .updateTotal _ | .closeDone | .clearProcessing =>
    s.g_server_is_processing = true ∧ o = .replied
  | .closeFailed => s.g_server_is_processing = true ∧ o = .failed
  | .exited => True

variable {e : Endian} {s s' : Server} {ev : ServerEvent} {h : List ServerEvent} {o : Outcome}

theorem follows_iff_of_working (h : s.pc.working = true) :
    Follows s o ↔ s.g_server_is_processing = true ∧ o = .unfinished := by
  unfold Follows
  cases hpc : s.pc <;> first | exact Iff.rfl | (rw [hpc] at h; cases h)

theorem Works.follows (w : Works s s') (F : Follows s o) : Follows s' o := by
  rw [follows_iff_of_working w.after, w.processing]
  exact (follows_iff_of_working w.before).1 F

theorem follows_internal (F : Follows s o) (hs : s.internal e = some s') : Follows s' o := by
  have hF := F
  unfold Follows at F
  cases moves_of_internal hs with
  | internal w => exact w.follows hF
  | enter hpc hrun => simp only [hpc] at F; exact F
  | leave hpc hrun => simp only [hpc] at F; exact F
  | raise hpc => simp only [hpc] at F; exact ⟨rfl, F⟩
  | add hpc hi => simp only [hpc] at F; exact F
  | added hpc hi => simp only [hpc] at F; exact F
  | closeFailed hpc =>
    simp only [hpc] at F
    obtain ⟨hflag, rfl⟩ := F
    exact ⟨nofun, iff_of_true hflag rfl⟩
  | closeDone hpc => simp only [hpc] at F; exact F
  | lower hpc =>
    simp only [hpc] at F
    obtain ⟨-, rfl⟩ := F
    exact ⟨nofun, iff_of_false Bool.false_ne_true nofun⟩
  | print hpc => simp only [hpc] at F; exact F
  | printed hpc => trivial

/-- The handler, where it does not exit, changes nothing that matters here. -/
theorem follows_sigint (F : Follows s o) : Follows (sigIntHandler s) o := by
  unfold sigIntHandler
  split
  · exact F
  · trivial

/-- **Every step keeps the flag and the program point in line with the last session.** -/
theorem follows_step (I : SessionInv s (sessionOf h)) (F : Follows s (lastOutcome h))
    (hs : ServerStep e s ev s') : Follows s' (lastOutcome (ev :: h)) := by
  cases ev with
  | internal => exact follows_internal F hs
  | received bytes =>
    cases moves_of_received hs with
    | received w => exact w.follows F
  | readFailed =>
    cases moves_of_next hs with
    | readFailed size hwork => exact ⟨((follows_iff_of_working hwork).1 F).1, rfl⟩
  | writeFailed =>
    cases moves_of_next hs with
    | writeFailed hwork => exact ⟨((follows_iff_of_working hwork).1 F).1, rfl⟩
  | sent bytes =>
    obtain ⟨data, total, hpc, -, hlen, hle, rfl⟩ := sent_cases I hs
    unfold Follows at F
    simp only [hpc] at F
    rw [lastOutcome]
    by_cases hlast : (sessionOf h).sent.length + bytes.length = 4
    · have hdone : ¬total + bytes.length < 4 := by omega
      rw [if_pos hlast, if_neg hdone]
      exact ⟨F.1, rfl⟩
    · have hmore : total + bytes.length < 4 := by omega
      rw [if_neg hlast, if_pos hmore]
      exact F
  | sigint =>
    cases moves_of_next hs with
    | sigint hpc => exact follows_sigint F
  | accepted =>
    cases moves_of_next hs with
    | accepted hpc => rfl
  | acceptFailed =>
    cases moves_of_next hs with
    | acceptFailed hpc => trivial

theorem follows_run (hr : Run (ServerStep e) Server.init h s) : Follows s (lastOutcome h) := by
  induction hr with
  | nil => exact ⟨nofun, iff_of_false Bool.false_ne_true nofun⟩
  | step hr hs ih => exact follows_step (session_run (.inl rfl) hr) ih hs

/-! ## An idle server -/

/-- **A server that waits in `accept` obeys SIGINT at once** — its flag is down, and the handler
prints the totals and exits — iff no session was accepted yet or the reply to the last one was
written completely. -/
theorem idle_server_obeys (hr : Run (ServerStep e) Server.init h s) (hpc : s.pc = .accept) :
    (s.g_server_is_processing = false ∧ ∃ s', ServerStep e s .sigint s' ∧ s'.pc = .exited ∧
      ∀ i, s.printed .sigint i = some (sumOf (completed h) i)) ↔
      lastOutcome h = .none ∨ lastOutcome h = .replied := by
  have F := follows_run hr
  unfold Follows at F
  simp only [hpc] at F
  obtain ⟨hfinished, hflag⟩ := F
  constructor
  · rintro ⟨hdown, -⟩
    rw [hdown] at hflag
    cases ho : lastOutcome h with
    | none => exact .inl rfl
    | replied => exact .inr rfl
    | unfinished => exact absurd ho hfinished
    | failed => exact absurd (hflag.2 ho) Bool.false_ne_true
  · intro ho
    have hdown : s.g_server_is_processing = false := by
      apply Bool.eq_false_iff.2
      intro hup
      rcases ho with ho | ho <;> rw [hflag.1 hup] at ho <;> cases ho
    refine ⟨hdown, { s with pc := .exited }, ?_, rfl, fun i => ?_⟩
    · simp [ServerStep, Server.next, hpc, sigIntHandler, hdown]
    · rw [Server.printed, hdown, ← total_of_completed hr (by rw [hpc]; rfl)]
      rfl

/-- After a client that got its reply. -/
theorem idle_server_obeys_served : ∃ s, Run (ServerStep .little) Server.init servedSession s ∧
    s.pc = .accept ∧ s.g_server_is_processing = false ∧
      s.printed .sigint 33 = some (sumOf (completed servedSession) 33) := by
  have he : (Run.exec (Server.next .little) Server.init servedSession).any (fun s =>
      s.pc = .accept) = true := by
    decide +kernel
  obtain ⟨s, hr, hs⟩ := Run.of_exec_any (R := ServerStep .little) (fun _ _ _ hs => hs) he
  have hpc := of_decide_eq_true hs
  have hreplied : lastOutcome servedSession = .replied := by decide +kernel
  obtain ⟨hdown, _, -, -, hprinted⟩ := (idle_server_obeys hr hpc).2 (.inr hreplied)
  exact ⟨s, hr, hpc, hdown, hprinted 33⟩

/-- A client that closes its connection at once leaves the flag up. -/
theorem idle_server_disobeys : ¬∀ (e : Endian) (h : List ServerEvent) (s : Server),
    Run (ServerStep e) Server.init h s → s.pc = .accept → s.g_server_is_processing = false := by
  intro hclaim
  have hr : Run (ServerStep .little) Server.init
      [.internal, .internal, .readFailed, .internal, .accepted, .internal] _ :=
    .step (.step (.step (.step (.step (.step .nil rfl) rfl) rfl) rfl) rfl) rfl
  exact absurd (hclaim _ _ _ hr rfl) (by decide)

/-! ## An accepted client -/

/-- The points at which a connection is open. -/
def ServerPc.connected : ServerPc → Bool
  | .loop | .accept | .clearProcessing | .print _ | .exited => false
  | _ => true

/-- SIGINT does not end the process while a connection is open. -/
def Spared (s : Server) (ev : ServerEvent) : Prop :=
  ev = .sigint → s.pc.connected = true → (sigIntHandler s).pc ≠ .exited

/-- SIGINT does not come between the return of `accept` and the raising of the flag, unless an
earlier session left the flag up. -/
def Marked (s : Server) (ev : ServerEvent) : Prop :=
  ev = .sigint → s.pc = .setProcessing → s.g_server_is_processing = true

/-- An open connection has the flag up from its second statement on. -/
theorem flag_of_connected (F : Follows s o) (hopen : s.pc.connected = true)
    (hpc : s.pc ≠ .setProcessing) : s.g_server_is_processing = true := by
  unfold Follows at F
  cases h : s.pc with
  | setProcessing => exact absurd h hpc
  | loop => rw [h] at hopen; cases hopen
  | accept => rw [h] at hopen; cases hopen
  | clearProcessing => rw [h] at hopen; cases hopen
  | print i => rw [h] at hopen; cases hopen
  | exited => rw [h] at hopen; cases hopen
  | _ => simp only [h] at F; exact F.1

/-- The handler spares an open connection iff the flag is up. -/
theorem spared_iff_marked (F : Follows s o) : Spared s ev ↔ Marked s ev := by
  constructor
  · intro hspared hev hpc
    have hstay := hspared hev (by rw [hpc]; rfl)
    by_contra hdown
    rw [sigIntHandler, if_neg hdown] at hstay
    exact hstay rfl
  · intro hmarked hev hopen
    have hup : s.g_server_is_processing = true := by
      by_cases hpc : s.pc = .setProcessing
      · exact hmarked hev hpc
      · exact flag_of_connected F hopen hpc
    rw [sigIntHandler, if_pos hup]
    intro hexit
    rw [show s.pc = .exited from hexit] at hopen
    cases hopen

/-- Without an open connection no session is unfinished. -/
theorem finished_of_not_connected (F : Follows s o) (hopen : s.pc.connected = false)
    (hpc : s.pc ≠ .exited) : o ≠ .unfinished := by
  unfold Follows at F
  cases h : s.pc with
  | exited => exact absurd h hpc
  | loop => simp only [h] at F; exact F.1
  | accept => simp only [h] at F; exact F.1
  | print i => simp only [h] at F; exact F.1
  | clearProcessing =>
    simp only [h] at F
    obtain ⟨-, rfl⟩ := F
    nofun
  | _ => rw [h] at hopen; cases hopen

/-- The steps that end the process. -/
theorem exit_cases (hs : ServerStep e s ev s') (hexit : s'.pc = .exited) :
    (∃ i, ev = .internal ∧ s.pc = .print i) ∨ (ev = .acceptFailed ∧ s.pc = .accept) ∨
      (ev = .sigint ∧ s.pc ≠ .exited ∧ (sigIntHandler s).pc = .exited) := by
  cases moves_of_next hs with
  | @printed i hpc => exact .inl ⟨i, rfl, hpc⟩
  | acceptFailed hpc => exact .inr (.inl ⟨rfl, hpc⟩)
  | sigint hpc => exact .inr (.inr ⟨rfl, hpc, hexit⟩)
  | internal w =>
    have hafter := w.after
    rw [hexit] at hafter; cases hafter
  | received w =>
    have hafter := w.after
    rw [hexit] at hafter; cases hafter
  | sent hpc =>
    simp only at hexit
    split at hexit <;> cases hexit
  | _ => cases hexit

/-- A step that meets the condition does not end the process before the session. -/
theorem finished_step (F : Follows s (lastOutcome h)) (hq : Marked s ev)
    (hs : ServerStep e s ev s') (hexit : s'.pc = .exited) :
    lastOutcome (ev :: h) ≠ .unfinished := by
  obtain ⟨i, rfl, hpc⟩ | ⟨rfl, hpc⟩ | ⟨rfl, hpc, hends⟩ := exit_cases hs hexit
  · exact finished_of_not_connected F (by rw [hpc]; rfl) (by rw [hpc]; nofun)
  · exact finished_of_not_connected F (by rw [hpc]; rfl) (by rw [hpc]; nofun)
  · refine finished_of_not_connected F ?_ hpc
    by_contra hopen
    exact (spared_iff_marked F).2 hq rfl (Bool.eq_true_of_not_eq_false hopen) hends

/-- **SIGINT abandons no client**: in no step does it end the process while a connection is open,
and where the server prints or has exited, the last session has come to its end and the totals
count what was replied to — iff it never comes between `accept` and the raising of the flag. -/
theorem sigint_abandons_none (hr : Run (ServerStep e) Server.init h s) :
    (Run.EachStep (ServerStep e) Server.init Spared h ∧
      ((s.pc = .exited ∨ ∃ i, s.pc = .print i) →
        lastOutcome h ≠ .unfinished ∧ ∀ i, s.pcc_total i = sumOf (completed h) i)) ↔
      Run.EachStep (ServerStep e) Server.init Marked h := by
  have hiff : Run.EachStep (ServerStep e) Server.init Spared h ↔
      Run.EachStep (ServerStep e) Server.init Marked h :=
    Run.eachStep_congr fun _ _ _ ht => spared_iff_marked (follows_run ht)
  constructor
  · rintro ⟨hspared, -⟩
    exact hiff.1 hspared
  · intro hmarked
    refine ⟨hiff.2 hmarked, fun hend => ⟨?_, total_of_completed hr ?_⟩⟩
    · rcases hend with hexit | ⟨i, hpc⟩
      · cases hr with
        | nil => cases hexit
        | step hr hs =>
          have hq := hmarked _ _ (List.suffix_refl _) _ hr
          exact finished_step (follows_run hr) hq hs hexit
      · exact finished_of_not_connected (follows_run hr) (by rw [hpc]; rfl) (by rw [hpc]; nofun)
    · rcases hend with hpc | ⟨i, hpc⟩ <;> rw [hpc] <;> rfl

/-- SIGINT right after the raising of the flag, and a client that closes its connection. -/
theorem sigint_abandons_none_raised : ∃ s,
    Run (ServerStep .little) Server.init [.readFailed, .sigint, .internal, .accepted, .internal] s ∧
      s.pc = .closeFailed ∧ Run.EachStep (ServerStep .little) Server.init Spared
        [.readFailed, .sigint, .internal, .accepted, .internal] := by
  have hraised : Run (ServerStep .little) Server.init [.internal, .accepted, .internal] _ :=
    .step (.step (.step .nil rfl) rfl) rfl
  have hr : Run (ServerStep .little) Server.init
      [.readFailed, .sigint, .internal, .accepted, .internal] _ := .step (.step hraised rfl) rfl
  refine ⟨_, hr, rfl, ((sigint_abandons_none hr).2 ?_).1⟩
  simp only [Run.eachStep_cons]
  refine ⟨fun _ _ => nofun, fun t ht => ?_, fun _ _ => nofun, fun _ _ => nofun, fun _ _ => nofun,
    Run.eachStep_nil⟩
  cases Run.det (fun _ _ _ _ h₁ h₂ => Option.some.inj (h₁.symm.trans h₂)) ht hraised
  exact nofun

/-- SIGINT right after `accept` ends the process with the connection open. -/
theorem sigint_abandons_accepted : ¬∀ (e : Endian) (h : List ServerEvent) (s s' : Server),
    Run (ServerStep e) Server.init h s → s.pc.connected = true → ServerStep e s .sigint s' →
      s'.pc ≠ .exited := by
  intro hclaim
  have hr : Run (ServerStep .little) Server.init [.accepted, .internal] _ :=
    .step (.step .nil rfl) rfl
  exact hclaim .little _ _ _ hr rfl rfl rfl

end OSCourse.Pcc
