import OSCourse.Pcc.Session

/-!
# The statistics count the completed sessions

* `Server.settled` — `pcc_total` as it is once a running `update_pcc_total` is through; a step
  changes it exactly when it writes the last byte of a reply (`settled_step`).
* `settled_run` — it is the sum over the completed sessions of the history.
* `statistics_count_completed_sessions` — so is every line that is printed, because nothing is
  printed inside `update_pcc_total`.
-/

set_option autoImplicit false

namespace OSCourse.Pcc

open Bytes Transition

/-- The number of entries that `update_pcc_total` has not left for later. -/
def ServerPc.updated : ServerPc → Nat
  | .updateTotal i => i
  | _ => PRINABLE_CHARS_AMOUNT

/-- The totals once a running `update_pcc_total` is through. -/
def Server.settled (s : Server) : Counters :=
  fun j => if s.pc.updated ≤ j.val then s.pcc_total j + s.pcc_client j else s.pcc_total j

theorem settled_eq {s : Server} (h : s.pc.updated = PRINABLE_CHARS_AMOUNT) :
    s.settled = s.pcc_total := by
  funext j
  rw [Server.settled, h, if_neg (Nat.not_le.2 j.isLt)]

/-- A step from and to a point outside `update_pcc_total` that keeps the totals. -/
theorem settled_congr {s s' : Server} (h : s.pc.updated = PRINABLE_CHARS_AMOUNT)
    (h' : s'.pc.updated = PRINABLE_CHARS_AMOUNT) (ht : s'.pcc_total = s.pcc_total) :
    s'.settled = s.settled := by
  rw [settled_eq h, settled_eq h', ht]

theorem ServerPc.updated_of_working {pc : ServerPc} (h : pc.working = true) :
    pc.updated = PRINABLE_CHARS_AMOUNT := by
  cases pc <;> first | rfl | cases h

theorem Works.settled {s s' : Server} (w : Works s s') : s'.settled = s.settled :=
  settled_congr (ServerPc.updated_of_working w.before) (ServerPc.updated_of_working w.after) w.total

theorem settled_internal {e : Endian} {s s' : Server} (hs : s.internal e = some s') :
    s'.settled = s.settled := by
  cases moves_of_internal hs with
  | internal w => exact w.settled
  | @add i hpc hi =>
    funext j
    simp only [Server.settled, hpc, ServerPc.updated]
    by_cases hji : j.val = i
    · simp [hji]
    · simp only [hji, if_false]
      by_cases hle : i ≤ j.val
      · rw [if_pos hle, if_pos (by omega)]
      · rw [if_neg hle, if_neg (by omega)]
  | @added i hpc hi =>
    have hnew : Server.settled { s with pc := .closeDone } = s.pcc_total := settled_eq rfl
    funext j
    have hj : j.val < i := Nat.lt_of_lt_of_le j.isLt hi
    rw [hnew, Server.settled, hpc, ServerPc.updated, if_neg (Nat.not_le.2 hj)]
  | enter hpc hrun => exact settled_congr (by rw [hpc]; rfl) rfl rfl
  | leave hpc hrun => exact settled_congr (by rw [hpc]; rfl) rfl rfl
  | raise hpc => exact settled_congr (by rw [hpc]; rfl) rfl rfl
  | closeFailed hpc => exact settled_congr (by rw [hpc]; rfl) rfl rfl
  | closeDone hpc => exact settled_congr (by rw [hpc]; rfl) rfl rfl
  | lower hpc => exact settled_congr (by rw [hpc]; rfl) rfl rfl
  | print hpc => exact settled_congr (by rw [hpc]; rfl) rfl rfl
  | printed hpc => exact settled_congr (by rw [hpc]; rfl) rfl rfl

/-- The last byte of a reply settles the counts of the session, no other byte does. -/
theorem settled_sent {s s' : Server} {g : Session} {bytes : List UInt8} (I : SessionInv s g)
    (hs : s.sent bytes = some s') (i : Fin PRINABLE_CHARS_AMOUNT) :
    s'.settled i = if g.sent.length + bytes.length = 4 then s.settled i + countsOf g.stream i
      else s.settled i := by
  obtain ⟨data, total, hpc, hc, hlen, hle, rfl⟩ := sent_cases I hs
  have hold : s.settled = s.pcc_total := settled_eq (by rw [hpc]; rfl)
  by_cases hlt : total + bytes.length < 4
  · have hmore : ¬g.sent.length + bytes.length = 4 := by omega
    rw [if_neg hmore, hold, settled_eq]
    simp [hlt, ServerPc.updated]
  · have hlast : g.sent.length + bytes.length = 4 := by omega
    rw [if_pos hlast, hold, ← hc.client, Server.settled]
    simp [hlt, ServerPc.updated]

theorem settled_received {e : Endian} {s s' : Server} {bytes : List UInt8}
    (hs : s.received e bytes = some s') : s'.settled = s.settled := by
  cases moves_of_received hs with
  | received w => exact w.settled

theorem settled_sigint {s : Server} (h : s.pc.updated ≠ PRINABLE_CHARS_AMOUNT →
    s.g_server_is_processing = true) : (sigIntHandler s).settled = s.settled := by
  unfold sigIntHandler
  split
  · rfl
  · rename_i hproc
    exact settled_congr (by_contra fun hne => hproc (h hne)) rfl rfl

/-- The returns of `accept`, and the failures. -/
inductive ServerEvent.IsOther : ServerEvent → Prop
  | accepted : IsOther .accepted
  | acceptFailed : IsOther .acceptFailed
  | readFailed : IsOther .readFailed
  | writeFailed : IsOther .writeFailed

theorem settled_other {e : Endian} {s s' : Server} {ev : ServerEvent} (ho : ev.IsOther)
    (hs : s.next e ev = some s') : s'.settled = s.settled := by
  cases ho with
  | accepted =>
    cases moves_of_next hs with
    | accepted hpc => exact settled_congr (by rw [hpc]; rfl) rfl rfl
  | acceptFailed =>
    cases moves_of_next hs with
    | acceptFailed hpc => exact settled_congr (by rw [hpc]; rfl) rfl rfl
  | readFailed =>
    cases moves_of_next hs with
    | readFailed size hwork => exact settled_congr (ServerPc.updated_of_working hwork) rfl rfl
  | writeFailed =>
    cases moves_of_next hs with
    | writeFailed hwork => exact settled_congr (ServerPc.updated_of_working hwork) rfl rfl

/-! ## The flag -/

/-- The points of the program between raising and lowering `g_server_is_processing`. -/
def ServerPc.inSession : ServerPc → Bool
  | .loop | .accept | .setProcessing | .print _ | .exited => false
  | _ => true

def FlagInv (s : Server) : Prop := s.pc.inSession = true → s.g_server_is_processing = true

theorem ServerPc.inSession_of_working {pc : ServerPc} (h : pc.working = true) :
    pc.inSession = true := by
  cases pc <;> first | rfl | cases h

theorem ServerPc.inSession_of_updated {pc : ServerPc} (h : pc.updated ≠ PRINABLE_CHARS_AMOUNT) :
    pc.inSession = true := by
  cases pc <;> first | rfl | exact absurd rfl h

/-- **The flag is up throughout a session.** -/
theorem flag_step {e : Endian} {s s' : Server} {ev : ServerEvent} (F : FlagInv s)
    (hs : ServerStep e s ev s') : FlagInv s' := by
  intro hsession
  cases moves_of_next hs with
  | internal w =>
    rw [w.processing]
    exact F (ServerPc.inSession_of_working w.before)
  | received w =>
    rw [w.processing]
    exact F (ServerPc.inSession_of_working w.before)
  | raise hpc => rfl
  | sent hpc => exact F (by rw [hpc]; rfl)
  | readFailed size hwork => exact F (ServerPc.inSession_of_working hwork)
  | writeFailed hwork => exact F (ServerPc.inSession_of_working hwork)
  | add hpc hi => exact F (by rw [hpc]; rfl)
  | added hpc hi => exact F (by rw [hpc]; rfl)
  | closeDone hpc => exact F (by rw [hpc]; rfl)
  | sigint hpc =>
    unfold sigIntHandler at hsession ⊢
    split at hsession
    · rename_i hup
      rw [if_pos hup]
      exact hup
    · cases hsession
  | enter hpc hrun => cases hsession
  | leave hpc hrun => cases hsession
  | accepted hpc => cases hsession
  | acceptFailed hpc => cases hsession
  | closeFailed hpc => cases hsession
  | lower hpc => cases hsession
  | print hpc => cases hsession
  | printed hpc => cases hsession

/-! ## Runs -/

/-- **A step settles the counts of a session iff it completes its reply.** -/
theorem settled_step {e : Endian} {s s' : Server} {ev : ServerEvent} {h : List ServerEvent}
    {base : Counters} (I : SessionInv s (sessionOf h)) (F : FlagInv s)
    (ht : ∀ i, s.settled i = base i + sumOf (completed h) i) (hs : ServerStep e s ev s') :
    ∀ i, s'.settled i = base i + sumOf (completed (ev :: h)) i := by
  intro i
  cases ev with
  | internal => rw [settled_internal hs]; exact ht i
  | received bytes => rw [settled_received hs]; exact ht i
  | sent bytes =>
    rw [settled_sent I hs, completed]
    split
    · rw [ht, sumOf_cons, BitVec.add_assoc, BitVec.add_comm (sumOf _ i)]
    · exact ht i
  | sigint =>
    cases moves_of_next hs with
    | sigint hpc =>
      rw [settled_sigint]
      · exact ht i
      · intro hne
        exact F (ServerPc.inSession_of_updated hne)
  | accepted => rw [settled_other .accepted hs]; exact ht i
  | acceptFailed => rw [settled_other .acceptFailed hs]; exact ht i
  | readFailed => rw [settled_other .readFailed hs]; exact ht i
  | writeFailed => rw [settled_other .writeFailed hs]; exact ht i

theorem flag_run {e : Endian} {s₀ s : Server} {h : List ServerEvent} (hidle : Idle s₀)
    (hr : Run (ServerStep e) s₀ h s) : FlagInv s := by
  refine hr.invariant ?_ fun _ _ _ F hs => flag_step F hs
  rcases hidle with hpc | hpc <;> exact fun h => by rw [hpc] at h; cases h

/-- The totals of every run that starts between two sessions. -/
theorem settled_run {e : Endian} {s₀ s : Server} {h : List ServerEvent} (hidle : Idle s₀)
    (hr : Run (ServerStep e) s₀ h s) (i : Fin PRINABLE_CHARS_AMOUNT) :
    s.settled i = s₀.pcc_total i + sumOf (completed h) i := by
  induction hr generalizing i with
  | nil =>
    rw [settled_eq (by rcases hidle with hpc | hpc <;> rw [hpc] <;> rfl), completed, sumOf_nil]
    exact (BitVec.add_zero _).symm
  | step hr hs ih => exact settled_step (session_run hidle hr) (flag_run hidle hr) ih hs i

/-- What is printed is a total, and at a point outside `update_pcc_total`. -/
theorem printed_total {s : Server} (F : FlagInv s) {ev : ServerEvent}
    {i : Fin PRINABLE_CHARS_AMOUNT} {v : BitVec 32} (hv : s.printed ev i = some v) :
    v = s.pcc_total i ∧ s.pc.updated = PRINABLE_CHARS_AMOUNT := by
  unfold Server.printed at hv
  split at hv
  · rename_i hpc
    obtain ⟨-, heq⟩ := Option.ite_none_right_eq_some.1 hv
    exact ⟨(Option.some.inj heq).symm, by rw [hpc]; rfl⟩
  · obtain ⟨hproc, heq⟩ := Option.ite_none_left_eq_some.1 hv
    refine ⟨(Option.some.inj heq).symm, ?_⟩
    -- inside `update_pcc_total` the flag is up and the handler does not print
    by_contra hupdating
    exact hproc (F (ServerPc.inSession_of_updated hupdating))
  · cases hv

/-- Outside `update_pcc_total` the totals are those of the completed sessions. -/
theorem total_of_completed {e : Endian} {h : List ServerEvent} {s : Server}
    (hr : Run (ServerStep e) Server.init h s) (hpc : s.pc.updated = PRINABLE_CHARS_AMOUNT)
    (i : Fin PRINABLE_CHARS_AMOUNT) : s.pcc_total i = sumOf (completed h) i := by
  have hsettled := settled_run (.inl rfl) hr i
  rw [settled_eq hpc] at hsettled
  rw [hsettled]
  exact BitVec.zero_add _

/-- So what is printed is settled. -/
theorem printed_settled {e : Endian} {h : List ServerEvent} {s : Server}
    (hr : Run (ServerStep e) Server.init h s) {ev : ServerEvent} {i : Fin PRINABLE_CHARS_AMOUNT}
    {v : BitVec 32} (hv : s.printed ev i = some v) : v = sumOf (completed h) i := by
  obtain ⟨htotal, hupdated⟩ := printed_total (flag_run (.inl rfl) hr) hv
  exact htotal.trans (total_of_completed hr hupdated i)

/-- **Every line that is printed counts the completed sessions and nothing else**, whether the
handler prints it or the code after the loop. -/
theorem statistics_count_completed_sessions {e : Endian} {h : List ServerEvent} {s s' : Server}
    (hr : Run (ServerStep e) Server.init h s) {ev : ServerEvent} (_ : ServerStep e s ev s')
    {i : Fin PRINABLE_CHARS_AMOUNT} {v : BitVec 32} (hv : s.printed ev i = some v) :
    v = sumOf (completed h) i :=
  printed_settled hr hv

/-- A client sends the byte `A`, in one piece, and gets its reply. -/
def servedSession : List ServerEvent :=
  List.flatten [List.replicate 99 .internal, [.sent [0, 0, 0, 1]], List.replicate 4 .internal,
    [.received [65]], List.replicate 97 .internal, [.received [0, 0, 0, 1], .internal, .accepted,
      .internal]]

/-- The next one is cut off after three bytes, with SIGINT during its session; the server comes to
the counter of `A`. -/
def cutSession : List ServerEvent :=
  List.flatten [List.replicate 35 .internal, [.readFailed, .received [0, 0, 0], .sigint, .internal,
    .accepted], servedSession]

theorem statistics_count_completed_sessions_cut :
    ∃ s, Run (ServerStep .little) Server.init cutSession s ∧ s.printed .internal 33 = some 1 ∧
      (1 : BitVec 32) = sumOf (completed cutSession) 33 := by
  have he : (Run.exec (Server.next .little) Server.init cutSession).any (fun s =>
      s.pc = .print 33 ∧ s.printed .internal 33 = some 1) = true := by
    decide +kernel
  obtain ⟨s, hr, hs⟩ := Run.of_exec_any (R := ServerStep .little) (fun _ _ _ hs => hs) he
  obtain ⟨hpc, hv⟩ := of_decide_eq_true hs
  have hstep : ServerStep .little s .internal { s with pc := .print 34 } := by
    simp [ServerStep, Server.next, Server.internal, hpc, PRINABLE_CHARS_AMOUNT]
  exact ⟨s, hr, hv, statistics_count_completed_sessions hr hstep hv⟩

end OSCourse.Pcc
