import OSCourse.Myshell.Zombies

/-!
# The end of a pipeline

The handler clears a variable of `handle_pipe` if it holds the pid that was reaped, and the shell
records the pid after `fork` has returned.

* `LostPipe` — the shell waits for a child of a pipeline that was reaped already.
* `Recorded` — the condition on one step: no child is reaped before its pid is recorded.
* `Tracked` — the children that the variables name were not reaped.
* `pipeline_not_lost` — **in a run that meets the condition no pipeline is lost, and a step that
  does not is followed by a run to where one is**.
-/

set_option autoImplicit false

namespace OSCourse.Myshell

open Transition

variable {s s' : Shell} {a : ShellEvent} {h : List ShellEvent}

/-- No child has this pid any more. -/
def Shell.Reaped (s : Shell) (pid : Nat) : Prop := pid ∉ s.running ∧ pid ∉ s.zombies

/-- The shell waits for a pipeline, and one of the variables names a child that was reaped. -/
def LostPipe (s : Shell) : Prop :=
  ∃ pid_writer pid_reader, s.pc = .waitPipe pid_writer pid_reader ∧
    (s.current_pipe_writer ≠ 0 ∧ s.Reaped s.current_pipe_writer ∨
      s.current_pipe_reader ≠ 0 ∧ s.Reaped s.current_pipe_reader)

/-- The pid of a pipeline's child that the shell is about to record. -/
def ShellPc.unrecorded : ShellPc → Option Nat
  | .recordWriter pid_writer => some pid_writer
  | .recordReader _ pid_reader => some pid_reader
  | _ => none

/-- The condition on one step. -/
def Recorded (s : Shell) (a : ShellEvent) : Prop := ∀ pid, a = .reap pid → s.pc.unrecorded ≠ some pid

instance (s : Shell) : (a : ShellEvent) → Decidable (Recorded s a)
  | .reap pid =>
    decidable_of_iff (s.pc.unrecorded ≠ some pid)
      ⟨fun h _ heq => ShellEvent.reap.inj heq ▸ h, fun h => h pid rfl⟩
  | .line _ | .endOfInput | .step | .fork _ | .fails | .childExits _ | .deliver | .reapDone
  | .handlerReturns | .sigint => .isTrue fun _ heq => nomatch heq

/-- The children that the two variables name, and the one to be recorded, were not reaped. -/
structure Tracked (s : Shell) : Prop where
  writer : s.current_pipe_writer ≠ 0 → ¬s.Reaped s.current_pipe_writer
  reader : s.current_pipe_reader ≠ 0 → ¬s.Reaped s.current_pipe_reader
  unrecorded : ∀ pid, s.pc.unrecorded = some pid → ¬s.Reaped pid

theorem Tracked.not_lost (T : Tracked s) : ¬LostPipe s := by
  rintro ⟨_, _, -, ⟨h0, h⟩ | ⟨h0, h⟩⟩
  · exact T.writer h0 h
  · exact T.reader h0 h

/-! ## What a step does to the children -/

theorem Shell.reaped_childExits {pid : Nat} (hpid : pid ∈ s.running) (q : Nat) :
    (s.childExits pid).Reaped q ↔ s.Reaped q := by
  by_cases hq : q = pid
  · subst hq
    simp [Shell.Reaped, Shell.childExits, hpid]
  · simp [Shell.Reaped, Shell.childExits, hq]

theorem Shell.reaped_reap {pid q : Nat} (hq : q ≠ pid) : (s.reap pid).Reaped q ↔ s.Reaped q := by
  simp [Shell.Reaped, Shell.reap, hq]

theorem Shell.Reaped.of_fork {pid : Nat} {pc : ShellPc} {q : Nat}
    (hq : Shell.Reaped { s with running := pid :: s.running, pc := pc } q) : s.Reaped q :=
  ⟨fun h => hq.1 (List.mem_cons_of_mem _ h), hq.2⟩

/-- A step that only goes to a point where nothing is to be recorded. -/
theorem Tracked.goto (T : Tracked s) {pc : ShellPc} (hpc : pc.unrecorded = none) :
    Tracked { s with pc := pc } :=
  ⟨T.writer, T.reader, fun pid h => by rw [hpc] at h; cases h⟩

theorem processArglist_unrecorded (arglist : List Word) :
    (processArglist arglist).unrecorded = none := by
  rcases processArglist_cases arglist with h | h | h | h <;> rw [h] <;> rfl

/-- **Every step that meets the condition keeps track.** -/
theorem tracked_step (T : Tracked s) (hc : Recorded s a) (hs : ShellStep s a s') : Tracked s' := by
  cases moves_of_step hs with
  | line arglist => exact T.goto (processArglist_unrecorded arglist)
  | exits => exact T.goto rfl
  | raise => exact ⟨T.writer, T.reader, nofun⟩
  | record => exact ⟨T.writer, T.reader, nofun⟩
  | foregroundEnds => exact T.goto rfl
  | realloc => exact T.goto rfl
  | pipe => exact T.goto rfl
  | recordWriter _ hpc => exact ⟨fun _ => T.unrecorded _ (by rw [hpc]; rfl), T.reader, nofun⟩
  | recordReader _ hpc => exact ⟨T.writer, fun _ => T.unrecorded _ (by rw [hpc]; rfl), nofun⟩
  | pipeEnds => exact T.goto rfl
  | @fork pid pc _ _ _ _ hpc =>
    refine ⟨fun h0 h => T.writer h0 h.of_fork, fun h0 h => T.reader h0 h.of_fork, fun q hq h => ?_⟩
    have hqpid : q = pid := by
      rcases hpc with ⟨-, rfl⟩ | ⟨-, rfl⟩ | ⟨-, rfl⟩ | ⟨_, -, rfl⟩ <;> cases hq <;> rfl
    exact h.1 (by rw [hqpid]; exact List.mem_cons_self ..)
  | childExits hpid =>
    exact ⟨fun h0 h => T.writer h0 ((s.reaped_childExits hpid _).1 h),
      fun h0 h => T.reader h0 ((s.reaped_childExits hpid _).1 h),
      fun q hq h => T.unrecorded q hq ((s.reaped_childExits hpid _).1 h)⟩
  | deliver => exact ⟨T.writer, T.reader, T.unrecorded⟩
  | @reap pid _ hpid =>
    refine ⟨fun h0 h => ?_, fun h0 h => ?_, fun q hq h => ?_⟩
    · simp only [Shell.reap] at h0 h
      split at h0
      · exact h0 rfl
      · rename_i hne
        rw [if_neg hne] at h
        exact T.writer h0 ((Shell.reaped_reap (Ne.symm hne)).1 h)
    · simp only [Shell.reap] at h0 h
      split at h0
      · exact h0 rfl
      · rename_i hne
        rw [if_neg hne] at h
        exact T.reader h0 ((Shell.reaped_reap (Ne.symm hne)).1 h)
    · have hne : q ≠ pid := by
        rintro rfl
        exact hc q rfl hq
      exact T.unrecorded q hq ((Shell.reaped_reap hne).1 h)
  | reapDone => exact ⟨T.writer, T.reader, T.unrecorded⟩
  | handlerReturns => exact ⟨T.writer, T.reader, T.unrecorded⟩
  | sigint => exact ⟨fun h0 => absurd rfl h0, fun h0 => absurd rfl h0, T.unrecorded⟩

/-! ## Runs -/

theorem tracked_prepare : Tracked Shell.prepare :=
  ⟨fun h0 => absurd rfl h0, fun h0 => absurd rfl h0, nofun⟩

/-- A pid is that of one child, and not 0. -/
structure Table (s : Shell) : Prop where
  running : ∀ pid ∈ s.running, pid ≠ 0
  zombies : ∀ pid ∈ s.zombies, pid ≠ 0 ∧ pid ∉ s.running

theorem table_step (T : Table s) (hs : ShellStep s a s') : Table s' := by
  cases moves_of_step hs with
  | @fork pid _ _ h0 _ hz =>
    refine ⟨fun q hq => ?_, fun q hq => ⟨(T.zombies q hq).1, fun hmem => ?_⟩⟩
    · rcases List.mem_cons.1 hq with rfl | hq
      · exact h0
      · exact T.running q hq
    · rcases List.mem_cons.1 hmem with rfl | hmem
      · exact hz hq
      · exact (T.zombies q hq).2 hmem
  | @childExits pid hpid =>
    refine ⟨fun q hq => T.running q (List.mem_of_mem_filter hq), fun q hq => ?_⟩
    rcases List.mem_cons.1 hq with rfl | hq
    · exact ⟨T.running q hpid, by simp [Shell.childExits]⟩
    · exact ⟨(T.zombies q hq).1, fun hmem => (T.zombies q hq).2 (List.mem_of_mem_filter hmem)⟩
  | reap => exact ⟨T.running, fun q hq => T.zombies q (List.mem_of_mem_filter hq)⟩
  | _ => exact ⟨T.running, T.zombies⟩

theorem table_run (hr : Run ShellStep Shell.prepare h s) : Table s :=
  hr.invariant ⟨fun _ h => absurd h List.not_mem_nil, fun _ h => absurd h List.not_mem_nil⟩
    fun _ _ _ T hs => table_step T hs

/-- The shell records the reader and waits. -/
theorem lost_reader {w r : Nat} (hidle : s.handler = .idle) (hpc : s.pc = .recordReader w r)
    (h0 : r ≠ 0) (hgone : s.Reaped r) :
    ∃ h' s', Run ShellStep s h' s' ∧ LostPipe s' := by
  have hstep : ShellStep s .step { s with current_pipe_reader := r, pc := .waitPipe w r } := by
    simp [ShellStep, Shell.next, Shell.mainNext, hidle, hpc]
  exact ⟨_, _, Run.nil.step hstep, w, r, rfl, .inr ⟨h0, hgone⟩⟩

/-- The shell records the writer, forks a reader and waits. -/
theorem lost_writer {w : Nat} (hidle : s.handler = .idle) (hpc : s.pc = .recordWriter w)
    (h0 : w ≠ 0) (hgone : s.Reaped w) (hzombies : s.zombies = []) :
    ∃ h' s', Run ShellStep s h' s' ∧ LostPipe s' := by
  obtain ⟨r, hr⟩ := Infinite.exists_notMem_finset (0 :: w :: s.running).toFinset
  simp only [List.mem_toFinset, List.mem_cons, not_or] at hr
  obtain ⟨hr0, hrw, hrunning⟩ := hr
  have h₁ : ShellStep s .step { s with current_pipe_writer := w, pc := .forkReader w } := by
    simp [ShellStep, Shell.next, Shell.mainNext, hidle, hpc]
  have h₂ : ShellStep { s with current_pipe_writer := w, pc := .forkReader w } (.fork r)
      { s with current_pipe_writer := w, running := r :: s.running, pc := .recordReader w r } := by
    simp [ShellStep, Shell.next, Shell.forkReturns, hidle, hr0, hrunning, hzombies]
  have h₃ : ShellStep
      { s with current_pipe_writer := w, running := r :: s.running, pc := .recordReader w r } .step
      { s with
        current_pipe_writer := w
        current_pipe_reader := r
        running := r :: s.running
        pc := .waitPipe w r } := by
    simp [ShellStep, Shell.next, Shell.mainNext, hidle]
  refine ⟨_, _, ((Run.nil.step h₁).step h₂).step h₃, w, r, rfl, .inl ⟨h0, fun hmem => ?_, hgone.2⟩⟩
  rcases List.mem_cons.1 hmem with heq | hmem
  · exact hrw heq.symm
  · exact hgone.1 hmem

/-- **The end of a pipeline is not lost** in a run in which no child of a pipeline is reaped between
the `fork` that made it and the assignment of its pid; and after a step that reaps one there, a run
leads to where the shell waits for it. -/
theorem pipeline_not_lost (hr : Run ShellStep Shell.prepare h s) :
    (Run.EachStep ShellStep Shell.prepare Recorded h → ¬LostPipe s) ∧
      ∀ a s', ShellStep s a s' → ¬Recorded s a →
        ∃ h' s'', Run ShellStep s' h' s'' ∧ LostPipe s'' := by
  constructor
  · intro hq
    have T : Tracked s :=
      hr.invariantOn tracked_prepare (fun _ _ _ T hc hs => tracked_step T hc hs) hq
    exact T.not_lost
  · intro a s' hs hc
    simp only [Recorded, not_forall, not_not] at hc
    obtain ⟨pid, rfl, hpc⟩ := hc
    obtain ⟨hreap, hzombie, rfl⟩ : s.handler = .reaping ∧ pid ∈ s.zombies ∧ s' = s.reap pid := by
      cases moves_of_step hs with
      | reap hreap hzombie => exact ⟨hreap, hzombie, rfl⟩
      | exits _ ha => rcases ha with ha | ha <;> cases ha
    obtain ⟨h0, hrunning⟩ := (table_run hr).zombies pid hzombie
    obtain ⟨h₁, s₁, hr₁, D⟩ := drain (s := s.reap pid) hreap
    have hgone : s₁.Reaped pid := by
      refine ⟨?_, ?_⟩
      · rw [D.running]; exact hrunning
      · rw [D.zombies]; exact List.not_mem_nil
    have hlost : ∃ h' s', Run ShellStep s₁ h' s' ∧ LostPipe s' := by
      cases hpc' : s.pc with
      | recordWriter w =>
        rw [hpc'] at hpc
        cases hpc
        exact lost_writer D.handler (D.pc.trans hpc') h0 hgone D.zombies
      | recordReader w r =>
        rw [hpc'] at hpc
        cases hpc
        exact lost_reader D.handler (D.pc.trans hpc') h0 hgone
      | _ => rw [hpc'] at hpc; cases hpc
    obtain ⟨h₂, s₂, hr₂, hlost⟩ := hlost
    exact ⟨_, s₂, hr₁.trans hr₂, hlost⟩

/-- The children of a pipeline terminate and are reaped one after the other, and the shell reads the
next line. -/
theorem pipeline_not_lost_ends : ∃ s, Run ShellStep Shell.prepare
    [.step, .handlerReturns, .reapDone, .reap 2, .deliver, .childExits 2, .handlerReturns, .reapDone,
      .reap 1, .deliver, .childExits 1, .step, .fork 2, .step, .fork 1, .step,
      .line [[97], [124], [98]]] s ∧ s.pc = .readLine ∧ s.zombies = [] ∧ ¬LostPipe s := by
  have he : (Run.execOn Shell.next Recorded Shell.prepare
      [.step, .handlerReturns, .reapDone, .reap 2, .deliver, .childExits 2, .handlerReturns, .reapDone,
        .reap 1, .deliver, .childExits 1, .step, .fork 2, .step, .fork 1, .step,
        .line [[97], [124], [98]]]).any (fun s => s.pc = .readLine ∧ s.zombies = []) = true := by
    decide
  obtain ⟨s, hr, hq, hs⟩ := runOn_of_exec he
  obtain ⟨hpc, hzombies⟩ := of_decide_eq_true hs
  exact ⟨s, hr, hpc, hzombies, (pipeline_not_lost hr).1 hq⟩

/-- The writer terminates and is reaped before its pid is recorded. -/
theorem pipeline_lost : ¬∀ (h : List ShellEvent) (s : Shell), Run ShellStep Shell.prepare h s →
    ¬LostPipe s := by
  intro hclaim
  have he : (Run.exec Shell.next Shell.prepare
      [.step, .fork 2, .step, .handlerReturns, .reapDone, .reap 1, .deliver, .childExits 1, .fork 1,
        .step, .line [[97], [124], [98]]]).any (fun s => s.pc = .waitPipe 1 2 ∧
          s.current_pipe_writer = 1 ∧ s.running = [2] ∧ s.zombies = []) = true := by
    decide
  obtain ⟨s, hr, hs⟩ := run_of_exec he
  obtain ⟨hpc, hwriter, hrunning, hzombies⟩ := of_decide_eq_true hs
  refine hclaim _ s hr ⟨1, 2, hpc, .inl ?_⟩
  rw [hwriter, Shell.Reaped, hrunning, hzombies]
  decide

end OSCourse.Myshell
