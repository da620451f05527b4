import OSCourse.Myshell.Foreground

/-!
# What ends a wait

Here no SIGINT reaches the shell and no pid is used twice.

* `History` — what the history says of the children, and of the pid of the pending signal.
* `Flags` — what the flags say at each point of the shell: `current_fg_id` keeps the pid of an earlier
  command, whose one signal is gone.
* `no_early_return` — **the shell returns from a command only after the command's children have
  terminated, and nothing else ends a wait**.
-/

set_option autoImplicit false

namespace OSCourse.Myshell

open Transition

variable {s s' : Shell} {a : ShellEvent} {h : List ShellEvent}

def ShellEvent.forkedPid : ShellEvent → Option Nat
  | .fork pid => some pid
  | _ => none

/-- The children of the session, latest first. -/
def forkedPids (h : List ShellEvent) : List Nat := h.filterMap ShellEvent.forkedPid

theorem forkedPids_cons_of_none (ha : a.forkedPid = none) : forkedPids (a :: h) = forkedPids h := by
  simp [forkedPids, ha]

/-! ## The children -/

structure History (h : List ShellEvent) (s : Shell) : Prop where
  running : ∀ pid ∈ s.running, pid ∈ forkedPids h ∧ .childExits pid ∉ h
  ended : ∀ pid, .childExits pid ∈ h → pid ∈ forkedPids h ∧ pid ∉ s.running
  forked : ∀ pid ∈ forkedPids h, pid ∈ s.running ∨ .childExits pid ∈ h
  zombies : ∀ pid ∈ s.zombies, .childExits pid ∈ h
  reaped : ∀ pid, .reap pid ∈ h → .childExits pid ∈ h
  pending : ∀ pid, s.pending = some pid → .childExits pid ∈ h

/-- A step that touches no child. -/
theorem History.same (H : History h s) (hforked : a.forkedPid = none)
    (hexits : ∀ pid, a ≠ .childExits pid) (hreap : ∀ pid, a ≠ .reap pid)
    (hrunning : s'.running = s.running) (hzombies : s'.zombies = s.zombies)
    (hpending : s'.pending = s.pending ∨ s'.pending = none) : History (a :: h) s' := by
  have hmem : ∀ {pid}, .childExits pid ∈ a :: h ↔ .childExits pid ∈ h := fun {pid} =>
    ⟨fun h => (List.mem_cons.1 h).resolve_left (hexits pid).symm, List.mem_cons_of_mem _⟩
  constructor
  · simpa only [hrunning, forkedPids_cons_of_none hforked, hmem] using H.running
  · simpa only [hrunning, forkedPids_cons_of_none hforked, hmem] using H.ended
  · simpa only [hrunning, forkedPids_cons_of_none hforked, hmem] using H.forked
  · simpa only [hzombies, hmem] using H.zombies
  · exact fun pid hr => hmem.2 (H.reaped pid ((List.mem_cons.1 hr).resolve_left (hreap pid).symm))
  · intro pid hp
    rcases hpending with heq | heq
    · exact hmem.2 (H.pending pid (heq.symm.trans hp))
    · rw [heq] at hp; cases hp

theorem history_step (H : History h s) (hfresh : (forkedPids (a :: h)).Nodup)
    (hs : ShellStep s a s') : History (a :: h) s' := by
  cases moves_of_step hs with
  | @fork pid pc _ _ _ _ _ =>
    have hpids : forkedPids (.fork pid :: h) = pid :: forkedPids h := rfl
    have hnew : pid ∉ forkedPids h := (List.nodup_cons.1 (hpids ▸ hfresh)).1
    have hmem : ∀ {q}, ShellEvent.childExits q ∈ .fork pid :: h ↔ .childExits q ∈ h := by simp
    refine ⟨fun q hq => ?_, fun q hq => ?_, fun q hq => ?_, fun q hq => hmem.2 (H.zombies q hq),
      fun q hq => hmem.2 (H.reaped q (by simpa using hq)), fun q hq => hmem.2 (H.pending q hq)⟩
    · rw [hmem]
      rcases List.mem_cons.1 hq with rfl | hq
      · exact ⟨by rw [hpids]; exact List.mem_cons_self .., fun hend => hnew (H.ended q hend).1⟩
      · exact ⟨by rw [hpids]; exact List.mem_cons_of_mem _ (H.running q hq).1, (H.running q hq).2⟩
    · obtain ⟨hforked, hrunning⟩ := H.ended q (hmem.1 hq)
      refine ⟨by rw [hpids]; exact List.mem_cons_of_mem _ hforked, fun hq => ?_⟩
      rcases List.mem_cons.1 hq with rfl | hq
      · exact hnew hforked
      · exact hrunning hq
    · rw [hpids] at hq
      rw [hmem]
      rcases List.mem_cons.1 hq with rfl | hq
      · exact .inl (List.mem_cons_self ..)
      · exact (H.forked q hq).imp_left (List.mem_cons_of_mem _)
  | @childExits pid hpid =>
    have hmem : ∀ {q}, ShellEvent.childExits q ∈ .childExits pid :: h ↔
        q = pid ∨ .childExits q ∈ h := by simp
    have hpids : forkedPids (.childExits pid :: h) = forkedPids h := forkedPids_cons_of_none rfl
    refine ⟨fun q hq => ?_, fun q hq => ?_, fun q hq => ?_, fun q hq => ?_, fun q hq => ?_,
      fun q hq => ?_⟩
    · obtain ⟨hq, hne⟩ := List.mem_filter.1 hq
      rw [hpids, hmem, not_or]
      exact ⟨(H.running q hq).1, by simpa using hne, (H.running q hq).2⟩
    · rw [hpids]
      rcases hmem.1 hq with rfl | hq
      · exact ⟨(H.running q hpid).1, by simp [Shell.childExits]⟩
      · exact ⟨(H.ended q hq).1, fun hrun => (H.ended q hq).2 (List.mem_of_mem_filter hrun)⟩
    · rw [hpids] at hq
      rw [hmem]
      by_cases hqp : q = pid
      · exact .inr (.inl hqp)
      · exact (H.forked q hq).imp (fun h => List.mem_filter.2 ⟨h, by simpa using hqp⟩) .inr
    · exact hmem.2 ((List.mem_cons.1 hq).imp_right (H.zombies q))
    · exact hmem.2 (.inr (H.reaped q (by simpa using hq)))
    · cases hpending : s.pending with
      | none =>
        simp only [Shell.childExits, hpending, Option.getD_none, Option.some.injEq] at hq
        exact hmem.2 (.inl hq.symm)
      | some x =>
        simp only [Shell.childExits, hpending, Option.getD_some, Option.some.injEq] at hq
        exact hmem.2 (.inr (H.pending q (hpending.trans (congrArg some hq))))
  | @reap pid _ hpid =>
    have hmem : ∀ {q}, ShellEvent.childExits q ∈ .reap pid :: h ↔ .childExits q ∈ h := by simp
    have hpids : forkedPids (.reap pid :: h) = forkedPids h := forkedPids_cons_of_none rfl
    have hrunning : (s.reap pid).running = s.running := rfl
    refine ⟨?_, ?_, ?_, fun q hq => hmem.2 (H.zombies q (List.mem_of_mem_filter hq)), fun q hq => ?_,
      fun q hq => hmem.2 (H.pending q hq)⟩
    · simpa only [hpids, hmem, hrunning] using H.running
    · simpa only [hpids, hmem, hrunning] using H.ended
    · simpa only [hpids, hmem, hrunning] using H.forked
    · apply hmem.2
      rcases List.mem_cons.1 hq with heq | hq
      · cases heq; exact H.zombies _ hpid
      · exact H.reaped q hq
  | deliver => exact H.same rfl (by simp) (by simp) rfl rfl (.inr rfl)
  | exits _ ha => rcases ha with rfl | rfl <;> exact H.same rfl (by simp) (by simp) rfl rfl (.inl rfl)
  | _ => exact H.same rfl (by simp) (by simp) rfl rfl (.inl rfl)

/-! ## The flags -/

/-- The points between the two stores to `is_foreground`. -/
def ShellPc.flagged : ShellPc → Bool
  | .recordForeground _ | .waitForeground _ => true
  | _ => false

/-- The points at which `current_fg_id` is the child that the shell waits for. -/
def ShellPc.waiting : ShellPc → Bool
  | .waitForeground _ => true
  | _ => false

/-- The writer that was recorded. -/
def ShellPc.recordedWriter : ShellPc → Option Nat
  | .forkReader pid_writer | .recordReader pid_writer _ | .waitPipe pid_writer _ => some pid_writer
  | _ => none

/-- The reader that was recorded. -/
def ShellPc.recordedReader : ShellPc → Option Nat
  | .waitPipe _ pid_reader => some pid_reader
  | _ => none

/-- The child of `current_fg_id` has terminated, and its signal is gone. -/
def Spent (h : List ShellEvent) (s : Shell) : Prop :=
  s.pending ≠ some s.current_fg_id ∧
    (s.current_fg_id = 0 ∨ .childExits s.current_fg_id ∈ h)

/-- A variable of `handle_pipe` is cleared only when its child is reaped. -/
def Piped (h : List ShellEvent) (recorded : Option Nat) (var : Nat) : Prop :=
  match recorded with
  | some pid => var = pid ∨ (var = 0 ∧ .reap pid ∈ h)
  | none => var = 0

structure Flags (h : List ShellEvent) (s : Shell) : Prop where
  spent : s.pc.waiting = false ∨ s.is_foreground = false → Spent h s
  lowered : s.pc.flagged = false → s.is_foreground = false
  raised : ∀ pid, s.pc = .recordForeground pid → s.is_foreground = true
  writer : Piped h s.pc.recordedWriter s.current_pipe_writer
  reader : Piped h s.pc.recordedReader s.current_pipe_reader

theorem Spent.mono (S : Spent h s) (hfg : s'.current_fg_id = s.current_fg_id)
    (hpending : s'.pending = s.pending ∨ s'.pending = none) : Spent (a :: h) s' := by
  refine ⟨?_, ?_⟩
  · rcases hpending with heq | heq <;> rw [heq]
    · rw [hfg]; exact S.1
    · exact nofun
  · rw [hfg]
    exact S.2.imp_right (List.mem_cons_of_mem _)

theorem Piped.mono {recorded : Option Nat} {var : Nat} (P : Piped h recorded var) :
    Piped (a :: h) recorded var := by
  cases recorded with
  | none => exact P
  | some pid => exact Or.imp_right (And.imp_right (List.mem_cons_of_mem _)) P

/-- The body of the handler's loop, for one variable. -/
theorem Piped.reap {recorded : Option Nat} {var pid : Nat} (P : Piped h recorded var) :
    Piped (.reap pid :: h) recorded (if pid = var then 0 else var) := by
  cases recorded with
  | none =>
    have hvar : var = 0 := P
    show (if pid = var then 0 else var) = 0
    split <;> [rfl; exact hvar]
  | some q =>
    split
    · rename_i hpid
      rcases P with hq | ⟨-, hmem⟩
      · refine .inr ⟨rfl, ?_⟩
        rw [← hq, ← hpid]
        exact List.mem_cons_self ..
      · exact .inr ⟨rfl, List.mem_cons_of_mem _ hmem⟩
    · exact P.mono

/-- A step that keeps the flags and goes to a point outside the wait for a foreground child. -/
theorem Flags.goto (F : Flags h s) (hflag : s.is_foreground = false) {pc : ShellPc}
    (hpc : s'.pc = pc) (hflagged : pc.flagged = false)
    (hwriter : Piped h pc.recordedWriter s'.current_pipe_writer)
    (hreader : Piped h pc.recordedReader s'.current_pipe_reader)
    (hsame : s'.is_foreground = s.is_foreground ∧ s'.current_fg_id = s.current_fg_id ∧
      s'.pending = s.pending) : Flags (a :: h) s' := by
  subst hpc
  obtain ⟨hfore, hfg, hpending⟩ := hsame
  refine ⟨fun _ => (F.spent (.inr hflag)).mono hfg (.inl hpending), fun _ => hfore.trans hflag,
    fun pid hp => ?_, hwriter.mono, hreader.mono⟩
  rw [hp] at hflagged
  cases hflagged

theorem flags_deliver {si_pid : Nat} (F : Flags h s) (hpending : s.pending = some si_pid)
    (hexit : .childExits si_pid ∈ h) : Flags (.deliver :: h) (s.deliver si_pid) := by
  have hlower : s.is_foreground = false → (s.deliver si_pid).is_foreground = false := by
    intro hflag
    simp [Shell.deliver, hflag]
  refine ⟨fun hs => ?_, fun hf => hlower (F.lowered hf), fun pid hp => ?_, F.writer.mono,
    F.reader.mono⟩
  · by_cases hsame : si_pid = s.current_fg_id
    · exact ⟨by simp [Shell.deliver], .inr (List.mem_cons_of_mem _ (hsame ▸ hexit))⟩
    · refine (F.spent (hs.imp_right fun hflag => ?_)).mono rfl (.inr rfl)
      simpa [Shell.deliver, hsame] using hflag
  · have hp : s.pc = .recordForeground pid := hp
    have hspent := F.spent (.inl (by rw [hp]; rfl))
    have hne : si_pid ≠ s.current_fg_id := fun heq => hspent.1 (by rw [hpending, heq])
    simp [Shell.deliver, F.raised pid hp, hne]

theorem flags_childExits {pid : Nat} (F : Flags h s) (H : History h s) (T : Table s)
    (hpid : pid ∈ s.running) : Flags (.childExits pid :: h) (s.childExits pid) := by
  refine ⟨fun hs => ?_, F.lowered, F.raised, F.writer.mono, F.reader.mono⟩
  have S := F.spent hs
  refine ⟨?_, S.2.imp_right (List.mem_cons_of_mem _)⟩
  cases hpending : s.pending with
  | none =>
    simp only [Shell.childExits, hpending, Option.getD_none, ne_eq, Option.some.injEq]
    rintro rfl
    rcases S.2 with h0 | hend
    · exact T.running _ hpid h0
    · exact (H.ended _ hend).2 hpid
  | some x =>
    have hne := S.1
    rw [hpending] at hne
    simpa only [Shell.childExits, hpending, Option.getD_some] using hne

/-- What the variables of `handle_pipe` are where the shell is at `pc`. -/
theorem Flags.pipe (F : Flags h s) {pc : ShellPc} (hpc : s.pc = pc) :
    Piped h pc.recordedWriter s.current_pipe_writer ∧
      Piped h pc.recordedReader s.current_pipe_reader :=
  ⟨hpc ▸ F.writer, hpc ▸ F.reader⟩

/-- A step of the shell between commands, or before a `fork`. -/
theorem Flags.advance (F : Flags h s) (hflag : s.is_foreground = false) {pc : ShellPc}
    (hflagged : pc.flagged = false) (hwriter : pc.recordedWriter = none)
    (hreader : pc.recordedReader = none)
    (hvars : s.current_pipe_writer = 0 ∧ s.current_pipe_reader = 0) :
    Flags (a :: h) { s with pc := pc } := by
  refine F.goto hflag rfl hflagged ?_ ?_ ⟨rfl, rfl, rfl⟩
  · rw [hwriter]; exact hvars.1
  · rw [hreader]; exact hvars.2

/-- **Every step but SIGINT keeps the flags.** -/
theorem flags_step (L : s.pc ≠ .exited → Flags h s) (H : History h s) (T : Table s)
    (ha : a ≠ .sigint) (hs : ShellStep s a s') : s'.pc ≠ .exited → Flags (a :: h) s' := by
  intro hlive
  cases moves_of_step hs with
  | line arglist _ hpc =>
    have F := L (by rw [hpc]; nofun)
    have hflag := F.lowered (by rw [hpc]; rfl)
    rcases processArglist_cases arglist with h | h | h | h <;> rw [h] <;>
      exact F.advance hflag rfl rfl rfl (F.pipe hpc)
  | exits => exact absurd rfl hlive
  | @raise pid _ hpc =>
    have F := L (by rw [hpc]; nofun)
    have hvars := F.pipe hpc
    exact ⟨fun _ => (F.spent (.inl (by rw [hpc]; rfl))).mono rfl (.inl rfl), nofun, fun _ _ => rfl,
      hvars.1.mono, hvars.2.mono⟩
  | @record pid _ hpc =>
    have F := L (by rw [hpc]; nofun)
    have hvars := F.pipe hpc
    refine ⟨fun hs => ?_, nofun, nofun, hvars.1.mono, hvars.2.mono⟩
    rcases hs with hs | hs
    · cases hs
    · rw [F.raised pid hpc] at hs; cases hs
  | foregroundEnds _ hpc hflag =>
    have F := L (by rw [hpc]; nofun)
    exact F.advance hflag rfl rfl rfl (F.pipe hpc)
  | realloc _ hpc =>
    have F := L (by rw [hpc]; nofun)
    exact F.advance (F.lowered (by rw [hpc]; rfl)) rfl rfl rfl (F.pipe hpc)
  | pipe _ hpc =>
    have F := L (by rw [hpc]; nofun)
    exact F.advance (F.lowered (by rw [hpc]; rfl)) rfl rfl rfl (F.pipe hpc)
  | recordWriter _ hpc =>
    have F := L (by rw [hpc]; nofun)
    exact F.goto (F.lowered (by rw [hpc]; rfl)) rfl rfl (.inl rfl) (F.pipe hpc).2 ⟨rfl, rfl, rfl⟩
  | recordReader _ hpc =>
    have F := L (by rw [hpc]; nofun)
    exact F.goto (F.lowered (by rw [hpc]; rfl)) rfl rfl (F.pipe hpc).1 (.inl rfl) ⟨rfl, rfl, rfl⟩
  | pipeEnds _ hpc hreader hwriter =>
    have F := L (by rw [hpc]; nofun)
    exact F.advance (F.lowered (by rw [hpc]; rfl)) rfl rfl rfl ⟨hwriter, hreader⟩
  | fork _ _ _ _ hpc =>
    rcases hpc with ⟨hpc, rfl⟩ | ⟨hpc, rfl⟩ | ⟨hpc, rfl⟩ | ⟨w, hpc, rfl⟩
    all_goals
      have F := L (by rw [hpc]; nofun)
      have hflag := F.lowered (by rw [hpc]; rfl)
      obtain ⟨hwriter, hreader⟩ := F.pipe hpc
    all_goals exact F.goto hflag rfl rfl hwriter hreader ⟨rfl, rfl, rfl⟩
  | childExits hpid => exact flags_childExits (L hlive) H T hpid
  | deliver _ hpending => exact flags_deliver (L hlive) hpending (H.pending _ hpending)
  | reap =>
    have F := L hlive
    exact ⟨fun hs => (F.spent hs).mono rfl (.inl rfl), F.lowered, F.raised, F.writer.reap,
      F.reader.reap⟩
  | reapDone =>
    have F := L hlive
    exact ⟨fun hs => (F.spent hs).mono rfl (.inl rfl), F.lowered, F.raised, F.writer.mono,
      F.reader.mono⟩
  | handlerReturns =>
    have F := L hlive
    exact ⟨fun hs => (F.spent hs).mono rfl (.inl rfl), F.lowered, F.raised, F.writer.mono,
      F.reader.mono⟩
  | sigint => exact absurd rfl ha

/-! ## Runs -/

theorem flags_prepare : Flags [] Shell.prepare :=
  ⟨fun _ => ⟨nofun, .inl rfl⟩, fun _ => rfl, nofun, rfl, rfl⟩

theorem history_prepare : History [] Shell.prepare :=
  ⟨nofun, nofun, nofun, nofun, nofun, nofun⟩

theorem flags_run (hr : Run ShellStep Shell.prepare h s) (ha : .sigint ∉ h)
    (hfresh : (forkedPids h).Nodup) : History h s ∧ (s.pc ≠ .exited → Flags h s) := by
  induction hr with
  | nil => exact ⟨history_prepare, fun _ => flags_prepare⟩
  | @step h s s' a hr hs ih =>
    have hfresh' : (forkedPids h).Nodup := by
      refine hfresh.sublist ?_
      exact (List.sublist_cons_self a h).filterMap _
    obtain ⟨H, L⟩ := ih (fun hmem => ha (List.mem_cons_of_mem _ hmem)) hfresh'
    refine ⟨history_step H hfresh hs, flags_step L H (table_run hr) (fun heq => ha ?_) hs⟩
    rw [heq]
    exact List.mem_cons_self ..

/-- The children of the command that the shell is in. -/
def ShellPc.children : ShellPc → List Nat
  | .raiseForeground pid | .recordForeground pid | .waitForeground pid => [pid]
  | .recordWriter pid_writer | .forkReader pid_writer => [pid_writer]
  | .recordReader pid_writer pid_reader | .waitPipe pid_writer pid_reader => [pid_writer, pid_reader]
  | _ => []

theorem children_ne_zero (hr : Run ShellStep Shell.prepare h s) : ∀ pid ∈ s.pc.children, pid ≠ 0 := by
  refine hr.invariant (P := fun s : Shell => ∀ pid ∈ s.pc.children, pid ≠ 0)
    (fun _ hmem => by cases hmem) fun s a s' I hs => ?_
  cases moves_of_step hs with
  | line arglist =>
    rcases processArglist_cases arglist with h | h | h | h <;> simp [h, ShellPc.children]
  | raise _ hpc => rw [hpc] at I; exact I
  | record _ hpc => rw [hpc] at I; exact I
  | recordWriter _ hpc => rw [hpc] at I; exact I
  | recordReader _ hpc => rw [hpc] at I; exact I
  | fork _ h0 _ _ hpc =>
    rcases hpc with ⟨hpc, rfl⟩ | ⟨hpc, rfl⟩ | ⟨hpc, rfl⟩ | ⟨w, hpc, rfl⟩ <;> rw [hpc] at I <;>
      simp_all [ShellPc.children]
  | childExits => exact I
  | deliver => exact I
  | reap => exact I
  | reapDone => exact I
  | handlerReturns => exact I
  | sigint => exact I
  | _ => exact fun _ hmem => by cases hmem

/-- A variable that was recorded and is clear. -/
theorem Piped.reaped {pid var : Nat} (P : Piped h (some pid) var) (hpid : pid ≠ 0) (hvar : var = 0) :
    .reap pid ∈ h := by
  rcases P with heq | ⟨-, hmem⟩
  · exact absurd (heq.symm.trans hvar) hpid
  · exact hmem

/-- A step out of a wait finds the flags lowered. -/
theorem lowered_of_return (hs : ShellStep s a s') (hend : s'.pc = .readLine) :
    (∀ pid, s.pc = .waitForeground pid → s.is_foreground = false) ∧
      ∀ w r, s.pc = .waitPipe w r → s.current_pipe_writer = 0 ∧ s.current_pipe_reader = 0 := by
  have elsewhere : ∀ {pc : ShellPc}, s.pc = pc → pc.waiting = false → pc.recordedReader = none →
      (∀ pid, s.pc = .waitForeground pid → s.is_foreground = false) ∧
        ∀ w r, s.pc = .waitPipe w r → s.current_pipe_writer = 0 ∧ s.current_pipe_reader = 0 := by
    rintro _ rfl hwait hread
    refine ⟨fun pid hpc => ?_, fun w r hpc => ?_⟩
    · rw [hpc] at hwait; cases hwait
    · rw [hpc] at hread; cases hread
  cases moves_of_step hs with
  | line _ _ hpc => exact elsewhere hpc rfl rfl
  | foregroundEnds _ hpc hflag => exact ⟨fun _ _ => hflag, fun w r h => (by rw [hpc] at h; cases h)⟩
  | pipeEnds _ hpc hreader hwriter =>
    exact ⟨fun pid h => (by rw [hpc] at h; cases h), fun _ _ _ => ⟨hwriter, hreader⟩⟩
  | fork _ _ _ _ hpc =>
    rcases hpc with ⟨hpc, -⟩ | ⟨hpc, -⟩ | ⟨hpc, -⟩ | ⟨_, hpc, -⟩ <;> exact elsewhere hpc rfl rfl
  | childExits => exact elsewhere hend rfl rfl
  | deliver => exact elsewhere hend rfl rfl
  | reap => exact elsewhere hend rfl rfl
  | reapDone => exact elsewhere hend rfl rfl
  | handlerReturns => exact elsewhere hend rfl rfl
  | sigint => exact elsewhere hend rfl rfl
  | _ => cases hend

/-- What can lower `is_foreground`. -/
theorem deliver_of_lowered (hs : ShellStep s a s') (ha : a ≠ .sigint) (hflag : s.is_foreground = true)
    (hflag' : s'.is_foreground = false) : a = .deliver ∧ s.pending = some s.current_fg_id := by
  cases moves_of_step hs with
  | raise => cases hflag'
  | @deliver si_pid _ hpending =>
    refine ⟨rfl, ?_⟩
    simp only [Shell.deliver, hflag, Bool.true_and, Bool.not_eq_false', decide_eq_true_eq] at hflag'
    rw [hpending, hflag']
  | sigint => exact absurd rfl ha
  | _ => exact absurd (hflag.symm.trans hflag') Bool.false_ne_true.symm

/-- What can clear the variables of `handle_pipe` in its wait loop. -/
theorem reap_of_cleared (hs : ShellStep s a s') (ha : a ≠ .sigint) {w r : Nat}
    (hpc : s.pc = .waitPipe w r) :
    (s.current_pipe_writer ≠ 0 → s'.current_pipe_writer = 0 → a = .reap s.current_pipe_writer) ∧
      (s.current_pipe_reader ≠ 0 → s'.current_pipe_reader = 0 → a = .reap s.current_pipe_reader) := by
  cases moves_of_step hs with
  | recordWriter _ hpc' => rw [hpc] at hpc'; cases hpc'
  | recordReader _ hpc' => rw [hpc] at hpc'; cases hpc'
  | @reap pid _ _ =>
    constructor <;> intro h0 h1 <;> simp only [Shell.reap] at h1 <;> split at h1
    · rename_i heq; rw [heq]
    · exact absurd h1 h0
    · rename_i heq; rw [heq]
    · exact absurd h1 h0
  | sigint => exact absurd rfl ha
  | _ => exact ⟨fun h0 h1 => absurd h1 h0, fun h0 h1 => absurd h1 h0⟩

/-- **The shell does not return early.**  In a run without SIGINT in which no pid is used twice, it
returns from a foreground command or a redirection only after the child has terminated, from a
pipeline only after both children have terminated and been reaped; and only the signal of the child
itself, or its being reaped, ends a wait. -/
theorem no_early_return (hr : Run ShellStep Shell.prepare h s) (ha : .sigint ∉ h)
    (hfresh : (forkedPids h).Nodup) (hs : ShellStep s a s') (hsigint : a ≠ .sigint) :
    (∀ pid, s.pc = .waitForeground pid → s'.pc = .readLine → .childExits pid ∈ h) ∧
    (∀ w r, s.pc = .waitPipe w r → s'.pc = .readLine →
      (.childExits w ∈ h ∧ .reap w ∈ h) ∧ .childExits r ∈ h ∧ .reap r ∈ h) ∧
    (∀ pid, s.pc = .waitForeground pid → s.is_foreground = true → s'.is_foreground = false →
      a = .deliver ∧ s.pending = some pid ∧ .childExits pid ∈ h) ∧
    ∀ w r, s.pc = .waitPipe w r →
      (s.current_pipe_writer ≠ 0 → s'.current_pipe_writer = 0 → a = .reap w) ∧
      (s.current_pipe_reader ≠ 0 → s'.current_pipe_reader = 0 → a = .reap r) := by
  obtain ⟨H, L⟩ := flags_run hr ha hfresh
  refine ⟨fun pid hpc hend => ?_, fun w r hpc hend => ?_, fun pid hpc hflag hflag' => ?_,
    fun w r hpc => ?_⟩
  · have F := L (by rw [hpc]; nofun)
    have hspent := F.spent (.inr ((lowered_of_return hs hend).1 pid hpc))
    have hnonzero := children_ne_zero hr pid (by rw [hpc]; exact List.mem_cons_self ..)
    rw [Spent, current_of_wait hr pid hpc] at hspent
    exact hspent.2.resolve_left hnonzero
  · have F := L (by rw [hpc]; nofun)
    obtain ⟨hwriter, hreader⟩ := (lowered_of_return hs hend).2 w r hpc
    have hne := children_ne_zero hr
    rw [hpc] at hne
    have hw := (F.pipe hpc).1.reaped (hne w (by simp [ShellPc.children])) hwriter
    have hr := (F.pipe hpc).2.reaped (hne r (by simp [ShellPc.children])) hreader
    exact ⟨⟨H.reaped w hw, hw⟩, H.reaped r hr, hr⟩
  · obtain ⟨rfl, hpending⟩ := deliver_of_lowered hs hsigint hflag hflag'
    rw [current_of_wait hr pid hpc] at hpending
    exact ⟨rfl, hpending, H.pending pid hpending⟩
  · have F := L (by rw [hpc]; nofun)
    obtain ⟨hwriter, hreader⟩ := F.pipe hpc
    obtain ⟨hw, hr⟩ := reap_of_cleared hs hsigint hpc
    refine ⟨fun h0 h1 => ?_, fun h0 h1 => ?_⟩
    · rcases hwriter with heq | ⟨heq, -⟩
      · rw [hw h0 h1, heq]
      · exact absurd heq h0
    · rcases hreader with heq | ⟨heq, -⟩
      · rw [hr h0 h1, heq]
      · exact absurd heq h0

/-- A foreground command from its line to its return. -/
def foregroundSession : List ShellEvent :=
  [.handlerReturns, .reapDone, .reap 1, .deliver, .childExits 1, .step, .step, .fork 1, .line [[97]]]

theorem no_early_return_foreground : ∃ s s', Run ShellStep Shell.prepare foregroundSession s ∧
    ShellStep s .step s' ∧ s'.pc = .readLine ∧ .childExits 1 ∈ foregroundSession := by
  have he : (Run.exec Shell.next Shell.prepare foregroundSession).any (fun s =>
      s.handler = .idle ∧ s.pc = .waitForeground 1 ∧ s.is_foreground = false) = true := by
    decide
  obtain ⟨s, hr, hs⟩ := run_of_exec he
  obtain ⟨hidle, hpc, hflag⟩ := of_decide_eq_true hs
  have hstep : ShellStep s .step { s with pc := .readLine } := by
    simp [ShellStep, Shell.next, Shell.mainNext, hidle, hpc, hflag]
  exact ⟨s, _, hr, hstep, rfl,
    (no_early_return hr (by decide) (by decide) hstep (by simp)).1 1 hpc rfl⟩

end OSCourse.Myshell
