import OSCourse.Myshell.Pipeline

/-!
# The end of a foreground command

The handler clears `is_foreground` if the pid of the signal is `current_fg_id`, and the shell sets
both after `fork` has returned.  `handle_redirect` waits in the same way.

* `LostForeground` — the shell waits for a child that was reaped, and no SIGCHLD will tell.
* `Armed` — the shell waits for the child, or will without looking whether it has terminated.
* `Signalled` — the condition on one step: the child's own SIGCHLD stands for its termination, and is
  delivered when the handler can tell that it is the child's.
* `foreground_not_lost` — **in a run that meets the condition no foreground command is lost, and a
  step that does not is followed by a run to where one is**.
-/

set_option autoImplicit false

namespace OSCourse.Myshell

open Transition

variable {s s' : Shell} {a : ShellEvent} {h : List ShellEvent} {p : Nat}

/-- The shell waits for a child that was reaped, and the pending signal is not that child's. -/
def LostForeground (s : Shell) : Prop :=
  ∃ pid, s.pc = .waitForeground pid ∧ s.is_foreground = true ∧ s.Reaped pid ∧ s.pending ≠ some pid

/-- The child that the shell waits for, or is about to wait for. -/
def ShellPc.awaited : ShellPc → Option Nat
  | .raiseForeground pid | .recordForeground pid | .waitForeground pid => some pid
  | _ => none

/-- Nothing but the signal of `pid` ends the wait that the shell is in or goes into. -/
def Armed (s : Shell) (pid : Nat) : Prop :=
  s.pc.awaited = some pid ∧ (s.is_foreground = true ∨ s.pc = .raiseForeground pid)

/-- The condition on one step. -/
def Signalled (s : Shell) : ShellEvent → Prop
  | .childExits pid => Armed s pid → s.pending = none ∨ s.pending = some pid
  | .deliver => ∀ pid, s.pending = some pid → Armed s pid → pid ∈ s.running ∨
      s.pc ≠ .raiseForeground pid ∧ s.current_fg_id = pid
  | _ => True

instance (s : Shell) (pid : Nat) : Decidable (Armed s pid) := inferInstanceAs (Decidable (_ ∧ _))

instance (s : Shell) : (a : ShellEvent) → Decidable (Signalled s a)
  | .childExits pid => inferInstanceAs (Decidable (Armed s pid → _))
  | .deliver => inferInstanceAs (Decidable (∀ pid ∈ s.pending, Armed s pid → pid ∈ s.running ∨
      s.pc ≠ .raiseForeground pid ∧ s.current_fg_id = pid))
  | .line _ | .endOfInput | .step | .fork _ | .fails | .reap _ | .reapDone | .handlerReturns
  | .sigint => .isTrue trivial

/-- The child that the shell waits for runs, or its signal is pending. -/
def Awaited (s : Shell) : Prop := ∀ pid, Armed s pid → pid ∈ s.running ∨ s.pending = some pid

theorem Awaited.not_lost (W : Awaited s) : ¬LostForeground s := by
  rintro ⟨pid, hpc, hflag, hreaped, hpending⟩
  rcases W pid ⟨by rw [hpc]; rfl, .inl hflag⟩ with h | h
  · exact hreaped.1 h
  · exact hpending h

/-- At a point where no child is waited for. -/
theorem awaited_of_none (hpc : s.pc.awaited = none) : Awaited s := by
  intro pid hp
  rw [hp.1] at hpc
  cases hpc

theorem awaited_childExits {pid : Nat} (W : Awaited s)
    (hc : Armed s pid → s.pending = none ∨ s.pending = some pid) : Awaited (s.childExits pid) := by
  intro q hq
  have hq : Armed s q := hq
  by_cases hqp : q = pid
  · subst hqp
    refine .inr ?_
    rcases hc hq with hp | hp <;> simp [Shell.childExits, hp]
  · rcases W q hq with h | h
    · exact .inl (by simp [Shell.childExits, h, hqp])
    · exact .inr (by simp [Shell.childExits, h])

theorem awaited_deliver {si_pid : Nat} (W : Awaited s) (hpending : s.pending = some si_pid)
    (hc : Signalled s .deliver) : Awaited (s.deliver si_pid) := by
  rintro q ⟨hpc, hq⟩
  refine .inl ?_
  have harmed : Armed s q := by
    refine ⟨hpc, hq.imp_left fun hflag => ?_⟩
    simp only [Shell.deliver, Bool.and_eq_true] at hflag
    exact hflag.1
  rcases W q harmed with h | h
  · exact h
  · cases Option.some.inj (h.symm.trans hpending)
    rcases hc _ h harmed with hrunning | ⟨hraise, hfg⟩
    · exact hrunning
    · rcases hq with hflag | hq
      · simp [Shell.deliver, hfg] at hflag
      · exact absurd hq hraise

theorem processArglist_awaited (arglist : List Word) : (processArglist arglist).awaited = none := by
  rcases processArglist_cases arglist with h | h | h | h <;> rw [h] <;> rfl

/-- **Every step that meets the condition keeps the wait.** -/
theorem awaited_step (W : Awaited s) (hc : Signalled s a) (hs : ShellStep s a s') : Awaited s' := by
  cases moves_of_step hs with
  | line arglist => exact awaited_of_none (processArglist_awaited arglist)
  | @raise pid _ hpc =>
    intro q hq
    cases hq.1
    exact W pid ⟨by rw [hpc]; rfl, .inr hpc⟩
  | @record pid _ hpc =>
    intro q hq
    cases hq.1
    rcases hq.2 with hflag | hq
    · exact W pid ⟨by rw [hpc]; rfl, .inl hflag⟩
    · cases hq
  | @fork pid pc _ _ _ _ hpc =>
    rcases hpc with ⟨-, rfl⟩ | ⟨-, rfl⟩ | ⟨-, rfl⟩ | ⟨_, -, rfl⟩
    · intro q hq
      cases hq.1
      exact .inl (List.mem_cons_self ..)
    all_goals exact awaited_of_none rfl
  | childExits => exact awaited_childExits W hc
  | deliver _ hpending => exact awaited_deliver W hpending hc
  | reap => exact W
  | reapDone => exact W
  | handlerReturns => exact W
  | sigint =>
    intro q hq
    rcases hq.2 with hflag | hpc
    · cases hflag
    · exact W q ⟨hq.1, .inr hpc⟩
  | _ => exact awaited_of_none rfl

/-- In its wait loop the shell has recorded the child. -/
theorem current_of_wait (hr : Run ShellStep Shell.prepare h s) :
    ∀ pid, s.pc = .waitForeground pid → s.current_fg_id = pid := by
  refine hr.invariant (P := fun s : Shell => ∀ pid, s.pc = .waitForeground pid →
    s.current_fg_id = pid) (fun _ hpc => by cases hpc) fun s a s' hrec hs pid hpc => ?_
  cases moves_of_step hs with
  | line arglist =>
    have hnone := processArglist_awaited arglist
    rw [show processArglist arglist = .waitForeground pid from hpc] at hnone
    cases hnone
  | record => cases hpc; rfl
  | fork _ _ _ _ hpc' =>
    rcases hpc' with ⟨-, rfl⟩ | ⟨-, rfl⟩ | ⟨-, rfl⟩ | ⟨_, -, rfl⟩ <;> cases hpc
  | childExits => exact hrec pid hpc
  | deliver => exact hrec pid hpc
  | reap => exact hrec pid hpc
  | reapDone => exact hrec pid hpc
  | handlerReturns => exact hrec pid hpc
  | sigint => exact hrec pid hpc
  | _ => cases hpc

/-! ## Where the condition is not met -/

/-- `s'` is `s` gone on into the wait for `p`. -/
structure Waits (s s' : Shell) (p : Nat) : Prop where
  pc : s'.pc = .waitForeground p
  is_foreground : s'.is_foreground = true
  current_fg_id : s'.current_fg_id = p
  handler : s'.handler = s.handler
  running : s'.running = s.running
  zombies : s'.zombies = s.zombies
  pending : s'.pending = s.pending

theorem waits_of_record (hidle : s.handler = .idle) (hpc : s.pc = .recordForeground p)
    (hflag : s.is_foreground = true) : ∃ h' s', Run ShellStep s h' s' ∧ Waits s s' p := by
  have hstep : ShellStep s .step { s with current_fg_id := p, pc := .waitForeground p } := by
    simp [ShellStep, Shell.next, Shell.mainNext, hidle, hpc]
  exact ⟨_, _, Run.nil.step hstep, rfl, hflag, rfl, rfl, rfl, rfl, rfl⟩

/-- The rest of the way into the wait. -/
theorem waits_of_armed (hidle : s.handler = .idle) (harmed : Armed s p)
    (hfg : s.pc = .waitForeground p → s.current_fg_id = p) :
    ∃ h' s', Run ShellStep s h' s' ∧ Waits s s' p := by
  obtain ⟨hpc, hflag⟩ := harmed
  cases hpc' : s.pc with
  | raiseForeground q =>
    rw [hpc'] at hpc
    cases hpc
    have hraise : ShellStep s .step { s with is_foreground := true, pc := .recordForeground p } := by
      simp [ShellStep, Shell.next, Shell.mainNext, hidle, hpc']
    obtain ⟨h', s', hr, W⟩ := waits_of_record (s := { s with
      is_foreground := true, pc := .recordForeground p }) hidle rfl rfl
    exact ⟨_, s', (Run.nil.step hraise).trans hr, W.pc, W.is_foreground, W.current_fg_id, W.handler,
      W.running, W.zombies, W.pending⟩
  | recordForeground q =>
    rw [hpc'] at hpc hflag
    cases hpc
    exact waits_of_record hidle hpc' (hflag.resolve_right (by simp))
  | waitForeground q =>
    rw [hpc'] at hpc hflag
    cases hpc
    exact ⟨[], s, .nil, hpc', hflag.resolve_right (by simp), hfg hpc', rfl, rfl, rfl, rfl⟩
  | _ => rw [hpc'] at hpc; cases hpc

/-- The handler reaps the child without a signal that is the child's. -/
theorem lost_of_reaping (hreap : s.handler = .reaping) (harmed : Armed s p)
    (hfg : s.pc = .waitForeground p → s.current_fg_id = p) (hrunning : p ∉ s.running)
    (hpending : s.pending ≠ some p) : ∃ h' s', Run ShellStep s h' s' ∧ LostForeground s' := by
  obtain ⟨h₁, s₁, hr₁, D⟩ := drain hreap
  have harmed₁ : Armed s₁ p := by
    rw [Armed, D.pc, D.is_foreground]
    exact harmed
  obtain ⟨h₂, s₂, hr₂, W⟩ := waits_of_armed D.handler harmed₁ fun hpc => by
    rw [D.current_fg_id]
    exact hfg (D.pc.symm.trans hpc)
  refine ⟨_, s₂, hr₁.trans hr₂, p, W.pc, W.is_foreground, ⟨?_, ?_⟩, ?_⟩
  · rw [W.running, D.running]; exact hrunning
  · rw [W.zombies, D.zombies]; exact List.not_mem_nil
  · rw [W.pending, D.pending]; exact hpending

/-- The shell goes on into the wait; then another child's signal lets the handler reap this one. -/
theorem lost_of_merged {q : Nat} (hidle : s.handler = .idle) (harmed : Armed s p)
    (hfg : s.pc = .waitForeground p → s.current_fg_id = p) (hrunning : p ∉ s.running)
    (hpending : s.pending = some q) (hqp : q ≠ p) :
    ∃ h' s', Run ShellStep s h' s' ∧ LostForeground s' := by
  obtain ⟨h₁, s₁, hr₁, W⟩ := waits_of_armed hidle harmed hfg
  have hdeliver : ShellStep s₁ .deliver (s₁.deliver q) := by
    simp [ShellStep, Shell.next, W.pc, W.handler, hidle, W.pending, hpending]
  have harmed₁ : Armed (s₁.deliver q) p := by
    refine ⟨by rw [Shell.deliver, W.pc]; rfl, .inl ?_⟩
    simp [Shell.deliver, W.is_foreground, W.current_fg_id, hqp]
  obtain ⟨h₂, s₂, hr₂, hlost⟩ := lost_of_reaping (s := s₁.deliver q) rfl harmed₁
    (fun _ => W.current_fg_id) (by rw [Shell.deliver, W.running]; exact hrunning) (by simp [Shell.deliver])
  exact ⟨_, s₂, (hr₁.step hdeliver).trans hr₂, hlost⟩

theorem lost_of_childExits (hfg : s.pc = .waitForeground p → s.current_fg_id = p)
    (harmed : Armed s p) {q : Nat} (hpending : s.pending = some q) (hqp : q ≠ p) :
    ∃ h' s', Run ShellStep (s.childExits p) h' s' ∧ LostForeground s' := by
  have hrunning : p ∉ (s.childExits p).running := by simp [Shell.childExits]
  have hpending' : (s.childExits p).pending = some q := by simp [Shell.childExits, hpending]
  cases hhandler : s.handler with
  | idle => exact lost_of_merged hhandler harmed hfg hrunning hpending' hqp
  | reaping =>
    exact lost_of_reaping hhandler harmed hfg hrunning fun h =>
      hqp (Option.some.inj (hpending'.symm.trans h))
  | returning =>
    have hreturn : ShellStep (s.childExits p) .handlerReturns
        { s.childExits p with handler := .idle } := by
      simp [ShellStep, Shell.next, Shell.childExits, hhandler]
    obtain ⟨h', s', hr, hlost⟩ := lost_of_merged (s := { s.childExits p with handler := .idle }) rfl
      harmed hfg hrunning hpending' hqp
    exact ⟨_, s', (Run.nil.step hreturn).trans hr, hlost⟩

theorem lost_of_deliver (hfg : s.pc = .waitForeground p → s.current_fg_id = p) (harmed : Armed s p)
    (hrunning : p ∉ s.running) (hc : s.pc ≠ .raiseForeground p → s.current_fg_id ≠ p) :
    ∃ h' s', Run ShellStep (s.deliver p) h' s' ∧ LostForeground s' := by
  have harmed' : Armed (s.deliver p) p := by
    refine ⟨harmed.1, ?_⟩
    by_cases hraise : s.pc = .raiseForeground p
    · exact .inr hraise
    · have hflag := harmed.2.resolve_right hraise
      have hne : p ≠ s.current_fg_id := fun heq => hc hraise heq.symm
      exact .inl (by simp [Shell.deliver, hflag, hne])
  exact lost_of_reaping rfl harmed' hfg hrunning nofun

/-! ## Runs -/

/-- **The end of a foreground command is not lost** in a run in which SIGCHLD is pending for no other
child when the child of the command terminates, and is delivered after its pid has been recorded;
and after a step that does not meet this, a run leads to where the shell waits for ever. -/
theorem foreground_not_lost (hr : Run ShellStep Shell.prepare h s) :
    (Run.EachStep ShellStep Shell.prepare Signalled h → ¬LostForeground s) ∧
      ∀ a s', ShellStep s a s' → ¬Signalled s a →
        ∃ h' s'', Run ShellStep s' h' s'' ∧ LostForeground s'' := by
  constructor
  · intro hq
    have W : Awaited s := hr.invariantOn (awaited_of_none (s := Shell.prepare) rfl)
      (fun _ _ _ W hc hs => awaited_step W hc hs) hq
    exact W.not_lost
  · intro a s' hs hc
    have hfg := current_of_wait hr
    cases moves_of_step hs with
    | @childExits pid _ =>
      simp only [Signalled, Classical.not_imp, not_or] at hc
      obtain ⟨harmed, hsome, hne⟩ := hc
      obtain ⟨q, hpending⟩ := Option.ne_none_iff_exists'.1 hsome
      refine lost_of_childExits (hfg pid) harmed hpending fun heq => hne ?_
      rw [hpending, heq]
    | @deliver si_pid _ hpending =>
      simp only [Signalled, not_forall, not_or, not_and] at hc
      obtain ⟨pid, hpid, harmed, hrunning, hc⟩ := hc
      cases Option.some.inj (hpid.symm.trans hpending)
      exact lost_of_deliver (hfg _) harmed hrunning hc
    | exits _ ha =>
      rcases ha with rfl | rfl <;> exact absurd trivial hc
    | _ => exact absurd trivial hc

/-- The child of a command terminates and is reaped, and the shell reads the next line. -/
theorem foreground_not_lost_ends : ∃ s, Run ShellStep Shell.prepare
    [.step, .handlerReturns, .reapDone, .reap 1, .deliver, .childExits 1, .step, .step, .fork 1,
      .line [[97]]] s ∧ s.pc = .readLine ∧ s.zombies = [] ∧ ¬LostForeground s := by
  have he : (Run.execOn Shell.next Signalled Shell.prepare
      [.step, .handlerReturns, .reapDone, .reap 1, .deliver, .childExits 1, .step, .step, .fork 1,
        .line [[97]]]).any (fun s => s.pc = .readLine ∧ s.zombies = []) = true := by
    decide
  obtain ⟨s, hr, hq, hs⟩ := runOn_of_exec he
  obtain ⟨hpc, hzombies⟩ := of_decide_eq_true hs
  exact ⟨s, hr, hpc, hzombies, (foreground_not_lost hr).1 hq⟩

/-- The child terminates and is reaped before its pid is recorded. -/
theorem foreground_lost : ¬∀ (h : List ShellEvent) (s : Shell), Run ShellStep Shell.prepare h s →
    ¬LostForeground s := by
  intro hclaim
  have he : (Run.exec Shell.next Shell.prepare
      [.step, .step, .handlerReturns, .reapDone, .reap 1, .deliver, .childExits 1, .fork 1,
        .line [[97]]]).any (fun s => s.pc = .waitForeground 1 ∧ s.is_foreground = true ∧
          s.running = [] ∧ s.zombies = [] ∧ s.pending = none) = true := by
    decide
  obtain ⟨s, hr, hs⟩ := run_of_exec he
  obtain ⟨hpc, hflag, hrunning, hzombies, hpending⟩ := of_decide_eq_true hs
  refine hclaim _ s hr ⟨1, hpc, hflag, ?_, ?_⟩
  · rw [Shell.Reaped, hrunning, hzombies]
    decide
  · rw [hpending]
    simp

end OSCourse.Myshell
