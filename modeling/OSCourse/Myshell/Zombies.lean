import OSCourse.Myshell.Shell

/-!
# No zombie is forgotten

* `Accounted` — while there is a zombie, SIGCHLD is pending or the handler is still in its loop.
* `zombies_accounted` — **this holds in every run**, however many terminations one signal stands for.
* `drain` — from its loop, the handler can reap all zombies and return; `Drained` is what that leaves.
-/

set_option autoImplicit false

namespace OSCourse.Myshell

open Transition

variable {s s' : Shell} {a : ShellEvent} {h : List ShellEvent}

def Accounted (s : Shell) : Prop := s.zombies ≠ [] → s.pending ≠ none ∨ s.handler = .reaping

/-- **Every step keeps the account.** -/
theorem accounted_step (A : Accounted s) (hs : ShellStep s a s') : Accounted s' := by
  cases moves_of_step hs with
  | childExits => exact fun _ => .inl nofun
  | deliver => exact fun _ => .inr rfl
  | reap hreap _ => exact fun _ => .inr hreap
  | reapDone _ hnone => exact fun hz => absurd hnone hz
  | handlerReturns hret =>
    refine fun hz => .inl ((A hz).resolve_right fun hreap => ?_)
    rw [hret] at hreap; cases hreap
  | _ => exact A

/-- **Every zombie is accounted for**: SIGCHLD is pending, or the handler has not yet seen its last
`waitpid`; while neither is so there is none. -/
theorem zombies_accounted (hr : Run ShellStep Shell.prepare h s) :
    (s.zombies ≠ [] → s.pending ≠ none ∨ s.handler = .reaping) ∧
      (s.pending = none → s.handler = .idle → s.zombies = []) := by
  have A : Accounted s := hr.invariant (fun hz => absurd rfl hz) fun _ _ _ A hs => accounted_step A hs
  refine ⟨A, fun hpending hidle => by_contra fun hz => ?_⟩
  rcases A hz with hp | hreap
  · exact hp hpending
  · rw [hidle] at hreap; cases hreap

/-- Two background children terminate; one SIGCHLD is pending for both. -/
theorem zombies_accounted_merged : ∃ s, Run ShellStep Shell.prepare
    [.childExits 2, .childExits 1, .fork 2, .step, .line [[97], [38]], .fork 1, .step,
      .line [[97], [38]]] s ∧ s.zombies = [2, 1] ∧ (s.pending ≠ none ∨ s.handler = .reaping) := by
  have he : (Run.exec Shell.next Shell.prepare
      [.childExits 2, .childExits 1, .fork 2, .step, .line [[97], [38]], .fork 1, .step,
        .line [[97], [38]]]).any (fun s => s.zombies = [2, 1]) = true := by
    decide
  obtain ⟨s, hr, hs⟩ := run_of_exec he
  have hz : s.zombies = [2, 1] := of_decide_eq_true hs
  exact ⟨s, hr, hz, (zombies_accounted hr).1 (by rw [hz]; exact nofun)⟩

/-! ## The handler to its end -/

/-- The handler has reaped all zombies and returned; nothing else happened. -/
structure Drained (s s' : Shell) : Prop where
  handler : s'.handler = .idle
  zombies : s'.zombies = []
  pc : s'.pc = s.pc
  is_foreground : s'.is_foreground = s.is_foreground
  current_fg_id : s'.current_fg_id = s.current_fg_id
  running : s'.running = s.running
  pending : s'.pending = s.pending

/-- The handler can run to its end. -/
theorem drain (hreap : s.handler = .reaping) : ∃ h' s', Run ShellStep s h' s' ∧ Drained s s' := by
  induction hn : s.zombies.length using Nat.strong_induction_on generalizing s with
  | _ n ih =>
    cases hz : s.zombies with
    | nil =>
      have hdone : ShellStep s .reapDone { s with handler := .returning } := if_pos ⟨hreap, hz⟩
      have hreturn : ShellStep { s with handler := .returning } .handlerReturns
          { s with handler := .idle } := by simp [ShellStep, Shell.next]
      exact ⟨_, _, (Run.nil.step hdone).step hreturn, rfl, hz, rfl, rfl, rfl, rfl, rfl⟩
    | cons pid rest =>
      have hmem : pid ∈ s.zombies := by rw [hz]; exact List.mem_cons_self ..
      have hlt : (s.reap pid).zombies.length < n := by
        rw [← hn]
        exact List.length_filter_lt_length_iff_exists.2 ⟨pid, hmem, by simp⟩
      obtain ⟨h', s', hr, D⟩ := ih _ hlt (s := s.reap pid) hreap rfl
      have hstep : ShellStep s (.reap pid) (s.reap pid) := if_pos ⟨hreap, hmem⟩
      exact ⟨h' ++ [.reap pid], s', (Run.nil.step hstep).trans hr, D.handler, D.zombies, D.pc,
        D.is_foreground, D.current_fg_id, D.running, D.pending⟩

end OSCourse.Myshell
