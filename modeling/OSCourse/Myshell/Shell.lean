import OSCourse.Lib.Run

/-!
# The shell (`myshell.c`, `shell.c`)

The shell forks a child for every command and waits for it by spinning on flags that its SIGCHLD
handler clears.  A step is one statement of the shell, one return of a system call, one round of the
handler's loop, or an event outside: a child that terminates, the delivery of a signal.  SIGCHLD is a
standard signal: one instance is pending at most, with the pid of the first termination since the
last delivery, and it is blocked while its handler runs.  The statements of the shell wait while a
handler runs.  A child runs until it terminates; it is not stopped or continued.

* `findCommandType`, `processArglist` — what kind of command a line is, and where its code begins.
* `Shell.next` — the step.
* `Moves` — what each step does (`moves_of_step`).
-/

set_option autoImplicit false

namespace OSCourse.Myshell

open Transition

/-- A word of the line, without blanks; `strtok` returns no empty one. -/
abbrev Word := List UInt8

inductive CommandType where
  | foreground
  | background
  | pipe
  | redirect
  deriving DecidableEq, Repr

structure CommandDscr where
  type : CommandType
  shell_symbol_loc : Int
  deriving DecidableEq, Repr

/-- The loop of `find_command_type`, from the word at `i` on. -/
def findCommandTypeFrom (i : Nat) : List Word → CommandDscr
  | [] => ⟨.foreground, -1⟩
  | arg :: arglist =>
    if arg.head? = some 124 then ⟨.pipe, i⟩
    else if arg.head? = some 62 then ⟨.redirect, i⟩
    else if arg.head? = some 38 then ⟨.background, i⟩
    else findCommandTypeFrom (i + 1) arglist

/-- `find_command_type`. -/
def findCommandType (arglist : List Word) : CommandDscr := findCommandTypeFrom 0 arglist

/-- Where the shell is. -/
inductive ShellPc where
  /-- `getline` in `main` -/
  | readLine
  /-- the `fork` of `handle_foreground` and of `handle_redirect` -/
  | forkForeground
  /-- before `is_foreground = 1` -/
  | raiseForeground (pid : Nat)
  /-- before `current_fg_id = pid` -/
  | recordForeground (pid : Nat)
  /-- `while (is_foreground)` -/
  | waitForeground (pid : Nat)
  /-- the `realloc` of `handle_background` -/
  | realloc
  /-- the `fork` of `handle_background` -/
  | forkBackground
  /-- the `pipe` of `handle_pipe` -/
  | pipe
  /-- the first `fork` of `handle_pipe` -/
  | forkWriter
  /-- before `current_pipe_writer = pid_writer` -/
  | recordWriter (pid_writer : Nat)
  /-- the second `fork` of `handle_pipe` -/
  | forkReader (pid_writer : Nat)
  /-- before `current_pipe_reader = pid_reader` -/
  | recordReader (pid_writer pid_reader : Nat)
  /-- `while (current_pipe_reader || current_pipe_writer)` -/
  | waitPipe (pid_writer pid_reader : Nat)
  | exited
  deriving DecidableEq, Repr

/-- `process_arglist`, and the test of `main` before it: where the code of the command begins. -/
def processArglist (arglist : List Word) : ShellPc :=
  if arglist = [] then .readLine
  else
    match (findCommandType arglist).type with
    | .foreground | .redirect => .forkForeground
    | .background => .realloc
    | .pipe => .pipe

theorem processArglist_cases (arglist : List Word) : processArglist arglist = .readLine ∨
    processArglist arglist = .forkForeground ∨ processArglist arglist = .realloc ∨
      processArglist arglist = .pipe := by
  unfold processArglist
  split
  · exact .inl rfl
  · split
    · exact .inr (.inl rfl)
    · exact .inr (.inl rfl)
    · exact .inr (.inr (.inl rfl))
    · exact .inr (.inr (.inr rfl))

/-- Where `sigchld_handler` is. -/
inductive Handler where
  /-- it does not run -/
  | idle
  /-- in the loop around `waitpid` -/
  | reaping
  /-- after the `waitpid` that returned no child -/
  | returning
  deriving DecidableEq, Repr

/-- The globals, and what the kernel knows of the shell and its children. -/
structure Shell where
  is_foreground : Bool
  current_pipe_writer : Nat
  current_pipe_reader : Nat
  current_fg_id : Nat
  pc : ShellPc
  handler : Handler
  /-- children that have not terminated -/
  running : List Nat
  /-- children that have terminated and were not reaped -/
  zombies : List Nat
  /-- the `si_pid` of the pending SIGCHLD -/
  pending : Option Nat
  deriving DecidableEq, Repr

/-- The state after `prepare`. -/
def Shell.prepare : Shell := ⟨false, 0, 0, 0, .readLine, .idle, [], [], none⟩

inductive ShellEvent where
  /-- `getline` returns a line of these words -/
  | line (arglist : List Word)
  | endOfInput
  /-- the next statement, if it is none of the following calls -/
  | step
  /-- the next call is a `fork`, and returns `pid` -/
  | fork (pid : Nat)
  /-- the next call (`malloc`, `realloc`, `pipe` or `fork`) fails -/
  | fails
  | childExits (pid : Nat)
  /-- `sigchld_handler` is called -/
  | deliver
  /-- `waitpid` in the handler returns `pid` -/
  | reap (pid : Nat)
  /-- `waitpid` in the handler returns 0 or -1 -/
  | reapDone
  | handlerReturns
  /-- `sigint_handler` runs -/
  | sigint
  deriving DecidableEq, Repr

/-! ## The step -/

/-- The statements of the shell; the two `close` of `handle_pipe` touch nothing here. -/
def Shell.mainNext (s : Shell) : Option Shell :=
  match s.pc with
  | .raiseForeground pid => some { s with is_foreground := true, pc := .recordForeground pid }
  | .recordForeground pid => some { s with current_fg_id := pid, pc := .waitForeground pid }
  | .waitForeground _ => if s.is_foreground then none else some { s with pc := .readLine }
  | .realloc => some { s with pc := .forkBackground }
  | .pipe => some { s with pc := .forkWriter }
  | .recordWriter pid_writer =>
    some { s with current_pipe_writer := pid_writer, pc := .forkReader pid_writer }
  | .recordReader pid_writer pid_reader =>
    some { s with current_pipe_reader := pid_reader, pc := .waitPipe pid_writer pid_reader }
  | .waitPipe _ _ =>
    if s.current_pipe_reader ≠ 0 ∨ s.current_pipe_writer ≠ 0 then none
    else some { s with pc := .readLine }
  | .readLine | .forkForeground | .forkBackground | .forkWriter | .forkReader _ | .exited => none

/-- `fork` returns in the shell; the pid is that of no other child. -/
def Shell.forkReturns (s : Shell) (pid : Nat) : Option Shell :=
  if pid = 0 ∨ pid ∈ s.running ∨ pid ∈ s.zombies then none
  else
    match s.pc with
    | .forkForeground => some { s with running := pid :: s.running, pc := .raiseForeground pid }
    | .forkBackground => some { s with running := pid :: s.running, pc := .readLine }
    | .forkWriter => some { s with running := pid :: s.running, pc := .recordWriter pid }
    | .forkReader pid_writer =>
      some { s with running := pid :: s.running, pc := .recordReader pid_writer pid }
    | _ => none

/-- A call fails: `exit(EXIT_FAILURE)`. -/
def Shell.callFails (s : Shell) : Option Shell :=
  match s.pc with
  | .readLine | .forkForeground | .realloc | .forkBackground | .pipe | .forkWriter | .forkReader _ =>
    some { s with pc := .exited }
  | _ => none

/-- A child terminates, which raises SIGCHLD. -/
def Shell.childExits (s : Shell) (pid : Nat) : Shell :=
  { s with
    running := s.running.filter (· ≠ pid)
    zombies := pid :: s.zombies
    pending := some (s.pending.getD pid) }

/-- The first statement of `sigchld_handler`. -/
def Shell.deliver (s : Shell) (si_pid : Nat) : Shell :=
  { s with
    is_foreground := s.is_foreground && !decide (si_pid = s.current_fg_id)
    handler := .reaping
    pending := none }

/-- The body of its loop. -/
def Shell.reap (s : Shell) (pid : Nat) : Shell :=
  { s with
    current_pipe_writer := if pid = s.current_pipe_writer then 0 else s.current_pipe_writer
    current_pipe_reader := if pid = s.current_pipe_reader then 0 else s.current_pipe_reader
    zombies := s.zombies.filter (· ≠ pid) }

/-- `sigint_handler`. -/
def Shell.sigint (s : Shell) : Shell :=
  { s with is_foreground := false, current_pipe_writer := 0, current_pipe_reader := 0 }

def Shell.next (s : Shell) : ShellEvent → Option Shell
  | .line arglist =>
    if s.handler = .idle ∧ s.pc = .readLine then some { s with pc := processArglist arglist } else none
  | .endOfInput =>
    if s.handler = .idle ∧ s.pc = .readLine then some { s with pc := .exited } else none
  | .step => if s.handler = .idle then s.mainNext else none
  | .fork pid => if s.handler = .idle then s.forkReturns pid else none
  | .fails => if s.handler = .idle then s.callFails else none
  | .childExits pid => if s.pc ≠ .exited ∧ pid ∈ s.running then some (s.childExits pid) else none
  | .deliver => if s.pc ≠ .exited ∧ s.handler = .idle then s.pending.map s.deliver else none
  | .reap pid => if s.handler = .reaping ∧ pid ∈ s.zombies then some (s.reap pid) else none
  | .reapDone =>
    if s.handler = .reaping ∧ s.zombies = [] then some { s with handler := .returning } else none
  | .handlerReturns => if s.handler = .returning then some { s with handler := .idle } else none
  | .sigint => if s.pc ≠ .exited then some s.sigint else none

def ShellStep (s : Shell) (a : ShellEvent) (s' : Shell) : Prop := s.next a = some s'

/-! ## What a step does -/

/-- The steps, each with what it needs. -/
inductive Moves (s : Shell) : ShellEvent → Shell → Prop
  | line (arglist : List Word) : s.handler = .idle → s.pc = .readLine →
      Moves s (.line arglist) { s with pc := processArglist arglist }
  | exits {a : ShellEvent} : s.handler = .idle → a = .endOfInput ∨ a = .fails →
      Moves s a { s with pc := .exited }
  | raise {pid : Nat} : s.handler = .idle → s.pc = .raiseForeground pid →
      Moves s .step { s with is_foreground := true, pc := .recordForeground pid }
  | record {pid : Nat} : s.handler = .idle → s.pc = .recordForeground pid →
      Moves s .step { s with current_fg_id := pid, pc := .waitForeground pid }
  | foregroundEnds {pid : Nat} : s.handler = .idle → s.pc = .waitForeground pid →
      s.is_foreground = false → Moves s .step { s with pc := .readLine }
  | realloc : s.handler = .idle → s.pc = .realloc → Moves s .step { s with pc := .forkBackground }
  | pipe : s.handler = .idle → s.pc = .pipe → Moves s .step { s with pc := .forkWriter }
  | recordWriter {w : Nat} : s.handler = .idle → s.pc = .recordWriter w →
      Moves s .step { s with current_pipe_writer := w, pc := .forkReader w }
  | recordReader {w r : Nat} : s.handler = .idle → s.pc = .recordReader w r →
      Moves s .step { s with current_pipe_reader := r, pc := .waitPipe w r }
  | pipeEnds {w r : Nat} : s.handler = .idle → s.pc = .waitPipe w r → s.current_pipe_reader = 0 →
      s.current_pipe_writer = 0 → Moves s .step { s with pc := .readLine }
  | fork {pid : Nat} {pc : ShellPc} : s.handler = .idle → pid ≠ 0 → pid ∉ s.running →
      pid ∉ s.zombies →
      (s.pc = .forkForeground ∧ pc = .raiseForeground pid ∨ s.pc = .forkBackground ∧ pc = .readLine ∨
        s.pc = .forkWriter ∧ pc = .recordWriter pid ∨
        ∃ w, s.pc = .forkReader w ∧ pc = .recordReader w pid) →
      Moves s (.fork pid) { s with running := pid :: s.running, pc := pc }
  | childExits {pid : Nat} : pid ∈ s.running → Moves s (.childExits pid) (s.childExits pid)
  | deliver {si_pid : Nat} : s.handler = .idle → s.pending = some si_pid →
      Moves s .deliver (s.deliver si_pid)
  | reap {pid : Nat} : s.handler = .reaping → pid ∈ s.zombies → Moves s (.reap pid) (s.reap pid)
  | reapDone : s.handler = .reaping → s.zombies = [] →
      Moves s .reapDone { s with handler := .returning }
  | handlerReturns : s.handler = .returning → Moves s .handlerReturns { s with handler := .idle }
  | sigint : Moves s .sigint s.sigint

variable {s s' : Shell} {a : ShellEvent}

theorem moves_of_mainNext (hidle : s.handler = .idle) (hs : s.mainNext = some s') :
    Moves s .step s' := by
  unfold Shell.mainNext at hs
  split at hs
  all_goals rename_i hpc
  · cases hs; exact .raise hidle hpc
  · cases hs; exact .record hidle hpc
  · split at hs <;> cases hs
    rename_i hflag
    exact .foregroundEnds hidle hpc (by simpa using hflag)
  · cases hs; exact .realloc hidle hpc
  · cases hs; exact .pipe hidle hpc
  · cases hs; exact .recordWriter hidle hpc
  · cases hs; exact .recordReader hidle hpc
  · split at hs <;> cases hs
    rename_i hvars
    rw [not_or, not_not, not_not] at hvars
    exact .pipeEnds hidle hpc hvars.1 hvars.2
  all_goals cases hs

theorem moves_of_fork {pid : Nat} (hidle : s.handler = .idle) (hs : s.forkReturns pid = some s') :
    Moves s (.fork pid) s' := by
  unfold Shell.forkReturns at hs
  split at hs
  · cases hs
  · rename_i hpid
    rw [not_or, not_or] at hpid
    split at hs
    all_goals rename_i hpc
    · cases hs; exact .fork hidle hpid.1 hpid.2.1 hpid.2.2 (.inl ⟨hpc, rfl⟩)
    · cases hs; exact .fork hidle hpid.1 hpid.2.1 hpid.2.2 (.inr (.inl ⟨hpc, rfl⟩))
    · cases hs; exact .fork hidle hpid.1 hpid.2.1 hpid.2.2 (.inr (.inr (.inl ⟨hpc, rfl⟩)))
    · cases hs; exact .fork hidle hpid.1 hpid.2.1 hpid.2.2 (.inr (.inr (.inr ⟨_, hpc, rfl⟩)))
    · cases hs

/-- **Every step is one of these.** -/
theorem moves_of_step (hs : ShellStep s a s') : Moves s a s' := by
  unfold ShellStep at hs
  cases a with
  | line arglist =>
    simp only [Shell.next] at hs
    split at hs <;> cases hs
    rename_i h
    exact .line arglist h.1 h.2
  | endOfInput =>
    simp only [Shell.next] at hs
    split at hs <;> cases hs
    rename_i h
    exact .exits h.1 (.inl rfl)
  | step =>
    simp only [Shell.next] at hs
    split at hs
    · exact moves_of_mainNext ‹_› hs
    · cases hs
  | fork pid =>
    simp only [Shell.next] at hs
    split at hs
    · exact moves_of_fork ‹_› hs
    · cases hs
  | fails =>
    simp only [Shell.next] at hs
    split at hs
    · rename_i h
      unfold Shell.callFails at hs
      split at hs <;> cases hs <;> exact .exits h (.inr rfl)
    · cases hs
  | childExits pid =>
    simp only [Shell.next] at hs
    split at hs <;> cases hs
    rename_i h
    exact .childExits h.2
  | deliver =>
    simp only [Shell.next] at hs
    split at hs
    · rename_i h
      obtain ⟨si_pid, hpending, rfl⟩ := Option.map_eq_some_iff.1 hs
      exact .deliver h.2 hpending
    · cases hs
  | reap pid =>
    simp only [Shell.next] at hs
    split at hs <;> cases hs
    rename_i h
    exact .reap h.1 h.2
  | reapDone =>
    simp only [Shell.next] at hs
    split at hs <;> cases hs
    rename_i h
    exact .reapDone h.1 h.2
  | handlerReturns =>
    simp only [Shell.next] at hs
    split at hs <;> cases hs
    exact .handlerReturns ‹_›
  | sigint =>
    simp only [Shell.next] at hs
    split at hs <;> cases hs
    exact .sigint

/-- A run to a state with a given property. -/
theorem run_of_exec {p : Shell → Bool} {h : List ShellEvent}
    (he : (Run.exec Shell.next Shell.prepare h).any p = true) :
    ∃ s, Run ShellStep Shell.prepare h s ∧ p s = true :=
  Run.of_exec_any (fun _ _ _ hs => hs) he

/-- The same for a run whose steps all meet a condition. -/
theorem runOn_of_exec {Q : Shell → ShellEvent → Prop} [∀ s a, Decidable (Q s a)] {p : Shell → Bool}
    {h : List ShellEvent} (he : (Run.execOn Shell.next Q Shell.prepare h).any p = true) :
    ∃ s, Run ShellStep Shell.prepare h s ∧ Run.EachStep ShellStep Shell.prepare Q h ∧ p s = true :=
  Run.of_execOn_any (fun _ _ _ hs => hs) (fun _ _ _ _ h₁ h₂ => Option.some.inj (h₁.symm.trans h₂)) he

end OSCourse.Myshell
