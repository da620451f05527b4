import OSCourse.Lib.Decimal
import OSCourse.MessageSlot.Refine

/-!
# The programs that use the slots (`message_sender.c`, `message_reader.c`)

Any number of senders and readers run at once.  Process `p` runs the command `cmd p` and opens one
file, whose descriptor is `p` here.  `device` is what `open` finds at a path: the slot with a
minor, or the error number with which `open` fails (or `ioctl`, on a file of another kind).  A call
of the driver is one step: the driver has no lock, and no two calls run at once (msgslot.pdf 3.1, 11).

* `ProgramStep` — what a process does next, by its program point.
* `Follows` — what is known of a process there; `tracks_run` — it holds in every run.
* `messages_are_delivered` — **a reader prints the message of the last sender on its channel**, and
  every process ends after six steps of its own.
-/

set_option autoImplicit false

namespace OSCourse.MessageSlot

open Transition

def E2BIG : Int := 7

def EXIT_FAILURE : Nat := 1

/-! ## The commands -/

inductive Program where
  | messageSender
  | messageReader
  deriving DecidableEq, Repr

/-- The `argc` that the program asks for. -/
def Program.argc : Program → Nat
  | .messageSender => 4
  | .messageReader => 3

structure Command where
  program : Program
  argv : List (List UInt8)
  deriving DecidableEq, Repr

namespace Command

variable (c : Command)

def msgSlotPath : List UInt8 := c.argv.getD 1 []

/-- `unsigned int channel_id = atoi(argv[2])`, as the parameter of `ioctl`. -/
def channelId : BitVec 64 := (BitVec.ofInt 32 (Decimal.atoi (c.argv.getD 2 []))).setWidth 64

def msgToPass : List UInt8 := c.argv.getD 3 []

/-- Why the program ends before it has opened a slot. -/
def refused (device : List UInt8 → Except Int Minor) : Option Int :=
  if c.argv.length ≠ c.program.argc then some E2BIG
  else
    match device c.msgSlotPath with
    | .error errno => some errno
    | .ok _ => none

/-- The command gets as far as to set its channel, on the slot with this minor. -/
structure Connects (device : List UInt8 → Except Int Minor) (minor : Minor) : Prop where
  argc : c.argv.length = c.program.argc
  path : device c.msgSlotPath = .ok minor
  channel : c.channelId ≠ 0#64

end Command

/-- A string as a user buffer. -/
def bufferOf (str : List UInt8) (i : Nat) : UInt8 := str.getD i 0

@[simp] theorem bytesOf_bufferOf (str : List UInt8) : bytesOf (bufferOf str) str.length = str := by
  refine List.ext_getElem (bytesOf_length ..) fun i hi hi' => ?_
  simp [bytesOf, bufferOf, List.getElem?_eq_getElem hi']

/-! ## The processes -/

inductive ProcessPc where
  | start
  /-- before `ioctl` -/
  | setChannel
  /-- before `write` or `read` on the slot -/
  | transfer
  /-- before `close`; the reader has this in its buffer -/
  | close (buffer : List UInt8)
  /-- before the `write` on `STDOUT_FILENO` -/
  | output (buffer : List UInt8)
  /-- in `exit(EXIT_FAILURE)` -/
  | failing
  | exited (status : Nat)
  deriving DecidableEq, Repr

inductive Printed where
  /-- `printf("%s \n", strerror(errno))` -/
  | error (errno : Int)
  | message (bytes : List UInt8)
  deriving DecidableEq, Repr

structure Process where
  pc : ProcessPc
  printed : List Printed
  deriving DecidableEq, Repr

structure Machine where
  kernel : Kernel
  process : Nat → Process

def Machine.init : Machine := ⟨Kernel.init, fun _ => ⟨.start, []⟩⟩

inductive Action where
  /-- the end of a command that opens no slot -/
  | refuse (p : Nat)
  | call (p : Nat) (e : Event)
  /-- `write` on `STDOUT_FILENO`: so many bytes are taken, or an error number -/
  | output (p : Nat) (taken : Except Int Nat)
  /-- the end of a process without an open file -/
  | exit (p : Nat)

def Action.process : Action → Nat
  | .refuse p | .call p _ | .output p _ | .exit p => p

/-- The call on the driver. -/
def Action.event? : Action → Option Event
  | .call _ e => some e
  | _ => none

/-- Every kernel service works, and `STDOUT_FILENO` takes a whole message. -/
def Action.Succeeds : Action → Prop
  | .call _ e => e.1.Succeeds
  | .output _ (.ok taken) => MAX_BUF_LEN ≤ taken
  | .output _ (.error _) => False
  | .refuse _ | .exit _ => True

namespace Machine

variable (m : Machine) (p : Nat)

def setProcess (process : Process) : Machine :=
  { m with process := Function.update m.process p process }

def goto (pc : ProcessPc) : Machine := m.setProcess p { m.process p with pc := pc }

/-- `printf("%s \n", strerror(errno)); exit(EXIT_FAILURE);` -/
def fail (errno : Int) : Machine :=
  m.setProcess p ⟨.failing, (m.process p).printed ++ [.error errno]⟩

/-- What follows a call: `if (ret_val < 0)` the program fails, else it goes on at `pc`. -/
def after (ret_val : Int) (pc : ProcessPc) : Machine :=
  if ret_val < 0 then m.fail p (-ret_val) else m.goto p pc

/-- The reader has printed, and returns 0. -/
def print (bytes : List UInt8) : Machine :=
  m.setProcess p ⟨.exited 0, (m.process p).printed ++ [.message bytes]⟩

end Machine

/-- Where a program goes from `close`. -/
def Command.closed (c : Command) (buffer : List UInt8) : ProcessPc :=
  match c.program with
  | .messageSender => .exited 0
  | .messageReader => .output buffer

/-- One step of one process. -/
inductive ProgramStep (device : List UInt8 → Except Int Minor) (cmd : Nat → Command) (m : Machine) :
    Action → Machine → Prop
  | refused {p : Nat} {errno : Int} : (m.process p).pc = .start → (cmd p).refused device = some errno →
    ProgramStep device cmd m (.refuse p) (m.fail p errno)
  | openFile {p : Nat} {minor : Minor} {ok : Bool} {rc : Int} {kernel : Kernel} :
    (m.process p).pc = .start → (cmd p).refused device = none →
    device (cmd p).msgSlotPath = .ok minor →
    KernelStep m.kernel (.openFile p minor ok, rc) kernel →
    ProgramStep device cmd m (.call p (.openFile p minor ok, rc))
      ({ m with kernel }.after p rc .setChannel)
  | ioctl {p : Nat} {rc : Int} {kernel : Kernel} : (m.process p).pc = .setChannel →
    KernelStep m.kernel (.ioctl p MSG_SLOT_CHANNEL (cmd p).channelId, rc) kernel →
    ProgramStep device cmd m (.call p (.ioctl p MSG_SLOT_CHANNEL (cmd p).channelId, rc))
      ({ m with kernel }.after p rc .transfer)
  | write {p : Nat} {o : Outcome} {rc : Int} {kernel : Kernel} : (m.process p).pc = .transfer →
    (cmd p).program = .messageSender →
    KernelStep m.kernel (.write p (bufferOf (cmd p).msgToPass) (cmd p).msgToPass.length o, rc) kernel →
    ProgramStep device cmd m
      (.call p (.write p (bufferOf (cmd p).msgToPass) (cmd p).msgToPass.length o, rc))
      ({ m with kernel }.after p rc (.close []))
  | read {p writable : Nat} {file : File} {rc : Int} {bytes : List UInt8} :
    (m.process p).pc = .transfer → (cmd p).program = .messageReader → m.kernel.files p = some file →
    deviceRead m.kernel.driver file MAX_BUF_LEN writable = .ok (rc, bytes) →
    ProgramStep device cmd m (.call p (.read p MAX_BUF_LEN writable, rc)) (m.after p rc (.close bytes))
  | close {p : Nat} {buffer : List UInt8} {rc : Int} {kernel : Kernel} :
    (m.process p).pc = .close buffer → KernelStep m.kernel (.release p, rc) kernel →
    ProgramStep device cmd m (.call p (.release p, rc))
      ({ m with kernel }.goto p ((cmd p).closed buffer))
  | output {p taken : Nat} {buffer : List UInt8} : (m.process p).pc = .output buffer →
    ProgramStep device cmd m (.output p (.ok taken)) (m.print p (buffer.take taken))
  | outputFailed {p : Nat} {errno : Int} {buffer : List UInt8} : (m.process p).pc = .output buffer →
    ProgramStep device cmd m (.output p (.error errno)) (m.fail p errno)
  /-- the kernel closes the file of a process that exits -/
  | release {p : Nat} {rc : Int} {kernel : Kernel} : (m.process p).pc = .failing →
    KernelStep m.kernel (.release p, rc) kernel →
    ProgramStep device cmd m (.call p (.release p, rc)) ({ m with kernel }.goto p (.exited EXIT_FAILURE))
  | exit {p : Nat} : (m.process p).pc = .failing → m.kernel.files p = none →
    ProgramStep device cmd m (.exit p) (m.goto p (.exited EXIT_FAILURE))

/-- A step in which everything works that is not up to the programs. -/
def WorkingStep (device : List UInt8 → Except Int Minor) (cmd : Nat → Command) (m : Machine)
    (a : Action) (m' : Machine) : Prop :=
  ProgramStep device cmd m a m' ∧ a.Succeeds

/-! ## What a process has achieved -/

section

variable (device : List UInt8 → Except Int Minor) (cmd : Nat → Command) (minor : Minor)
  (id : BitVec 64) (h : List Action) (p : Nat)

/-- The process that has written on the channel with this action. -/
def Action.sentOn : Action → Option Nat
  | .call p (.write .., rc) =>
    if 0 ≤ rc ∧ device (cmd p).msgSlotPath = .ok minor ∧ (cmd p).channelId = id then some p else none
  | _ => none

/-- The last process that has written on a channel. -/
def lastSender : Option Nat := h.findSome? (Action.sentOn device cmd minor id)

/-- When `p` read the channel, `sender` was the last to have written on it. -/
def Heard (sender : Option Nat) : Prop :=
  ∃ writable rc h₁, .call p (.read p MAX_BUF_LEN writable, rc) :: h₁ <:+ h ∧
    lastSender device cmd minor id h₁ = sender

/-- How `p` can end: its exit status and what it has printed. -/
inductive Ends : Nat → List Printed → Prop
  | sent {minor : Minor} {a : Action} : (cmd p).program = .messageSender →
    (cmd p).Connects device minor → (cmd p).msgToPass ≠ [] →
    (cmd p).msgToPass.length ≤ MAX_BUF_LEN → a ∈ h →
    a.sentOn device cmd minor (cmd p).channelId = some p → Ends 0 []
  | notSent {errno : Int} : (cmd p).program = .messageSender →
    (∀ minor, (cmd p).Connects device minor → (cmd p).msgToPass ≠ [] →
      MAX_BUF_LEN < (cmd p).msgToPass.length) → Ends EXIT_FAILURE [.error errno]
  | received {minor : Minor} {sender : Nat} : (cmd p).program = .messageReader →
    (cmd p).Connects device minor → Heard device cmd minor (cmd p).channelId h p (some sender) →
    Ends 0 [.message (cmd sender).msgToPass]
  | nothing {minor : Minor} : (cmd p).program = .messageReader → (cmd p).Connects device minor →
    Heard device cmd minor (cmd p).channelId h p none → Ends EXIT_FAILURE [.error EWOULDBLOCK]
  | notConnected {errno : Int} : (cmd p).program = .messageReader →
    (∀ minor, ¬(cmd p).Connects device minor) → Ends EXIT_FAILURE [.error errno]

/-- What will be printed after `close`. -/
def Command.promises (c : Command) (buffer : List UInt8) : List Printed :=
  match c.program with
  | .messageSender => []
  | .messageReader => [.message buffer]

/-- What is known of a process at its program point, with its open file. -/
def Follows (file : Option File) (process : Process) : Prop :=
  match process.pc with
  | .start => file = none ∧ process.printed = []
  | .setChannel => process.printed = [] ∧ (cmd p).argv.length = (cmd p).program.argc ∧
    ∃ minor, device (cmd p).msgSlotPath = .ok minor ∧ file = some ⟨minor, 0#64⟩
  | .transfer => process.printed = [] ∧
    ∃ minor, (cmd p).Connects device minor ∧ file = some ⟨minor, (cmd p).channelId⟩
  | .close buffer => process.printed = [] ∧ file.isSome ∧ buffer.length ≤ MAX_BUF_LEN ∧
    Ends device cmd h p 0 ((cmd p).promises buffer)
  | .output buffer => process.printed = [] ∧ file = none ∧ buffer.length ≤ MAX_BUF_LEN ∧
    Ends device cmd h p 0 [.message buffer]
  | .failing => Ends device cmd h p EXIT_FAILURE process.printed
  | .exited status => file = none ∧ Ends device cmd h p status process.printed

end

/-- What is known of all processes and channels after `h`. -/
structure Tracks (device : List UInt8 → Except Int Minor) (cmd : Nat → Command) (h : List Action)
    (m : Machine) : Prop where
  kernel : Run FaultlessStep Kernel.init (h.filterMap Action.event?) m.kernel
  follows (p : Nat) : Follows device cmd h p (m.kernel.files p) (m.process p)
  channel (minor : Minor) (id : BitVec 64) : lastMessage minor id (h.filterMap Action.event?) =
    (lastSender device cmd minor id h).map fun q => (cmd q).msgToPass
  length (minor : Minor) (id : BitVec 64) (q : Nat) : lastSender device cmd minor id h = some q →
    (cmd q).msgToPass.length ≤ MAX_BUF_LEN

variable {device : List UInt8 → Except Int Minor} {cmd : Nat → Command} {m m' : Machine} {p q : Nat}
  {h : List Action} {a : Action} {minor : Minor} {id : BitVec 64}

/-! ## What does not change -/

@[simp] theorem setProcess_self (process : Process) : (m.setProcess p process).process p = process :=
  Function.update_self ..

theorem setProcess_of_ne {process : Process} (hq : q ≠ p) :
    (m.setProcess p process).process q = m.process q :=
  Function.update_of_ne hq ..

@[simp] theorem after_kernel (ret_val : Int) (pc : ProcessPc) :
    (m.after p ret_val pc).kernel = m.kernel := by
  unfold Machine.after
  split <;> rfl

theorem after_of_ne {ret_val : Int} {pc : ProcessPc} (hq : q ≠ p) :
    (m.after p ret_val pc).process q = m.process q := by
  unfold Machine.after
  split <;> exact setProcess_of_ne hq

theorem Heard.cons {sender : Option Nat} (H : Heard device cmd minor id h p sender) (a : Action) :
    Heard device cmd minor id (a :: h) p sender := by
  obtain ⟨writable, rc, h₁, hsuf, hlast⟩ := H
  exact ⟨writable, rc, h₁, hsuf.trans (List.suffix_cons a h), hlast⟩

theorem Ends.cons {status : Nat} {printed : List Printed} (a : Action)
    (O : Ends device cmd h p status printed) : Ends device cmd (a :: h) p status printed := by
  cases O with
  | sent hprog hconn hne hlen hmem hsent =>
    exact .sent hprog hconn hne hlen (List.mem_cons_of_mem a hmem) hsent
  | notSent hprog hnot => exact .notSent hprog hnot
  | received hprog hconn H => exact .received hprog hconn (H.cons a)
  | nothing hprog hconn H => exact .nothing hprog hconn (H.cons a)
  | notConnected hprog hnot => exact .notConnected hprog hnot

theorem Follows.cons {file : Option File} {process : Process} (a : Action)
    (F : Follows device cmd h p file process) : Follows device cmd (a :: h) p file process := by
  revert F
  unfold Follows
  cases process.pc with
  | close | output => exact fun F => ⟨F.1, F.2.1, F.2.2.1, F.2.2.2.cons a⟩
  | failing => exact fun F => F.cons a
  | exited => exact fun F => ⟨F.1, F.2.cons a⟩
  | start | setChannel | transfer => exact fun F => F

/-! ## The calls on the driver -/

section

variable {k k' : Kernel} {file : File} {rc : Int} {hk : List Event}

theorem openFile_step {ok : Bool} (hs : FaultlessStep k (.openFile p minor ok, rc) k') :
    rc = 0 ∧ k'.files = Function.update k.files p (some ⟨minor, 0#64⟩) := by
  obtain ⟨hok, hs⟩ := hs
  have hok : ok = true := hok
  unfold KernelStep Kernel.exec at hs
  cases hfile : k.files p with
  | some file => simp [hfile] at hs
  | none =>
    have hrc : (deviceOpen ok minor k.driver).1 = SUCCESS := by
      rcases deviceOpen_cases ok minor k.driver with ⟨-, heq⟩ | ⟨hfalse, -⟩ | ⟨-, heq⟩
      · rw [heq]
      · rw [hok] at hfalse
        cases hfalse
      · rw [heq]
    simp only [hfile, hrc, if_true, Option.some.injEq, Except.ok.injEq, Prod.mk.injEq] at hs
    obtain ⟨rfl, rfl⟩ := hs
    exact ⟨rfl, rfl⟩

theorem ioctl_step {param : BitVec 64} (hfile : k.files p = some file)
    (hs : KernelStep k (.ioctl p MSG_SLOT_CHANNEL param, rc) k') :
    (param = 0#64 ∧ rc < 0 ∧ k'.files = Function.update k.files p (some file)) ∨
      (param ≠ 0#64 ∧ rc = 0 ∧
        k'.files = Function.update k.files p (some { file with private_data := param })) := by
  unfold KernelStep Kernel.exec at hs
  simp only [hfile, Option.map_some, Option.some.injEq, Except.ok.injEq, Prod.mk.injEq] at hs
  obtain ⟨rfl, rfl⟩ := hs
  by_cases hparam : param = 0#64
  · left
    simp [deviceIoctl, hparam, EINVAL]
  · right
    simp [deviceIoctl, hparam, SUCCESS]

theorem write_step {u_buffer : Nat → UInt8} {length : Nat} {o : Outcome} (A : Agrees hk k)
    (hfile : k.files p = some file) (hs : FaultlessStep k (.write p u_buffer length o, rc) k') :
    k'.files = k.files ∧ (0 ≤ rc ↔ Accepted file length) := by
  obtain ⟨⟨hnode, hbuffer, hreadable⟩, hs⟩ := hs
  unfold KernelStep Kernel.exec at hs
  simp only [hfile, Option.map_some, Option.some.injEq] at hs
  by_cases hacc : Accepted file length
  · obtain ⟨slot, hslot⟩ := (A.file p file hfile).slot
    obtain ⟨ch, l', heap, -, -, hok⟩ :=
      deviceWrite_faultless u_buffer hacc hslot hnode hbuffer hreadable
    simp only [hok, bind, Except.bind, pure, Except.pure, Except.ok.injEq, Prod.mk.injEq] at hs
    obtain ⟨rfl, rfl⟩ := hs
    exact ⟨rfl, iff_of_true (by omega) hacc⟩
  · obtain ⟨rc', hneg, hok⟩ := deviceWrite_rejected o k.driver u_buffer hacc
    simp only [hok, bind, Except.bind, pure, Except.pure, Except.ok.injEq, Prod.mk.injEq] at hs
    obtain ⟨rfl, rfl⟩ := hs
    exact ⟨rfl, iff_of_false (by omega) hacc⟩

theorem release_step (hs : KernelStep k (.release p, rc) k') :
    k'.files = Function.update k.files p none := by
  unfold KernelStep Kernel.exec at hs
  simp only [Option.map_eq_some_iff, Except.ok.injEq, Prod.mk.injEq] at hs
  obtain ⟨file, -, -, rfl⟩ := hs
  rfl

end

theorem refused_not_connects {errno : Int} (hrefused : (cmd p).refused device = some errno)
    (minor : Minor) : ¬(cmd p).Connects device minor := by
  intro hconn
  rw [Command.refused, if_neg (not_not.2 hconn.argc), hconn.path] at hrefused
  cases hrefused

theorem argc_of_not_refused (h : (cmd p).refused device = none) :
    (cmd p).argv.length = (cmd p).program.argc := by
  by_contra hargc
  rw [Command.refused, if_pos hargc] at h
  cases h

/-- A command that connects to no slot prints an error. -/
theorem ends_notConnected (hnot : ∀ minor, ¬(cmd p).Connects device minor) (errno : Int) :
    Ends device cmd h p EXIT_FAILURE [.error errno] := by
  cases hprog : (cmd p).program with
  | messageSender => exact .notSent hprog fun minor hconn => absurd hconn (hnot minor)
  | messageReader => exact .notConnected hprog hnot

/-! ## One step -/

theorem lastSender_cons (a : Action) (h : List Action) : lastSender device cmd minor id (a :: h) =
    (a.sentOn device cmd minor id).or (lastSender device cmd minor id h) := by
  rw [lastSender, List.findSome?_cons]
  cases a.sentOn device cmd minor id <;> rfl

/-- What a step of `p` that writes on no slot has to keep. -/
theorem Tracks.quiet (T : Tracks device cmd h m) (a : Action)
    (hkernel : Run FaultlessStep Kernel.init ((a :: h).filterMap Action.event?) m'.kernel)
    (hsent : ∀ minor id, a.sentOn device cmd minor id = none)
    (hlast : ∀ minor id, lastMessage minor id ((a :: h).filterMap Action.event?) =
      lastMessage minor id (h.filterMap Action.event?))
    (hothers : ∀ q, q ≠ p → m'.kernel.files q = m.kernel.files q ∧ m'.process q = m.process q)
    (hp : Follows device cmd (a :: h) p (m'.kernel.files p) (m'.process p)) :
    Tracks device cmd (a :: h) m' := by
  refine ⟨hkernel, fun q => ?_, fun minor id => ?_, fun minor id q hq => ?_⟩
  · rcases eq_or_ne q p with rfl | hne
    · exact hp
    · rw [(hothers q hne).1, (hothers q hne).2]
      exact (T.follows q).cons a
  · rw [hlast, lastSender_cons, hsent, Option.none_or]
    exact T.channel minor id
  · rw [lastSender_cons, hsent, Option.none_or] at hq
    exact T.length minor id q hq

theorem follows_fail {errno : Int} (hprinted : (m.process p).printed = [])
    (hends : Ends device cmd h p EXIT_FAILURE [.error errno]) (file : Option File) :
    Follows device cmd h p file ((m.fail p errno).process p) := by
  rw [Machine.fail, setProcess_self, hprinted]
  exact hends

theorem tracks_refused (T : Tracks device cmd h m) {errno : Int} (hpc : (m.process p).pc = .start)
    (hrefused : (cmd p).refused device = some errno) :
    Tracks device cmd (.refuse p :: h) (m.fail p errno) := by
  have F := T.follows p
  rw [Follows, hpc] at F
  refine T.quiet _ T.kernel (fun _ _ => rfl) (fun _ _ => rfl)
    (fun q hq => ⟨rfl, setProcess_of_ne hq⟩) ?_
  exact follows_fail F.2 (ends_notConnected (refused_not_connects hrefused) errno) _

theorem tracks_openFile (T : Tracks device cmd h m) {ok : Bool} {rc : Int} {kernel : Kernel}
    (hpc : (m.process p).pc = .start) (hrefused : (cmd p).refused device = none)
    (hpath : device (cmd p).msgSlotPath = .ok minor)
    (hs : FaultlessStep m.kernel (.openFile p minor ok, rc) kernel) :
    Tracks device cmd (.call p (.openFile p minor ok, rc) :: h)
      ({ m with kernel }.after p rc .setChannel) := by
  have F := T.follows p
  rw [Follows, hpc] at F
  obtain ⟨rfl, hfiles⟩ := openFile_step hs
  refine T.quiet _ ?_ (fun _ _ => rfl) (fun _ _ => rfl) (fun q hq => ⟨?_, after_of_ne hq⟩) ?_
  · rw [after_kernel]
    exact T.kernel.step hs
  · rw [after_kernel, hfiles, Function.update_of_ne hq]
  · rw [after_kernel, hfiles, Function.update_self, Machine.after, if_neg (Int.lt_irrefl 0),
      Machine.goto, setProcess_self]
    exact ⟨F.2, argc_of_not_refused hrefused, minor, hpath, rfl⟩

theorem tracks_ioctl (T : Tracks device cmd h m) {rc : Int} {kernel : Kernel}
    (hpc : (m.process p).pc = .setChannel)
    (hs : KernelStep m.kernel (.ioctl p MSG_SLOT_CHANNEL (cmd p).channelId, rc) kernel) :
    Tracks device cmd (.call p (.ioctl p MSG_SLOT_CHANNEL (cmd p).channelId, rc) :: h)
      ({ m with kernel }.after p rc .transfer) := by
  have F := T.follows p
  rw [Follows, hpc] at F
  obtain ⟨hprinted, hargc, minor, hpath, hfile⟩ := F
  have hcases := ioctl_step hfile hs
  refine T.quiet _ ?_ (fun _ _ => rfl) (fun _ _ => rfl) (fun q hq => ⟨?_, after_of_ne hq⟩) ?_
  · rw [after_kernel]
    exact T.kernel.step ⟨trivial, hs⟩
  · rw [after_kernel]
    rcases hcases with ⟨-, -, hfiles⟩ | ⟨-, -, hfiles⟩ <;> rw [hfiles, Function.update_of_ne hq]
  · rw [after_kernel]
    rcases hcases with ⟨hzero, hrc, hfiles⟩ | ⟨hid, rfl, hfiles⟩
    · rw [Machine.after, if_pos hrc]
      refine follows_fail hprinted (ends_notConnected ?_ _) _
      exact fun minor' hconn => hconn.channel hzero
    · rw [Machine.after, if_neg (Int.lt_irrefl 0), Machine.goto, setProcess_self, hfiles,
        Function.update_self]
      exact ⟨hprinted, minor, ⟨hargc, hpath, hid⟩, rfl⟩

/-- What the kernel knows of the file of a process before `write` or `read`. -/
theorem Tracks.file (T : Tracks device cmd h m) (hconn : (cmd p).Connects device minor)
    (hfile : m.kernel.files p = some ⟨minor, (cmd p).channelId⟩) :
    minorOf p (h.filterMap Action.event?) = some minor ∧
      lastIoctl p (h.filterMap Action.event?) = some (cmd p).channelId := by
  have F := (agrees_run T.kernel).file p _ hfile
  refine ⟨F.minor, ?_⟩
  rw [F.ioctl, if_neg hconn.channel]

theorem tracks_write (T : Tracks device cmd h m) {o : Outcome} {rc : Int} {kernel : Kernel}
    (hpc : (m.process p).pc = .transfer) (hprog : (cmd p).program = .messageSender)
    (hs : FaultlessStep m.kernel
      (.write p (bufferOf (cmd p).msgToPass) (cmd p).msgToPass.length o, rc) kernel) :
    Tracks device cmd
      (.call p (.write p (bufferOf (cmd p).msgToPass) (cmd p).msgToPass.length o, rc) :: h)
      ({ m with kernel }.after p rc (.close [])) := by
  have F := T.follows p
  rw [Follows, hpc] at F
  obtain ⟨hprinted, minor₀, hconn, hfile⟩ := F
  obtain ⟨hfiles, hrc⟩ := write_step (agrees_run T.kernel) hfile hs
  obtain ⟨hminor, hioctl⟩ := T.file hconn hfile
  have hcond : ∀ minor id, (0 ≤ rc ∧ minorOf p (h.filterMap Action.event?) = some minor ∧
      lastIoctl p (h.filterMap Action.event?) = some id) ↔
      (0 ≤ rc ∧ device (cmd p).msgSlotPath = .ok minor ∧ (cmd p).channelId = id) := by
    intro minor id
    rw [hminor, hioctl, hconn.path, Option.some.injEq, Option.some.injEq, Except.ok.injEq]
  refine ⟨?_, fun q => ?_, fun minor id => ?_, fun minor id q hq => ?_⟩
  · rw [after_kernel]
    exact T.kernel.step hs
  · rw [after_kernel]
    rcases eq_or_ne q p with rfl | hne
    · rw [Machine.after]
      split
      · rename_i hneg
        refine follows_fail hprinted (.notSent hprog fun minor _ hnil => ?_) _
        by_contra hlen
        have hpos := List.length_pos_iff.2 hnil
        exact absurd (hrc.2 ⟨hconn.channel, hpos, by omega⟩) (by omega)
      · rename_i hpos
        have hacc := hrc.1 (by omega)
        have hnil : (cmd q).msgToPass ≠ [] := List.length_pos_iff.1 hacc.2.1
        rw [Machine.goto, setProcess_self, hfiles]
        refine ⟨hprinted, hfile ▸ rfl, Nat.zero_le _, ?_⟩
        rw [Command.promises, hprog]
        refine .sent hprog hconn hnil hacc.2.2 (List.mem_cons_self ..) ?_
        exact if_pos ⟨by omega, hconn.path, rfl⟩
    · rw [hfiles, after_of_ne hne]
      exact (T.follows q).cons _
  · rw [lastSender_cons]
    show (if _ then _ else _) = _
    rw [bytesOf_bufferOf, T.channel]
    simp only [hcond, Action.sentOn]
    split <;> rfl
  · rw [lastSender_cons, Action.sentOn] at hq
    split at hq
    · rename_i hsent
      cases hq
      exact (hrc.1 hsent.1).2.2
    · exact T.length minor id q hq

theorem tracks_read (T : Tracks device cmd h m) {writable : Nat} {file : File} {rc : Int}
    {bytes : List UInt8} (hpc : (m.process p).pc = .transfer)
    (hprog : (cmd p).program = .messageReader) (hfile : m.kernel.files p = some file)
    (hread : deviceRead m.kernel.driver file MAX_BUF_LEN writable = .ok (rc, bytes))
    (hw : MAX_BUF_LEN ≤ writable) :
    Tracks device cmd (.call p (.read p MAX_BUF_LEN writable, rc) :: h)
      (m.after p rc (.close bytes)) := by
  have F := T.follows p
  rw [Follows, hpc] at F
  obtain ⟨hprinted, minor, hconn, hconnected⟩ := F
  cases hfile.symm.trans hconnected
  have hstep : KernelStep m.kernel (.read p MAX_BUF_LEN writable, rc) m.kernel := by
    simp only [KernelStep, Kernel.exec, hfile, Option.map_some, hread]
    rfl
  have hheard : Heard device cmd minor (cmd p).channelId
      (.call p (.read p MAX_BUF_LEN writable, rc) :: h) p
      (lastSender device cmd minor (cmd p).channelId h) :=
    ⟨writable, rc, h, List.suffix_refl _, rfl⟩
  rw [read_agrees (agrees_run T.kernel) hfile hw, (T.file hconn hfile).2, expectedAnswer,
    T.channel] at hread
  refine T.quiet _ ?_ (fun _ _ => rfl) (fun _ _ => rfl) (fun q hq => ⟨?_, after_of_ne hq⟩) ?_
  · rw [after_kernel]
    exact T.kernel.step ⟨hw, hstep⟩
  · rw [after_kernel]
  rw [after_kernel, hfile]
  cases hlast : lastSender device cmd minor (cmd p).channelId h with
  | none =>
    rw [hlast] at hread hheard
    cases hread
    exact follows_fail hprinted (.nothing hprog hconn hheard) _
  | some q =>
    have hlen := T.length _ _ q hlast
    rw [hlast, Option.map_some] at hread
    simp only [if_neg (Nat.not_lt.2 hlen)] at hread
    cases hread
    rw [Machine.after, if_neg (by omega), Machine.goto, setProcess_self]
    refine ⟨hprinted, rfl, hlen, ?_⟩
    rw [Command.promises, hprog]
    rw [hlast] at hheard
    exact .received hprog hconn hheard

/-- `p` gives up its file and goes on. -/
theorem tracks_release (T : Tracks device cmd h m) {rc : Int} {kernel : Kernel} {pc : ProcessPc}
    (hs : KernelStep m.kernel (.release p, rc) kernel)
    (hp : Follows device cmd (.call p (.release p, rc) :: h) p none { m.process p with pc := pc }) :
    Tracks device cmd (.call p (.release p, rc) :: h) ({ m with kernel }.goto p pc) := by
  have hfiles := release_step hs
  refine T.quiet _ (T.kernel.step ⟨trivial, hs⟩) (fun _ _ => rfl) (fun _ _ => rfl)
    (fun q hq => ⟨?_, setProcess_of_ne hq⟩) ?_
  · show kernel.files q = _
    rw [hfiles, Function.update_of_ne hq]
  · show Follows _ _ _ _ (kernel.files p) _
    rw [hfiles, Function.update_self, Machine.goto, setProcess_self]
    exact hp

theorem tracks_init : Tracks device cmd [] Machine.init :=
  ⟨.nil, fun _ => ⟨rfl, rfl⟩, fun _ _ => rfl, fun _ _ _ hq => by simp [lastSender] at hq⟩

/-- **A working step of any process keeps what is known of all of them.** -/
theorem tracks_step (T : Tracks device cmd h m) (hs : WorkingStep device cmd m a m') :
    Tracks device cmd (a :: h) m' := by
  obtain ⟨hs, hworks⟩ := hs
  cases hs with
  | refused hpc hrefused => exact tracks_refused T hpc hrefused
  | openFile hpc hrefused hpath hs => exact tracks_openFile T hpc hrefused hpath ⟨hworks, hs⟩
  | ioctl hpc hs => exact tracks_ioctl T hpc hs
  | write hpc hprog hs => exact tracks_write T hpc hprog ⟨hworks, hs⟩
  | read hpc hprog hfile hread => exact tracks_read T hpc hprog hfile hread hworks
  | @close p buffer rc kernel hpc hs =>
    have F := T.follows p
    rw [Follows, hpc] at F
    obtain ⟨hprinted, -, hlen, hends⟩ := F
    refine tracks_release T hs ?_
    cases hprog : (cmd p).program with
    | messageSender =>
      rw [Command.promises, hprog] at hends
      rw [Command.closed, hprog]
      exact ⟨rfl, by rw [hprinted]; exact hends.cons _⟩
    | messageReader =>
      rw [Command.promises, hprog] at hends
      rw [Command.closed, hprog]
      exact ⟨hprinted, rfl, hlen, hends.cons _⟩
  | @output p taken buffer hpc =>
    have F := T.follows p
    rw [Follows, hpc] at F
    obtain ⟨hprinted, hfile, hlen, hends⟩ := F
    refine T.quiet _ T.kernel (fun _ _ => rfl) (fun _ _ => rfl)
      (fun q hq => ⟨rfl, setProcess_of_ne hq⟩) ?_
    rw [Machine.print, setProcess_self, hprinted, List.take_of_length_le (hlen.trans hworks)]
    exact ⟨hfile, hends.cons _⟩
  | outputFailed hpc => exact absurd hworks id
  | @release p rc kernel hpc hs =>
    have F := T.follows p
    rw [Follows, hpc] at F
    exact tracks_release T hs ⟨rfl, F.cons _⟩
  | @exit p hpc hfile =>
    have F := T.follows p
    rw [Follows, hpc] at F
    refine T.quiet _ T.kernel (fun _ _ => rfl) (fun _ _ => rfl)
      (fun q hq => ⟨rfl, setProcess_of_ne hq⟩) ?_
    rw [Machine.goto, setProcess_self]
    exact ⟨hfile, F.cons _⟩

theorem tracks_run (hr : Run (WorkingStep device cmd) Machine.init h m) : Tracks device cmd h m :=
  hr.historyInvariant tracks_init fun _ _ _ _ T hs => tracks_step T hs

theorem ends_run (hr : Run (WorkingStep device cmd) Machine.init h m) {status : Nat}
    (hpc : (m.process p).pc = .exited status) :
    Ends device cmd h p status (m.process p).printed := by
  have F := (tracks_run hr).follows p
  rw [Follows, hpc] at F
  exact F.2

/-! ## No process waits for another -/

/-- A call of `p` that its program point asks for goes through. -/
theorem exists_kernelStep (T : Tracks device cmd h m) (call : Call) (hsucc : call.Succeeds)
    {r : Except Oops (Int × Kernel)} (hx : m.kernel.exec call = some r) :
    ∃ rc kernel, KernelStep m.kernel (call, rc) kernel := by
  obtain ⟨rc, kernel, rfl⟩ := exec_faultless (agrees_run T.kernel) hsucc hx
  exact ⟨rc, kernel, hx⟩

theorem can_step (T : Tracks device cmd h m) (hlive : ∀ status, (m.process p).pc ≠ .exited status) :
    ∃ a m', WorkingStep device cmd m a m' ∧ a.process = p := by
  have F := T.follows p
  unfold Follows at F
  cases hpc : (m.process p).pc with
  | start =>
    rw [hpc] at F
    cases hrefused : (cmd p).refused device with
    | some errno => exact ⟨_, _, ⟨.refused hpc hrefused, trivial⟩, rfl⟩
    | none =>
      cases hpath : device (cmd p).msgSlotPath with
      | error errno =>
        rw [Command.refused, if_neg (not_not.2 (argc_of_not_refused hrefused)), hpath] at hrefused
        cases hrefused
      | ok minor =>
        obtain ⟨rc, kernel, hs⟩ := exists_kernelStep T (.openFile p minor true) rfl
          (by rw [Kernel.exec, F.1])
        exact ⟨_, _, ⟨.openFile hpc hrefused hpath hs, rfl⟩, rfl⟩
  | setChannel =>
    rw [hpc] at F
    obtain ⟨-, -, minor, -, hfile⟩ := F
    obtain ⟨rc, kernel, hs⟩ := exists_kernelStep T (.ioctl p MSG_SLOT_CHANNEL (cmd p).channelId)
      trivial (by rw [Kernel.exec, hfile]; rfl)
    exact ⟨_, _, ⟨.ioctl hpc hs, trivial⟩, rfl⟩
  | transfer =>
    rw [hpc] at F
    obtain ⟨-, minor, hconn, hfile⟩ := F
    cases hprog : (cmd p).program with
    | messageSender =>
      have hsucc : Call.Succeeds (.write p (bufferOf (cmd p).msgToPass) (cmd p).msgToPass.length
          ⟨some 0, some fun _ => 0, (cmd p).msgToPass.length⟩) := ⟨rfl, rfl, Nat.le_refl _⟩
      obtain ⟨rc, kernel, hs⟩ := exists_kernelStep T _ hsucc (by rw [Kernel.exec, hfile]; rfl)
      exact ⟨_, _, ⟨.write hpc hprog hs, hsucc⟩, rfl⟩
    | messageReader =>
      have hread := read_agrees (agrees_run T.kernel) hfile (Nat.le_refl MAX_BUF_LEN)
      exact ⟨_, _, ⟨.read hpc hprog hfile hread, Nat.le_refl _⟩, rfl⟩
  | close buffer =>
    rw [hpc] at F
    obtain ⟨file, hfile⟩ := Option.isSome_iff_exists.1 F.2.1
    obtain ⟨rc, kernel, hs⟩ := exists_kernelStep T (.release p) trivial
      (by rw [Kernel.exec, hfile]; rfl)
    exact ⟨_, _, ⟨.close hpc hs, trivial⟩, rfl⟩
  | output buffer => exact ⟨.output p (.ok MAX_BUF_LEN), _, ⟨.output hpc, Nat.le_refl _⟩, rfl⟩
  | failing =>
    cases hfile : m.kernel.files p with
    | none => exact ⟨_, _, ⟨.exit hpc hfile, trivial⟩, rfl⟩
    | some file =>
      obtain ⟨rc, kernel, hs⟩ := exists_kernelStep T (.release p) trivial
        (by rw [Kernel.exec, hfile]; rfl)
      exact ⟨_, _, ⟨.release hpc hs, trivial⟩, rfl⟩
  | exited status => exact absurd hpc (hlive status)

/-- The steps that are left from a program point, at most. -/
def ProcessPc.rank : ProcessPc → Nat
  | .start => 6
  | .setChannel => 5
  | .transfer => 4
  | .close _ => 3
  | .output _ => 2
  | .failing => 1
  | .exited _ => 0

theorem rank_after (ret_val : Int) (pc : ProcessPc) :
    ((m.after p ret_val pc).process p).pc.rank ≤ max 1 pc.rank := by
  rw [Machine.after]
  split
  · rw [Machine.fail, setProcess_self]
    exact le_max_left ..
  · rw [Machine.goto, setProcess_self]
    exact le_max_right ..

theorem rank_lt_of {pc : ProcessPc} (hpc : (m.process p).pc = pc)
    (hlt : (m'.process p).pc.rank < pc.rank) : (m'.process p).pc.rank < (m.process p).pc.rank :=
  hpc ▸ hlt

theorem setProcess_rank {pc : ProcessPc} {process : Process} (hlt : process.pc.rank < pc.rank) :
    ((m.setProcess p process).process p).pc.rank < pc.rank := by
  rw [setProcess_self]
  exact hlt

/-- A step takes its process nearer to its end and leaves the others where they are. -/
theorem step_rank (hs : ProgramStep device cmd m a m') :
    (m'.process a.process).pc.rank < (m.process a.process).pc.rank ∧
      ∀ q, q ≠ a.process → m'.process q = m.process q := by
  cases hs with
  | refused hpc | outputFailed hpc | output hpc | release hpc | exit hpc =>
    exact ⟨rank_lt_of hpc (setProcess_rank (by simp [ProcessPc.rank])),
      fun q hq => setProcess_of_ne hq⟩
  | openFile hpc | ioctl hpc | write hpc | read hpc =>
    exact ⟨rank_lt_of hpc ((rank_after ..).trans_lt (by simp [ProcessPc.rank])),
      fun q hq => after_of_ne hq⟩
  | @close p buffer _ _ hpc =>
    refine ⟨rank_lt_of hpc (setProcess_rank ?_), fun q hq => setProcess_of_ne hq⟩
    rw [Command.closed]
    cases (cmd p).program <;> simp [ProcessPc.rank]

/-- A process that does nothing stays as it is. -/
theorem process_of_idle (hr : Run (WorkingStep device cmd) m h m') (hidle : ∀ a ∈ h, a.process ≠ p) :
    m'.process p = m.process p := by
  induction hr with
  | nil => rfl
  | @step h m₁ m₂ a _ hs ih =>
    rw [(step_rank hs.1).2 p (hidle a (List.mem_cons_self ..)).symm]
    exact ih fun b hb => hidle b (List.mem_cons_of_mem a hb)

/-- The steps of a process are counted by how far it has come. -/
theorem own_steps_le (hr : Run (WorkingStep device cmd) Machine.init h m) (p : Nat) :
    h.countP (fun a => a.process = p) + (m.process p).pc.rank ≤ 6 := by
  induction hr with
  | nil => exact Nat.le_refl 6
  | @step h m m' a hr hs ih =>
    obtain ⟨hlt, hothers⟩ := step_rank hs.1
    rw [List.countP_cons]
    by_cases hp : a.process = p
    · rw [hp] at hlt
      rw [if_pos (decide_eq_true hp)]
      omega
    · rw [if_neg (by simpa using hp), hothers p (Ne.symm hp)]
      exact ih

/-- A process alone comes to its end. -/
theorem runs_alone (hr : Run (WorkingStep device cmd) Machine.init h m) (p : Nat) :
    ∃ h' m' status, Run (WorkingStep device cmd) m h' m' ∧ (∀ a ∈ h', a.process = p) ∧
      (m'.process p).pc = .exited status := by
  generalize hrank : (m.process p).pc.rank = rank
  induction rank using Nat.strong_induction_on generalizing m h with
  | _ rank ih =>
    by_cases hexit : ∃ status, (m.process p).pc = .exited status
    · obtain ⟨status, hpc⟩ := hexit
      exact ⟨[], m, status, .nil, by simp, hpc⟩
    · obtain ⟨a, m₁, hs, hp⟩ := can_step (tracks_run hr) fun status hpc => hexit ⟨status, hpc⟩
      have hlt := (step_rank hs.1).1
      rw [hp, hrank] at hlt
      obtain ⟨h', m', status, hr', hown, hpc⟩ := ih _ hlt (hr.step hs) rfl
      refine ⟨h' ++ [a], m', status, (Run.nil.step hs).trans hr', fun b hb => ?_, hpc⟩
      rcases List.mem_append.1 hb with hb | hb
      · exact hown b hb
      · rw [List.mem_singleton.1 hb, hp]

/-- **A reader prints the message of the last sender on its channel**, and a sender that exits with
0 is one of these.  Whatever the others do and wherever they stop, a process ends after at most six
steps of its own. -/
theorem messages_are_delivered (hr : Run (WorkingStep device cmd) Machine.init h m) (p : Nat) :
    (∀ status, (m.process p).pc = .exited status →
      Ends device cmd h p status (m.process p).printed) ∧
    (∃ h' m' status, Run (WorkingStep device cmd) m h' m' ∧ (∀ a ∈ h', a.process = p) ∧
      (m'.process p).pc = .exited status) ∧
    h.countP (fun a => a.process = p) ≤ 6 := by
  refine ⟨fun status hpc => ends_run hr hpc, runs_alone hr p, ?_⟩
  have hle := own_steps_le hr p
  omega

/-- `message_sender` with a message of one byte on channel 5, and readers of that channel. -/
def smallCommands : Nat → Command
  | 0 => ⟨.messageSender, [[], [], [53], [104]]⟩
  | _ => ⟨.messageReader, [[], [], [53]]⟩

theorem messages_are_delivered_small :
    ∃ h m, Run (WorkingStep (fun _ => .ok 3) smallCommands) Machine.init h m ∧
      (m.process 0).pc = .exited 0 ∧ (m.process 0).printed = [] := by
  have hconn : (smallCommands 0).Connects (fun _ => .ok 3) 3 := ⟨rfl, rfl, by decide⟩
  have hnil : Run (WorkingStep (fun _ => .ok 3) smallCommands) Machine.init [] Machine.init := .nil
  obtain ⟨h, m, status, hr, -, hpc⟩ := (messages_are_delivered hnil 0).2.1
  have hends := (messages_are_delivered hr 0).1 status hpc
  refine ⟨h, m, hr, ?_⟩
  generalize (m.process 0).printed = printed at hends ⊢
  cases hends with
  | sent => exact ⟨hpc, rfl⟩
  | notSent _ hnot => exact absurd (hnot 3 hconn (by decide)) (by decide)
  | received hprog | nothing hprog | notConnected hprog => cases hprog

end OSCourse.MessageSlot
