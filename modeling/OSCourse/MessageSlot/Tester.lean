import OSCourse.MessageSlot.Programs

/-!
# `my_tester.c`

The tester forks one sender for each channel and waits for none of them.  The child of channel `c`
is process `c` here; `limit` is the channel at which the loop ends, `CHUNNELS_MAX` or the first one
for which `fork` fails.  Each child runs the sender: `execvp` does not fail.

* `testerSender` — the command of a child.
* `tester_messages_arrive` — **every child succeeds, and who reads a channel after its child has
  ended prints the message of that channel**.
-/

set_option autoImplicit false

namespace OSCourse.MessageSlot

open Transition Decimal

/-- The bytes of an ASCII string. -/
def ascii (str : String) : List UInt8 := str.toList.map fun c => UInt8.ofNat c.toNat

def SENDER_PATH : List UInt8 := ascii "./sender.o"
def SLOT0_PATH : List UInt8 := ascii "/dev/slot0"
def CHUNNELS_MAX : Nat := 1024 * 1024

/-- `sprintf(channel_text, "%d", channel)`. -/
def channelText (channel : Nat) : List UInt8 := decimal channel

/-- `sprintf(msg, "hi %d", channel)`. -/
def testerMsg (channel : Nat) : List UInt8 := ascii "hi " ++ decimal channel

/-- `sender_exec_args` of the child for a channel. -/
def testerSender (channel : Nat) : Command :=
  ⟨.messageSender, [SENDER_PATH, SLOT0_PATH, channelText channel, testerMsg channel]⟩

/-- The size of `channel_text` and `msg`. -/
def TEXT_SIZE : Nat := 20

variable {device : List UInt8 → Except Int Minor} {cmd : Nat → Command} {m m' : Machine}
  {h h' : List Action} {minor : Minor} {id : BitVec 64} {c limit : Nat}

/-! ## The commands of the children -/

theorem decimal_length_le (hc : c < CHUNNELS_MAX) : (decimal c).length ≤ 7 := by
  rw [decimal]
  split
  · decide
  · rw [List.length_map, List.length_reverse, Nat.digits_length_le_iff (by decide)]
    exact hc.trans (by decide)

theorem testerMsg_length (hc : c < CHUNNELS_MAX) : (testerMsg c).length ≤ 10 := by
  have hlen := decimal_length_le hc
  rw [testerMsg, List.length_append]
  exact Nat.add_le_add_left hlen 3

/-- `atoi` of a printed channel. -/
theorem channelId_toNat {cmd : Command} (harg : cmd.argv.getD 2 [] = channelText c)
    (hc : c < CHUNNELS_MAX) : cmd.channelId.toNat = c := by
  have hc : c < 1048576 := hc
  rw [Command.channelId, harg, channelText, atoi_decimal, BitVec.ofInt_natCast, BitVec.toNat_setWidth,
    BitVec.toNat_ofNat]
  omega

theorem testerSender_connects (hdevice : device SLOT0_PATH = .ok minor) (hpos : 1 ≤ c)
    (hc : c < CHUNNELS_MAX) : (testerSender c).Connects device minor where
  argc := rfl
  path := hdevice
  channel hzero := by
    have hid : (testerSender c).channelId.toNat = c := channelId_toNat rfl hc
    rw [hzero, BitVec.toNat_ofNat] at hid
    omega

/-! ## Who writes -/

/-- Only senders write on a channel. -/
theorem sender_of_sentOn (hr : Run (WorkingStep device cmd) Machine.init h m) {a : Action}
    (ha : a ∈ h) {p : Nat} (hsent : a.sentOn device cmd minor id = some p) :
    (cmd p).program = .messageSender ∧ device (cmd p).msgSlotPath = .ok minor ∧
      (cmd p).channelId = id := by
  induction hr with
  | nil => simp at ha
  | step _ hs ih =>
    rcases List.mem_cons.1 ha with rfl | ha
    · cases hs.1 with
      | @write p' _ _ _ _ hprog _ =>
        rw [Action.sentOn] at hsent
        split at hsent
        · rename_i hcond
          cases hsent
          exact ⟨hprog, hcond.2⟩
        · cases hsent
      | _ => cases hsent
    · exact ih ha

/-- A process that has not started has done nothing. -/
theorem not_mem_of_start (hr : Run (WorkingStep device cmd) Machine.init h m) {p : Nat}
    (hpc : (m.process p).pc = .start) : ∀ a ∈ h, a.process ≠ p := by
  intro a ha hp
  have hle := own_steps_le hr p
  have hpos : 0 < h.countP fun a => a.process = p :=
    List.countP_pos_iff.2 ⟨a, ha, decide_eq_true hp⟩
  rw [hpc, ProcessPc.rank] at hle
  omega

/-- What is read after `h` is read in a state that `h` is the past of. -/
theorem suffix_of_not_mem {a : Action} {h₁ : List Action} (hsuf : a :: h₁ <:+ h' ++ h)
    (ha : a ∉ h) : h <:+ h₁ := by
  rcases List.suffix_or_suffix_of_suffix hsuf (List.suffix_append h' h) with hsuf | hsuf
  · exact absurd (hsuf.subset (List.mem_cons_self ..)) ha
  · rcases List.suffix_cons_iff.1 hsuf with rfl | hsuf
    · exact absurd (List.mem_cons_self ..) ha
    · exact hsuf

theorem exists_lastSender {a : Action} (ha : a ∈ h) {p : Nat}
    (hsent : a.sentOn device cmd minor id = some p) :
    ∃ q, lastSender device cmd minor id h = some q := by
  rw [← Option.isSome_iff_exists, lastSender, List.findSome?_isSome_iff]
  exact ⟨a, ha, by rw [hsent]; rfl⟩

/-! ## The tester -/

/-- The commands that run beside each other: the children up to `limit`, and readers. -/
structure Tested (cmd : Nat → Command) (limit : Nat) : Prop where
  limit_le : limit ≤ CHUNNELS_MAX
  child (c : Nat) : 1 ≤ c → c < limit → cmd c = testerSender c
  other (p : Nat) : ¬(1 ≤ p ∧ p < limit) → (cmd p).program = .messageReader

/-- The only process that writes on channel `c`. -/
theorem Tested.sender (S : Tested cmd limit) (hr : Run (WorkingStep device cmd) Machine.init h m)
    (hid : id.toNat = c) {p : Nat} (hlast : lastSender device cmd minor id h = some p) : p = c := by
  obtain ⟨a, ha, hsent⟩ := List.exists_of_findSome?_eq_some hlast
  obtain ⟨hprog, -, hchannel⟩ := sender_of_sentOn hr ha hsent
  by_cases hchild : 1 ≤ p ∧ p < limit
  · have hp : (cmd p).channelId.toNat = p := by
      rw [S.child p hchild.1 hchild.2]
      exact channelId_toNat rfl (hchild.2.trans_le S.limit_le)
    rw [← hid, ← hchannel, hp]
  · rw [S.other p hchild] at hprog
    cases hprog

/-- A child that has ended has written its message. -/
theorem Tested.child_ends (S : Tested cmd limit) (hdevice : device SLOT0_PATH = .ok minor)
    (hr : Run (WorkingStep device cmd) Machine.init h m) (hpos : 1 ≤ c) (hc : c < limit)
    {status : Nat} (hpc : (m.process c).pc = .exited status) :
    status = 0 ∧ (m.process c).printed = [] ∧
      ∃ a ∈ h, a.sentOn device cmd minor (cmd c).channelId = some c := by
  have hmax := hc.trans_le S.limit_le
  have hcmd := S.child c hpos hc
  have hconn : (cmd c).Connects device minor := hcmd ▸ testerSender_connects hdevice hpos hmax
  have hends := ends_run hr hpc
  generalize (m.process c).printed = printed at hends ⊢
  cases hends with
  | sent _ hconn' _ _ hmem hsent =>
    cases hconn'.path.symm.trans hconn.path
    exact ⟨rfl, rfl, _, hmem, hsent⟩
  | notSent _ hnot =>
    have hmsg : (cmd c).msgToPass = testerMsg c := by rw [hcmd]; rfl
    have hlen := hnot minor hconn (by rw [hmsg]; simp [testerMsg, decimal_ne_nil])
    rw [hmsg] at hlen
    exact absurd (hlen.trans_le (testerMsg_length hmax)) (by decide)
  | received hprog | nothing hprog | notConnected hprog =>
    rw [hcmd] at hprog
    cases hprog

/-- **Every channel of the tester keeps its own message.**  The texts fit into the buffers of the
tester; every child that ends succeeds; and a reader of channel `c` that starts after the child of
channel `c` has ended prints `hi c` and succeeds, whatever the other children and readers do. -/
theorem tester_messages_arrive (S : Tested cmd limit) (hdevice : device SLOT0_PATH = .ok minor)
    (hr : Run (WorkingStep device cmd) Machine.init h m)
    (hr' : Run (WorkingStep device cmd) m h' m') (hpos : 1 ≤ c) (hc : c < limit) {status : Nat}
    (hpc : (m.process c).pc = .exited status) :
    ((channelText c).length < TEXT_SIZE ∧ (testerMsg c).length < TEXT_SIZE) ∧
      (status = 0 ∧ (m.process c).printed = []) ∧
      ∀ p arg₀ code, cmd p = ⟨.messageReader, [arg₀, SLOT0_PATH, channelText c]⟩ →
        (m.process p).pc = .start → (m'.process p).pc = .exited code →
        code = 0 ∧ (m'.process p).printed = [.message (testerMsg c)] := by
  have hmax := hc.trans_le S.limit_le
  obtain ⟨hstatus, hprinted, a, ha, hsent⟩ := S.child_ends hdevice hr hpos hc hpc
  have htext : (channelText c).length < TEXT_SIZE :=
    (decimal_length_le hmax).trans_lt (by decide)
  refine ⟨⟨htext, (testerMsg_length hmax).trans_lt (by decide)⟩, ⟨hstatus, hprinted⟩, ?_⟩
  intro p arg₀ code hreader hstart hexit
  have hid : (cmd p).channelId.toNat = c := channelId_toNat (by rw [hreader]; rfl) hmax
  have hchannel : (cmd c).channelId = (cmd p).channelId := by
    refine BitVec.eq_of_toNat_eq ?_
    rw [hid, S.child c hpos hc]
    exact channelId_toNat rfl hmax
  have hconn : (cmd p).Connects device minor := by
    refine ⟨by rw [hreader]; rfl, by rw [hreader]; exact hdevice, fun hzero => ?_⟩
    rw [hzero, BitVec.toNat_ofNat] at hid
    omega
  -- the read comes after the child's write, and nobody else writes on the channel
  have hheard : ∀ minor' sender, (cmd p).Connects device minor' →
      Heard device cmd minor' (cmd p).channelId (h' ++ h) p sender → sender = some c := by
    rintro minor' sender hconn' ⟨writable, rc, h₁, hsuf, rfl⟩
    cases hconn'.path.symm.trans hconn.path
    obtain ⟨m₁, hr₁⟩ := (hr.trans hr').suffix ((List.suffix_cons _ h₁).trans hsuf)
    have hpast := suffix_of_not_mem hsuf fun hmem => not_mem_of_start hr hstart _ hmem rfl
    rw [hchannel] at hsent
    obtain ⟨q, hq⟩ := exists_lastSender (hpast.subset ha) hsent
    rw [hq, S.sender hr₁ hid hq]
  have hends := ends_run (hr.trans hr') hexit
  generalize (m'.process p).printed = printed at hends ⊢
  cases hends with
  | sent hprog | notSent hprog =>
    rw [hreader] at hprog
    cases hprog
  | received _ hconn' H =>
    cases hheard _ _ hconn' H
    rw [S.child c hpos hc]
    exact ⟨rfl, rfl⟩
  | nothing _ hconn' H => cases hheard _ _ hconn' H
  | notConnected _ hnot => exact absurd hconn (hnot minor)

/-- The tester with one channel, and readers of it. -/
def oneChannel (p : Nat) : Command :=
  if 1 ≤ p ∧ p < 2 then testerSender 1 else ⟨.messageReader, [[], SLOT0_PATH, channelText 1]⟩

theorem tester_messages_arrive_one :
    ∃ h m, Run (WorkingStep (fun _ => .ok 0) oneChannel) Machine.init h m ∧
      (m.process 0).pc = .exited 0 ∧ (m.process 0).printed = [.message (testerMsg 1)] := by
  have S : Tested oneChannel 2 := by
    refine ⟨by decide, fun c hpos hc => ?_, fun p hp => ?_⟩
    · rw [oneChannel, if_pos ⟨hpos, hc⟩, show c = 1 by omega]
    · rw [oneChannel, if_neg hp]
  have hnil : Run (WorkingStep (fun _ => .ok 0) oneChannel) Machine.init [] Machine.init := .nil
  obtain ⟨h, m, status, hr, hown, hpc⟩ := runs_alone hnil 1
  obtain ⟨h', m', code, hr', -, hpc'⟩ := runs_alone hr 0
  have hstart : (m.process 0).pc = .start := by
    rw [process_of_idle hr fun a ha => by rw [hown a ha]; decide]
    rfl
  obtain ⟨-, -, harrives⟩ := tester_messages_arrive S rfl hr hr' (Nat.le_refl 1) (by decide) hpc
  obtain ⟨rfl, hprinted⟩ := harrives 0 [] code rfl hstart hpc'
  exact ⟨h' ++ h, m', hr.trans hr', hpc', hprinted⟩

end OSCourse.MessageSlot
