import OSCourse.Lib.Run
import OSCourse.MessageSlot.Driver

/-!
# Runs of the driver

The virtual file system passes the calls on open files to the driver, one at a time.  A history
lists the calls with their return values, latest first; the functions below read off a history
what a file and a channel are supposed to hold.
-/

set_option autoImplicit false

namespace OSCourse.MessageSlot

open Transition

/-- The driver and the open files. -/
structure Kernel where
  driver : Driver
  files : Nat → Option File

def Kernel.init : Kernel := ⟨Driver.init, fun _ => none⟩

/-- A call, with the results of the fallible kernel services inside it. -/
inductive Call where
  | openFile (fd : Nat) (minor : Minor) (ok : Bool)
  | ioctl (fd : Nat) (command : BitVec 32) (param : BitVec 64)
  | write (fd : Nat) (u_buffer : Nat → UInt8) (length : Nat) (o : Outcome)
  | read (fd length writable : Nat)
  | release (fd : Nat)

/-- The call on the driver; `none` if `fd` does not allow it. -/
def Kernel.exec (k : Kernel) : Call → Option (Except Oops (Int × Kernel))
  | .openFile fd minor ok =>
    match k.files fd with
    | some _ => none
    | none =>
      let (rc, d) := deviceOpen ok minor k.driver
      some (.ok (rc, ⟨d, if rc = SUCCESS then Function.update k.files fd (some ⟨minor, 0#64⟩)
        else k.files⟩))
  | .ioctl fd command param =>
    (k.files fd).map fun file =>
      let (rc, file) := deviceIoctl file command param
      .ok (rc, { k with files := Function.update k.files fd (some file) })
  | .write fd u_buffer length o =>
    (k.files fd).map fun file => do
      let (rc, d) ← deviceWrite o k.driver file u_buffer length
      return (rc, { k with driver := d })
  | .read fd length writable =>
    (k.files fd).map fun file => do
      let (rc, _) ← deviceRead k.driver file length writable
      return (rc, k)
  | .release fd =>
    (k.files fd).map fun file =>
      .ok (deviceRelease file, { k with files := Function.update k.files fd none })

/-- A call and the value it returned. -/
abbrev Event := Call × Int

/-- A call on an open file that does not crash the kernel. -/
def KernelStep (k : Kernel) (e : Event) (k' : Kernel) : Prop := k.exec e.1 = some (.ok (e.2, k'))

theorem kernelStep_det (k : Kernel) (e : Event) (k₁ k₂ : Kernel) (h₁ : KernelStep k e k₁)
    (h₂ : KernelStep k e k₂) : k₁ = k₂ := by
  unfold KernelStep at h₁ h₂
  rw [h₁] at h₂
  simpa using h₂

/-! ## What a history says -/

/-- The minor of the file that `fd` stands for. -/
def minorOf (fd : Nat) : List Event → Option Minor
  | [] => none
  | (.openFile fd' minor _, rc) :: h => if fd' = fd ∧ rc = SUCCESS then some minor else minorOf fd h
  | (.ioctl .., _) :: h => minorOf fd h
  | (.write .., _) :: h => minorOf fd h
  | (.read .., _) :: h => minorOf fd h
  | (.release _, _) :: h => minorOf fd h

/-- The channel id of the last successful ioctl on the file that `fd` stands for. -/
def lastIoctl (fd : Nat) : List Event → Option (BitVec 64)
  | [] => none
  | (.openFile fd' _ _, rc) :: h => if fd' = fd ∧ rc = SUCCESS then none else lastIoctl fd h
  | (.ioctl fd' _ param, rc) :: h => if fd' = fd ∧ rc = SUCCESS then some param else lastIoctl fd h
  | (.write .., _) :: h => lastIoctl fd h
  | (.read .., _) :: h => lastIoctl fd h
  | (.release _, _) :: h => lastIoctl fd h

/-- The last message that was successfully written on the pair `(minor, id)`. -/
def lastMessage (minor : Minor) (id : BitVec 64) : List Event → Option (List UInt8)
  | [] => none
  | (.write fd u_buffer length _, rc) :: h =>
    if 0 ≤ rc ∧ minorOf fd h = some minor ∧ lastIoctl fd h = some id then
      some (bytesOf u_buffer length)
    else lastMessage minor id h
  | (.openFile .., _) :: h => lastMessage minor id h
  | (.ioctl .., _) :: h => lastMessage minor id h
  | (.read .., _) :: h => lastMessage minor id h
  | (.release _, _) :: h => lastMessage minor id h

/-- What `device_read` has to return on a file of the given minor and last ioctl. -/
def expectedAnswer (h : List Event) (minor : Minor) (channel : Option (BitVec 64)) (length : Nat) :
    Int × List UInt8 :=
  match channel with
  | none => (-EINVAL, [])
  | some id =>
    match lastMessage minor id h with
    | none => (-EWOULDBLOCK, [])
    | some msg => if length < msg.length then (-ENOSPC, []) else (msg.length, msg)

/-- Every kernel service that the call uses succeeds. -/
def Call.Succeeds : Call → Prop
  | .openFile _ _ ok => ok = true
  | .ioctl .. => True
  | .write _ _ length o => o.node.isSome ∧ o.buffer.isSome ∧ length ≤ o.readable
  | .read _ length writable => length ≤ writable
  | .release _ => True

end OSCourse.MessageSlot
