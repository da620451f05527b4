import Mathlib

/-!
# The kernel services that the message-slot driver calls

Allocations are named by handles that are never given out twice; a block is a handle with the
bytes it holds, so that its length is the allocated size.  Which calls succeed, what a fresh
block contains and how far a user buffer is accessible are chosen by the caller of the model.

* `kmalloc`, `krealloc` — `none` is the NULL pointer; a failed `krealloc` leaves the old block live.
* `kfree` — does nothing on NULL, and must not be given a handle that is not live.
* `copyFromUser` — copies up to the first inaccessible byte, pads the rest of the destination
  with zero bytes and returns the number of bytes that were not copied.
* `copyToUser` — faults on NULL and on a length beyond the block.
-/

set_option autoImplicit false

namespace OSCourse.MessageSlot

/-- How a call can crash the kernel. -/
inductive Oops where
  | nullDeref
  | outOfBounds
  deriving DecidableEq, Repr

structure Block where
  handle : Nat
  bytes : List UInt8
  deriving DecidableEq, Repr

/-- The handles in use, and the first one that was never given out. -/
structure Heap where
  next : Nat
  live : List Nat
  deriving DecidableEq, Repr

def Heap.empty : Heap := ⟨0, []⟩

/-- The first `n` bytes of a buffer. -/
def bytesOf (buf : Nat → UInt8) (n : Nat) : List UInt8 := (List.range n).map buf

@[simp] theorem bytesOf_length (buf : Nat → UInt8) (n : Nat) : (bytesOf buf n).length = n := by
  simp [bytesOf]

/-- `kmalloc(size)`: `junk` is what the fresh block contains, `none` a failure. -/
def kmalloc (size : Nat) (junk : Option (Nat → UInt8)) (heap : Heap) : Option Block × Heap :=
  match junk with
  | none => (none, heap)
  | some junk => (some ⟨heap.next, bytesOf junk size⟩, ⟨heap.next + 1, heap.next :: heap.live⟩)

/-- `krealloc(p, size)`: the contents are kept up to the smaller of the two sizes. -/
def krealloc (p : Option Block) (size : Nat) (junk : Option (Nat → UInt8)) (heap : Heap) :
    Option Block × Heap :=
  match junk with
  | none => (none, heap)
  | some junk =>
    match p with
    | none => kmalloc size (some junk) heap
    | some b =>
      (some ⟨heap.next, b.bytes.take size ++ (bytesOf junk size).drop b.bytes.length⟩,
        ⟨heap.next + 1, heap.next :: heap.live.erase b.handle⟩)

/-- `kfree(p)`; no result when `p` was freed before. -/
def kfree (p : Option Nat) (heap : Heap) : Option Heap :=
  match p with
  | none => some heap
  | some handle =>
    if handle ∈ heap.live then some { heap with live := heap.live.erase handle } else none

/-- What `copy_from_user` leaves at the destination when only `readable` bytes can be read. -/
def copiedBytes (from_ : Nat → UInt8) (n readable : Nat) : List UInt8 :=
  bytesOf from_ (min readable n) ++ List.replicate (n - readable) 0

@[simp] theorem copiedBytes_length (from_ : Nat → UInt8) (n readable : Nat) :
    (copiedBytes from_ n readable).length = n := by
  simp only [copiedBytes, List.length_append, bytesOf_length, List.length_replicate]; omega

theorem copiedBytes_all {from_ : Nat → UInt8} {n readable : Nat} (h : n ≤ readable) :
    copiedBytes from_ n readable = bytesOf from_ n := by
  simp [copiedBytes, Nat.min_eq_right h, Nat.sub_eq_zero_of_le h]

/-- `copy_from_user(to, from, n)` into a block of at least `n` bytes. -/
def copyFromUser (to_ : Block) (from_ : Nat → UInt8) (n readable : Nat) : Nat × Block :=
  (n - readable, { to_ with bytes := copiedBytes from_ n readable ++ to_.bytes.drop n })

/-- `copy_to_user(to, from, n)` with `writable` accessible bytes at `to`: the number of bytes not
copied, and the bytes of the source. -/
def copyToUser (from_ : Option Block) (n writable : Nat) : Except Oops (Nat × List UInt8) :=
  if n = 0 then .ok (0, [])
  else
    match from_ with
    | none => .error .nullDeref
    | some b =>
      if n ≤ b.bytes.length then .ok (n - writable, b.bytes.take n) else .error .outOfBounds

/-! ## Error numbers -/

def EWOULDBLOCK : Int := 11
def ENOMEM : Int := 12
def EFAULT : Int := 14
def EINVAL : Int := 22
def ENOSPC : Int := 28
def EMSGSIZE : Int := 90

end OSCourse.MessageSlot
