import Mathlib

/-!
# Physical memory of the page-table exercise (`os.c`, `os.h`)

Frames are handed out in order and never given back.  A virtual address is a frame with a byte
offset; the NULL pointer is `none`.  `mmap` belongs to the operating system: whether the call
that should back frame `n` succeeds is the parameter `mmap n`.  A fresh frame is zero-filled
(`MAP_ANONYMOUS`).
-/

set_option autoImplicit false

namespace OSCourse.PageTable

/-- `2^20 pages ought to be enough for anybody`. -/
def NPAGES : Nat := 1024 * 1024

/-- `~0ULL`. -/
def NO_MAPPING : BitVec 64 := ~~~0#64

def PT_SIZE_BYTES : Nat := 4096
def PT_ENTRY_SIZE_BYTES : Nat := 8
def PT_ENTRIES_NUM : Nat := PT_SIZE_BYTES / PT_ENTRY_SIZE_BYTES

abbrev PtEntry := BitVec 64

/-- The 8-byte words of a frame; only indices below `PT_ENTRIES_NUM` are ever used. -/
abbrev PtNode := Nat → PtEntry

/-- How the program can stop inside a call. -/
inductive Stop where
  | outOfPhysicalMemory
  | mmapFailed
  | segfault
  deriving DecidableEq, Repr

/-- The static counter of `alloc_page_frame` and the array `pages` (`none` is NULL), with the
contents of the frames. -/
structure Memory where
  nalloc : Nat
  pages : Nat → Option PtNode

/-- The state at program start. -/
def Memory.init : Memory := ⟨0, fun _ => none⟩

/-- A virtual address inside a frame. -/
structure VAddr where
  frame : Nat
  off : Nat
  deriving DecidableEq, Repr

/-- `alloc_page_frame`. -/
def allocPageFrame (mmap : Nat → Bool) (m : Memory) : Except Stop (BitVec 64 × Memory) :=
  if m.nalloc = NPAGES then .error .outOfPhysicalMemory
  else
    let ppn := m.nalloc
    if mmap ppn then
      .ok (BitVec.ofNat 64 ppn, ⟨m.nalloc + 1, Function.update m.pages ppn (some fun _ => 0)⟩)
    else .error .mmapFailed

/-- `phys_to_virt`: `pages[ppn] + off`, or NULL beyond the last page. -/
def physToVirt (m : Memory) (phys_addr : BitVec 64) : Option VAddr :=
  let ppn := phys_addr >>> 12
  let off := phys_addr &&& 0xfff#64
  if ppn.toNat < NPAGES then (m.pages ppn.toNat).map fun _ => ⟨ppn.toNat, off.toNat⟩ else none

/-- The word that `entries[idx]` of the table at `p` lives in: its frame, the frame's contents
and the word's place in it.  NULL, an unallocated frame, a misaligned pointer and an index
beyond the frame fault. -/
def Memory.word (m : Memory) (p : Option VAddr) (idx : BitVec 64) :
    Except Stop (Nat × PtNode × Nat) :=
  match p with
  | none => .error .segfault
  | some a =>
    match m.pages a.frame with
    | none => .error .segfault
    | some node =>
      let k := a.off / PT_ENTRY_SIZE_BYTES + idx.toNat
      if a.off % PT_ENTRY_SIZE_BYTES = 0 ∧ k < PT_ENTRIES_NUM then .ok (a.frame, node, k)
      else .error .segfault

/-- `p->entries[idx]`. -/
def Memory.readEntry (m : Memory) (p : Option VAddr) (idx : BitVec 64) : Except Stop PtEntry := do
  let (_, node, k) ← m.word p idx
  return node k

/-- `p->entries[idx] = e`. -/
def Memory.writeEntry (m : Memory) (p : Option VAddr) (idx : BitVec 64) (e : PtEntry) :
    Except Stop Memory := do
  let (f, node, k) ← m.word p idx
  return { m with pages := Function.update m.pages f (some (Function.update node k e)) }

end OSCourse.PageTable
