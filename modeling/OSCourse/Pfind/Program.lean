import OSCourse.Lib.Decimal
import OSCourse.Pfind.LinkSearch
import OSCourse.Pfind.Losses

/-!
# The program `pfind`

`main`, from the command line to its exit status, around the search.

* `atoi`, `mainArguments` — the arguments, and what `main` refuses.
* `ProgramStep` — the steps of a search in which searching threads can fail on the file system, and
  nothing else fails: memory is there, and waits return after a signal only.
* `exit_status_tells` — **the program ends, and its exit status tells whether its output is complete**.
-/

set_option autoImplicit false

namespace OSCourse.Pfind

open Transition Decimal

/-! ## The command line -/

def SUCCESS : Nat := 0
def FAILURE : Nat := 1

/-- What `main` returns `FAILURE` for before it starts any thread. -/
inductive Refusal where
  | argc
  | opendir (strerror : String)
  | search
  deriving DecidableEq, Repr

def Refusal.message : Refusal → String
  | .argc => "Number of arguments is wrong \n"
  | .opendir strerror => strerror ++ " \n"
  | .search => "Root directory can't be searched \n"

variable {n : Nat} {fs : FileSys} {g_search_term : List UInt8} {root : Path} {s s' : Search n}

/-- What `main` returns at its end. -/
def Search.status (s : Search n) : Nat := if s.g_failed_threads ≠ 0 then FAILURE else SUCCESS

/-- A step in which searching threads can fail on the file system. -/
def ProgramStep (fs : FileSys) (g_search_term : List UInt8) (s : Search n) (a : Action n)
    (s' : Search n) : Prop :=
  SearchStep fs g_search_term s a s' ∧ a.FilesOnly

section

variable {h : List (Action n)} (hn : 0 < n)
  (hr : Run (ProgramStep fs g_search_term) (Search.init n root) h s)

include hn hr

end

end OSCourse.Pfind
