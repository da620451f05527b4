import Mathlib

/-!
# The file system that the search runs on

A path is the byte string that `pfind.c` builds.  The tree does not change during a search: `stat`
and `readdir` answer by the path.  Whether a call fails is no matter of the tree, it is chosen
step by step (`Pfind.Threads`).

* `FileSys` — the answers of `stat` and `readdir`; a directory lists each of its names once.
* `visit` — what `iterate_in_directory` makes of one name.
-/

set_option autoImplicit false

namespace OSCourse.Pfind

abbrev Name := List UInt8
abbrev Path := List UInt8

/-- The byte `'/'`. -/
def slash : UInt8 := 47

/-- What `stat` tells: a directory with or without the owner's read and execute bits, or not. -/
inductive Stat where
  | notDir
  | dir (rusr xusr : Bool)
  deriving DecidableEq, Repr

structure FileSys where
  stat : Path → Stat
  readdir : Path → List Name
  nodup : ∀ path, (readdir path).Nodup
  noSlash : ∀ path, ∀ name ∈ readdir path, slash ∉ name

/-- `dir_queue_entry_t`, without its links. -/
structure DirQueueEntry where
  path_name : Path
  dir_name : Name
  deriving DecidableEq, Repr

/-- `S_ISDIR`, and both bits. -/
def Stat.searchable : Stat → Bool
  | .dir rusr xusr => rusr && xusr
  | .notDir => false

/-- `is_searchable`, of a path that `opendir` has accepted. -/
def isSearchable (fs : FileSys) (dir_path : Path) : Bool := (fs.stat dir_path).searchable

/-- `is_dot_folder`. -/
def isDotFolder (dir_name : Name) : Bool := dir_name == [46] || dir_name == [46, 46]

/-- `strstr(s, t) != NULL`. -/
def strstr (s t : List UInt8) : Bool := s.tails.any fun suffix => t.isPrefixOf suffix

/-- `new_pathname`. -/
def newPathname (path_name : Path) (d_name : Name) : Path := path_name ++ slash :: d_name

/-- What is done for one name in a directory. -/
inductive Visit where
  /-- `"."`, `".."`, or a file that does not match -/
  | skip
  /-- the path of a matching file is printed -/
  | found (path : Path)
  /-- a directory that cannot be searched is reported -/
  | denied (path : Path)
  /-- a directory is given to a sleeping thread or to the queue -/
  | give (child : DirQueueEntry)
  deriving DecidableEq, Repr

/-- The body of the loop of `iterate_in_directory`, up to the lock. -/
def visit (fs : FileSys) (g_search_term : List UInt8) (removed_entry : DirQueueEntry)
    (d_name : Name) : Visit :=
  let new_pathname := newPathname removed_entry.path_name d_name
  if isDotFolder d_name then .skip
  else
    match fs.stat new_pathname with
    | .dir rusr xusr =>
      if rusr && xusr then .give ⟨new_pathname, d_name⟩ else .denied new_pathname
    | .notDir => if strstr d_name g_search_term then .found new_pathname else .skip

theorem strstr_iff (s t : List UInt8) : strstr s t = true ↔ t <:+: s := by
  simp only [strstr, List.any_eq_true, List.mem_tails, List.isPrefixOf_iff_prefix]
  constructor
  · rintro ⟨suffix, ⟨pre, rfl⟩, ⟨post, rfl⟩⟩
    exact ⟨pre, post, by simp⟩
  · rintro ⟨pre, post, rfl⟩
    exact ⟨t ++ post, ⟨pre, by simp⟩, List.prefix_append _ _⟩

end OSCourse.Pfind
