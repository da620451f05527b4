import OSCourse.Pfind.Buffers

/-!
# File system trees with symbolic links

A position in a tree is the list of the names that lead to it, the last one first.  `stat`, `opendir`
and `readdir` are called with paths, and follow links.

* `LinkTree` — the entries of a tree, and what each symbolic link leads to in the end.
* `LinkTree.lookup` — what a path leads to: nothing, a file, or a directory, by its position.  The
  kernel refuses paths of more than `PATH_MAX` bytes, with the terminator, and paths through more than
  `MAXSYMLINKS` links.
* `LinkTree.fileSys` — the file system that a search sees; its directories have both bits.
* `names_pathOf`, `names_inj` — paths and positions determine each other.
* `Plain` — every symbolic link leads to a file within the limits, and every directory leaves room for
  its names; then a path to a directory goes through no link but those of the root's path
  (`resolve_real`).

A tree does not change during a search, and a link to a directory leads to one of the tree.
-/

set_option autoImplicit false

namespace OSCourse.Pfind

open Relation

/-- The limit of the kernel: a path through more symbolic links is refused with `ELOOP`. -/
def MAXSYMLINKS : Nat := 40

/-- What a symbolic link leads to in the end. -/
inductive Target where
  /-- a name that is not there, or the link itself -/
  | missing
  | file
  /-- the directory at a position of the tree -/
  | dir (pos : List Name)
  deriving DecidableEq, Repr

inductive Entry where
  | file
  /-- with what `readdir` returns, `"."` and `".."` or not -/
  | dir (names : List Name)
  /-- after `more` other links -/
  | link (more : Nat) (target : Target)
  deriving DecidableEq, Repr

/-- A finite tree; positions are lists of names, the last one first. -/
structure LinkTree where
  entry : List Name → Option Entry
  depth : Nat
  /-- the links that the path of the root goes through -/
  rootLinks : Nat
  root : ∃ names, entry [] = some (.dir names)
  child : ∀ pos name, (entry (name :: pos)).isSome = true ↔
    ∃ names, entry pos = some (.dir names) ∧ name ∈ names ∧ isDotFolder name = false
  target : ∀ pos more p, entry pos = some (.link more (.dir p)) → ∃ names, entry p = some (.dir names)
  nodup : ∀ pos names, entry pos = some (.dir names) → names.Nodup
  noSlash : ∀ pos names, entry pos = some (.dir names) → ∀ name ∈ names, slash ∉ name
  shallow : ∀ pos, (entry pos).isSome = true → pos.length ≤ depth

/-- A file or a directory that a path leads to. -/
inductive Resolved where
  | file
  | dir (pos : List Name)
  deriving DecidableEq, Repr

namespace LinkTree

variable (T : LinkTree)

/-- What the entry at a position is or leads to. -/
def follow (pos : List Name) : Option Resolved :=
  match T.entry pos with
  | none | some (.link _ .missing) => none
  | some .file | some (.link _ .file) => some .file
  | some (.dir _) => some (.dir pos)
  | some (.link _ (.dir p)) => some (.dir p)

/-- How many links are followed at a position. -/
def linksAt (pos : List Name) : Nat :=
  match T.entry pos with
  | some (.link more _) => more + 1
  | _ => 0

/-- What the names lead to, one after the other. -/
def resolve : List Name → Option Resolved
  | [] => some (.dir [])
  | name :: names =>
    match resolve names with
    | some (.dir pos) => T.follow (name :: pos)
    | _ => none

/-- How many links the names lead through, one after the other. -/
def links : List Name → Nat
  | [] => T.rootLinks
  | name :: names =>
    match T.resolve names with
    | some (.dir pos) => links names + T.linksAt (name :: pos)
    | _ => links names

/-- What `readdir` returns in a directory. -/
def list (pos : List Name) : List Name :=
  match T.entry pos with
  | some (.dir names) => names
  | _ => []

end LinkTree

/-! ## Paths -/

/-- The path of a position, below the path of the root. -/
def pathOf (root : Path) : List Name → Path
  | [] => root
  | name :: pos => newPathname (pathOf root pos) name

/-- The names of a path below the root, the last one first. -/
def names (root path : Path) : Option (List Name) :=
  if root.isPrefixOf path then
    match (path.drop root.length).splitOn slash with
    | [] :: names => some names.reverse
    | _ => none
  else none

theorem names_eq_some {root path : Path} {pos : List Name} : names root path = some pos ↔
    ∃ rest, path = root ++ rest ∧ rest.splitOn slash = [] :: pos.reverse := by
  unfold names
  constructor
  · intro h
    split at h
    · rename_i hbelow
      obtain ⟨rest, rfl⟩ := List.isPrefixOf_iff_prefix.1 hbelow
      rw [List.drop_left] at h
      split at h
      · rename_i ns hsplit
        cases h
        exact ⟨rest, rfl, by rw [hsplit, List.reverse_reverse]⟩
      · cases h
    · cases h
  · rintro ⟨rest, rfl, hsplit⟩
    have hbelow : root.isPrefixOf (root ++ rest) = true :=
      List.isPrefixOf_iff_prefix.2 ⟨rest, rfl⟩
    rw [if_pos hbelow, List.drop_left, hsplit]
    show some pos.reverse.reverse = some pos
    rw [List.reverse_reverse]

theorem names_root (root : Path) : names root root = some [] :=
  names_eq_some.2 ⟨[], (List.append_nil root).symm, rfl⟩

theorem names_newPathname {root dir : Path} {pos : List Name} (h : names root dir = some pos)
    {name : Name} (hname : slash ∉ name) :
    names root (newPathname dir name) = some (name :: pos) := by
  obtain ⟨rest, rfl, hsplit⟩ := names_eq_some.1 h
  refine names_eq_some.2 ⟨rest ++ slash :: name, List.append_assoc .., ?_⟩
  rw [List.splitOn_append_cons_self, hsplit, List.splitOn_eq_singleton hname, List.reverse_cons,
    List.cons_append]

/-- A path is determined by its names. -/
theorem names_inj {root path path' : Path} {pos : List Name} (h : names root path = some pos)
    (h' : names root path' = some pos) : path = path' := by
  obtain ⟨rest, rfl, hsplit⟩ := names_eq_some.1 h
  obtain ⟨rest', rfl, hsplit'⟩ := names_eq_some.1 h'
  have hrest : [slash].intercalate (rest.splitOn slash) = rest := List.intercalate_splitOn slash
  rw [← hrest, hsplit, ← hsplit', List.intercalate_splitOn]

/-! ## The file system -/

namespace LinkTree

variable (T : LinkTree) (root : Path)

/-- What a path leads to; `none` if `stat` and `opendir` fail: there is nothing, the path is too long
(`ENAMETOOLONG`), or it goes through too many links (`ELOOP`). -/
def lookup (path : Path) : Option Resolved :=
  if size path ≤ PATH_MAX then
    (names root path).bind fun ns => if T.links ns ≤ MAXSYMLINKS then T.resolve ns else none
  else none

variable {T root} {pos : List Name} {name : Name}

theorem mem_list : name ∈ T.list pos ↔ ∃ names, T.entry pos = some (.dir names) ∧ name ∈ names := by
  unfold list
  constructor
  · intro h
    split at h
    · rename_i names hentry
      exact ⟨names, hentry, h⟩
    · cases h
  · rintro ⟨names, hentry, hname⟩
    rw [hentry]
    exact hname

theorem list_nodup : (T.list pos).Nodup := by
  unfold list
  split
  · rename_i names hentry
    exact T.nodup pos names hentry
  · exact List.nodup_nil

theorem list_noSlash (h : name ∈ T.list pos) : slash ∉ name := by
  obtain ⟨names, hentry, hname⟩ := mem_list.1 h
  exact T.noSlash pos names hentry name hname

variable (T root)

/-- What a search sees of the tree below the path `root`. -/
def fileSys : FileSys where
  stat path :=
    match T.lookup root path with
    | some (.dir _) => .dir true true
    | _ => .notDir
  readdir path :=
    match T.lookup root path with
    | some (.dir pos) => T.list pos
    | _ => []
  nodup path := by
    split
    · exact list_nodup
    · exact List.nodup_nil
  noSlash path name h := by
    split at h
    · exact list_noSlash h
    · cases h

variable {T root} {dir path : Path}

theorem stat_dir {rusr xusr : Bool} : (T.fileSys root).stat path = .dir rusr xusr ↔
    (∃ pos, T.lookup root path = some (.dir pos)) ∧ rusr = true ∧ xusr = true := by
  show (match T.lookup root path with
    | some (.dir _) => Stat.dir true true
    | _ => Stat.notDir) = .dir rusr xusr ↔ _
  constructor
  · intro h
    split at h
    · rename_i pos hlookup
      cases h
      exact ⟨⟨pos, hlookup⟩, rfl, rfl⟩
    · cases h
  · rintro ⟨⟨pos, hlookup⟩, rfl, rfl⟩
    rw [hlookup]

theorem stat_notDir (h : T.lookup root path = some .file) :
    (T.fileSys root).stat path = .notDir := by
  show (match T.lookup root path with
    | some (.dir _) => Stat.dir true true
    | _ => Stat.notDir) = .notDir
  rw [h]

theorem readdir_dir (h : T.lookup root path = some (.dir pos)) :
    (T.fileSys root).readdir path = T.list pos := by
  show (match T.lookup root path with
    | some (.dir pos) => T.list pos
    | _ => []) = T.list pos
  rw [h]

/-- A name is listed by a directory only. -/
theorem mem_readdir (h : name ∈ (T.fileSys root).readdir path) :
    ∃ pos, T.lookup root path = some (.dir pos) ∧ name ∈ T.list pos := by
  have h : name ∈ (match T.lookup root path with
    | some (.dir pos) => T.list pos
    | _ => []) := h
  split at h
  · rename_i pos hlookup
    exact ⟨pos, hlookup, h⟩
  · cases h

theorem lookup_eq_some {r : Resolved} : T.lookup root path = some r ↔
    size path ≤ PATH_MAX ∧ ∃ ns, OSCourse.Pfind.names root path = some ns ∧
      T.links ns ≤ MAXSYMLINKS ∧ T.resolve ns = some r := by
  unfold lookup
  rw [Option.ite_none_right_eq_some, Option.bind_eq_some_iff]
  simp only [Option.ite_none_right_eq_some]

/-- What a path with one name more leads to, if it leads anywhere. -/
theorem lookup_newPathname (h : T.lookup root dir = some (.dir pos)) (hname : slash ∉ name)
    (hfound : T.lookup root (newPathname dir name) ≠ none) :
    T.lookup root (newPathname dir name) = T.follow (name :: pos) := by
  obtain ⟨r, hr⟩ := Option.ne_none_iff_exists'.1 hfound
  obtain ⟨-, ns, hnames, -, hresolve⟩ := lookup_eq_some.1 h
  obtain ⟨-, ns', hnames', -, hresolve'⟩ := lookup_eq_some.1 hr
  rw [names_newPathname hnames hname] at hnames'
  cases hnames'
  rw [hr, ← hresolve', resolve, hresolve]

/-! ## The entries of the tree -/

theorem entry_parent (h : (T.entry (name :: pos)).isSome = true) :
    name ∈ T.list pos ∧ isDotFolder name = false ∧ ∃ names, T.entry pos = some (.dir names) := by
  obtain ⟨names, hentry, hname, hdot⟩ := (T.child pos name).1 h
  exact ⟨mem_list.2 ⟨names, hentry, hname⟩, hdot, names, hentry⟩

theorem names_pathOf (h : (T.entry pos).isSome = true) :
    OSCourse.Pfind.names root (pathOf root pos) = some pos := by
  induction pos with
  | nil => exact names_root root
  | cons name pos ih =>
    obtain ⟨hname, -, _, hparent⟩ := entry_parent h
    rw [pathOf]
    exact names_newPathname (ih (by rw [hparent]; rfl)) (list_noSlash hname)

/-- The names of a directory lead to it, and through no link. -/
theorem resolve_entry {names : List Name} (h : T.entry pos = some (.dir names)) :
    T.resolve pos = some (.dir pos) ∧ T.links pos = T.rootLinks := by
  induction pos generalizing names with
  | nil => exact ⟨rfl, rfl⟩
  | cons name pos ih =>
    obtain ⟨-, -, _, hparent⟩ := entry_parent (h ▸ rfl : (T.entry (name :: pos)).isSome = true)
    obtain ⟨hresolve, hlinks⟩ := ih hparent
    have hfollow : T.follow (name :: pos) = some (.dir (name :: pos)) := by rw [follow, h]
    have hnone : T.linksAt (name :: pos) = 0 := by rw [linksAt, h]
    refine ⟨by rw [resolve, hresolve]; exact hfollow, ?_⟩
    rw [links, hresolve, ← hlinks]
    show T.links pos + T.linksAt (name :: pos) = T.links pos
    rw [hnone, Nat.add_zero]

/-! ## Trees in which everything is found -/

variable (T root) in
/-- The names in the directories that are reached lead to something, but for the dots. -/
def AllFound : Prop :=
  ∀ dir, Listed (T.fileSys root) root dir → ∀ name ∈ (T.fileSys root).readdir dir,
    isDotFolder name = false → T.lookup root (newPathname dir name) ≠ none

/-- A directory that is reached is one. -/
theorem lookup_listed (hroot : T.lookup root root = some (.dir []))
    (h : Listed (T.fileSys root) root dir) : ∃ pos, T.lookup root dir = some (.dir pos) := by
  rcases ReflTransGen.cases_tail h with rfl | ⟨_, -, _, -, hstat⟩
  · exact ⟨[], hroot⟩
  · exact (stat_dir.1 hstat).1

section

variable (hroot : T.lookup root root = some (.dir [])) (hfound : T.AllFound root)

include hroot hfound

/-- The path of a directory leads to it, and it is reached. -/
theorem reached_pathOf {names : List Name} (h : T.entry pos = some (.dir names)) :
    T.lookup root (pathOf root pos) = some (.dir pos) ∧
      Listed (T.fileSys root) root (pathOf root pos) := by
  induction pos generalizing names with
  | nil => exact ⟨hroot, .refl⟩
  | cons name pos ih =>
    obtain ⟨hname, hdot, _, hparent⟩ := entry_parent (h ▸ rfl : (T.entry (name :: pos)).isSome = true)
    obtain ⟨hdir, hlisted⟩ := ih hparent
    have hmem : name ∈ (T.fileSys root).readdir (pathOf root pos) := by
      rw [readdir_dir hdir]
      exact hname
    have hpath : T.lookup root (pathOf root (name :: pos)) = some (.dir (name :: pos)) := by
      rw [pathOf, lookup_newPathname hdir (list_noSlash hname) (hfound _ hlisted name hmem hdot),
        follow, h]
    exact ⟨hpath, hlisted.tail ⟨name, ⟨hmem, hdot, rfl⟩, stat_dir.2 ⟨⟨_, hpath⟩, rfl, rfl⟩⟩⟩

/-- An entry is an entry of its directory also in the file system. -/
theorem hasEntry (h : (T.entry (name :: pos)).isSome = true) :
    HasEntry (T.fileSys root) (pathOf root pos) name (pathOf root (name :: pos)) := by
  obtain ⟨hname, hdot, _, hparent⟩ := entry_parent h
  refine ⟨?_, hdot, rfl⟩
  rw [readdir_dir (reached_pathOf hroot hfound hparent).1]
  exact hname

/-- What the path of an entry leads to. -/
theorem lookup_entry (h : (T.entry (name :: pos)).isSome = true) :
    T.lookup root (pathOf root (name :: pos)) = T.follow (name :: pos) := by
  obtain ⟨hname, hdot, _, hparent⟩ := entry_parent h
  obtain ⟨hdir, hlisted⟩ := reached_pathOf hroot hfound hparent
  exact lookup_newPathname hdir (list_noSlash hname)
    (hfound _ hlisted name (hasEntry hroot hfound h).listed hdot)

end

/-! ## Trees whose links lead to files -/

variable (T root) in
/-- Every symbolic link leads to a file, within the limit of the kernel, and the path of every
directory leaves room for `'/'`, each of its names and the terminator. -/
structure Plain : Prop where
  links : ∀ pos more target, T.entry pos = some (.link more target) →
    target = .file ∧ T.rootLinks + (more + 1) ≤ MAXSYMLINKS
  room : ∀ pos names, T.entry pos = some (.dir names) → ∀ name ∈ names,
    (pathOf root pos).length + name.length + 2 ≤ PATH_MAX

section

variable (hplain : T.Plain root)

include hplain

theorem follow_ne_none (h : (T.entry pos).isSome = true) : T.follow pos ≠ none := by
  unfold follow
  split
  · rename_i hentry
    rw [hentry] at h
    cases h
  · rename_i hentry
    cases (hplain.links pos _ _ hentry).1
  all_goals exact nofun

theorem follow_dir {p : List Name} (h : T.follow pos = some (.dir p)) :
    p = pos ∧ ∃ names, T.entry pos = some (.dir names) := by
  unfold follow at h
  split at h
  · cases h
  · cases h
  · cases h
  · cases h
  · rename_i names hentry
    cases h
    exact ⟨rfl, names, hentry⟩
  · rename_i hentry
    cases (hplain.links pos _ _ hentry).1

/-- The links at a position are within the limit. -/
theorem linksAt_le (hroot : T.rootLinks ≤ MAXSYMLINKS) (pos : List Name) :
    T.rootLinks + T.linksAt pos ≤ MAXSYMLINKS := by
  unfold linksAt
  split
  · rename_i hentry
    exact (hplain.links pos _ _ hentry).2
  · exact hroot

/-- A path to a directory goes through no link of the tree. -/
theorem resolve_real {ns p : List Name} (h : T.resolve ns = some (.dir p)) :
    p = ns ∧ ∃ names, T.entry ns = some (.dir names) := by
  induction ns generalizing p with
  | nil =>
    cases h
    exact ⟨rfl, T.root⟩
  | cons name ns ih =>
    rw [resolve] at h
    split at h
    · rename_i q hq
      obtain ⟨rfl, -⟩ := ih hq
      exact follow_dir hplain h
    · cases h

theorem lookup_real (h : T.lookup root path = some (.dir pos)) :
    OSCourse.Pfind.names root path = some pos ∧ path = pathOf root pos ∧
      T.rootLinks ≤ MAXSYMLINKS ∧ ∃ names, T.entry pos = some (.dir names) := by
  obtain ⟨-, ns, hnames, hlinks, hresolve⟩ := lookup_eq_some.1 h
  obtain ⟨rfl, names, hentry⟩ := resolve_real hplain hresolve
  refine ⟨hnames, names_inj hnames (names_pathOf (by rw [hentry]; rfl)), ?_, names, hentry⟩
  rwa [(resolve_entry hentry).2] at hlinks

/-- Every name of a directory fits behind its path. -/
theorem size_name (h : T.lookup root dir = some (.dir pos)) (hname : name ∈ T.list pos) :
    size (newPathname dir name) ≤ PATH_MAX := by
  obtain ⟨-, rfl, -, -⟩ := lookup_real hplain h
  obtain ⟨names, hentry, hmem⟩ := mem_list.1 hname
  rw [size_newPathname]
  exact hplain.room pos names hentry name hmem

/-- Every name but the dots is found. -/
theorem lookup_name (h : T.lookup root dir = some (.dir pos)) (hname : name ∈ T.list pos)
    (hdot : isDotFolder name = false) : T.lookup root (newPathname dir name) ≠ none := by
  obtain ⟨hnames, -, hlimit, names, hentry⟩ := lookup_real hplain h
  obtain ⟨hresolve, hlinks⟩ := resolve_entry hentry
  have hmem : name ∈ names := by
    rw [list, hentry] at hname
    exact hname
  obtain ⟨r, hr⟩ := Option.ne_none_iff_exists'.1
    (follow_ne_none hplain ((T.child pos name).2 ⟨names, hentry, hmem, hdot⟩))
  refine Option.ne_none_iff_exists'.2 ⟨r, lookup_eq_some.2 ⟨size_name hplain h hname, name :: pos,
    names_newPathname hnames (list_noSlash hname), ?_, by rw [resolve, hresolve]; exact hr⟩⟩
  rw [links, hresolve, hlinks]
  exact linksAt_le hplain hlimit (name :: pos)

theorem allFound_of_plain (hroot : T.lookup root root = some (.dir [])) : T.AllFound root := by
  intro dir hlisted name hname hdot
  obtain ⟨pos, hdir⟩ := lookup_listed hroot hlisted
  rw [readdir_dir hdir] at hname
  exact lookup_name hplain hdir hname hdot

end

variable (T root) in
/-- How far a directory is from the bottom of the tree. -/
def height (path : Path) : Nat := T.depth - ((OSCourse.Pfind.names root path).getD []).length

theorem height_lt (hplain : T.Plain root) (h : SubFolder (T.fileSys root) dir path) :
    T.height root path < T.height root dir := by
  obtain ⟨name, ⟨hlisted, -, rfl⟩, hstat⟩ := h
  obtain ⟨pos, hdir, hname⟩ := mem_readdir hlisted
  obtain ⟨⟨p, hpath⟩, -⟩ := stat_dir.1 hstat
  obtain ⟨hnames, -⟩ := lookup_real hplain hdir
  obtain ⟨hnames', -, -, names, hentry⟩ := lookup_real hplain hpath
  have hcons := names_newPathname hnames (list_noSlash hname)
  cases hcons.symm.trans hnames'
  have hshallow := T.shallow (name :: pos) (by rw [hentry]; rfl)
  rw [height, height, hnames, hnames']
  rw [List.length_cons] at hshallow
  show T.depth - (pos.length + 1) < T.depth - pos.length
  omega

end LinkTree

end OSCourse.Pfind
