import OSCourse.Pfind.FileSystem

/-!
# What a search should find

* `HasEntry`, `Listed` — the entries of a directory, and the directories reached from the root.
* `Matches`, `Denied` — the files to print, and the directories to report.
* `Visit.found?`, `Visit.denied?`, `Visit.give?` — what a visit yields of each kind; `yields` — what
  all names of a directory yield: once each, and in one directory only.
-/

set_option autoImplicit false

namespace OSCourse.Pfind

open Relation

/-! ## The specification -/

/-- The directory `dir` has the entry `name`, at `path`. -/
structure HasEntry (fs : FileSys) (dir : Path) (name : Name) (path : Path) : Prop where
  listed : name ∈ fs.readdir dir
  notDot : isDotFolder name = false
  path : path = newPathname dir name

/-- A directory with both bits is an entry of another. -/
def SubFolder (fs : FileSys) (dir path : Path) : Prop :=
  ∃ name, HasEntry fs dir name path ∧ fs.stat path = .dir true true

/-- Reached from the root through directories with both bits. -/
def Listed (fs : FileSys) (root path : Path) : Prop := ReflTransGen (SubFolder fs) root path

/-- A file, in a directory that is reached, whose name contains the search term. -/
def Matches (fs : FileSys) (g_search_term : List UInt8) (root path : Path) : Prop :=
  ∃ dir name, Listed fs root dir ∧ HasEntry fs dir name path ∧ fs.stat path = .notDir ∧
    g_search_term <:+: name

/-- A directory that lacks one of the bits, in a directory that is reached. -/
def Denied (fs : FileSys) (root path : Path) : Prop :=
  ∃ dir name, Listed fs root dir ∧ HasEntry fs dir name path ∧
    ∃ rusr xusr, fs.stat path = .dir rusr xusr ∧ (rusr = false ∨ xusr = false)

/-! ## Paths -/

/-- A path tells its directory and its name. -/
theorem newPathname_inj {dir dir' : Path} {name name' : Name} (hname : slash ∉ name)
    (hname' : slash ∉ name') (h : newPathname dir name = newPathname dir' name') :
    dir = dir' ∧ name = name' := by
  have hcase : ∀ {dir dir' : Path} {name name' : Name} (a : Path), slash ∉ name →
      dir' = dir ++ a → slash :: name = a ++ slash :: name' → dir = dir' ∧ name = name' := by
    intro dir dir' name name' a hname hdir heq
    cases a with
    | nil =>
      obtain ⟨-, hname⟩ := List.cons.inj heq
      exact ⟨by rw [hdir, List.append_nil], hname⟩
    | cons b a =>
      obtain ⟨-, heq⟩ := List.cons.inj heq
      exact absurd (by rw [heq]; simp) hname
  rcases List.append_eq_append_iff.1 h with ⟨a, hdir, heq⟩ | ⟨a, hdir, heq⟩
  · exact hcase a hname hdir heq
  · obtain ⟨h₁, h₂⟩ := hcase a hname' hdir heq
    exact ⟨h₁.symm, h₂.symm⟩

theorem length_lt_newPathname (dir : Path) (name : Name) :
    dir.length < (newPathname dir name).length := by
  simp [newPathname]

/-! ## What a visit yields -/

def Visit.path? : Visit → Option Path
  | .skip => none
  | .found path | .denied path => some path
  | .give child => some child.path_name

def Visit.found? : Visit → Option Path
  | .found path => some path
  | _ => none

def Visit.denied? : Visit → Option Path
  | .denied path => some path
  | _ => none

def Visit.give? : Visit → Option Path
  | .give child => some child.path_name
  | _ => none

variable {fs : FileSys} {g_search_term : List UInt8}

theorem visit_path {d : DirQueueEntry} {d_name : Name} {path : Path}
    (h : (visit fs g_search_term d d_name).path? = some path) :
    path = newPathname d.path_name d_name := by
  unfold visit at h
  simp only at h
  split at h
  · cases h
  · split at h
    · split at h <;> cases h <;> rfl
    · split at h <;> cases h
      rfl

/-- What the names of a directory yield. -/
def yields (fs : FileSys) (g_search_term : List UInt8) (proj : Visit → Option Path) (dir : Path)
    (names : List Name) : List Path :=
  names.filterMap fun name => proj (visit fs g_search_term ⟨dir, []⟩ name)

theorem filterMap_cons_toList {α β : Type} (f : α → Option β) (a : α) (l : List α) :
    (a :: l).filterMap f = (f a).toList ++ l.filterMap f := by
  rw [List.filterMap_cons]
  cases f a <;> rfl

theorem yields_cons {proj : Visit → Option Path} (d : DirQueueEntry) (d_name : Name)
    (names : List Name) : yields fs g_search_term proj d.path_name (d_name :: names) =
      (proj (visit fs g_search_term d d_name)).toList ++
        yields fs g_search_term proj d.path_name names :=
  filterMap_cons_toList _ d_name names

/-- A part of what a visit yields. -/
def Visit.Part (proj : Visit → Option Path) : Prop := ∀ v path, proj v = some path → v.path? = some path

theorem part_found : Visit.Part Visit.found? := by
  intro v path h; cases v <;> first | exact h | cases h

theorem part_denied : Visit.Part Visit.denied? := by
  intro v path h; cases v <;> first | exact h | cases h

theorem part_give : Visit.Part Visit.give? := by
  intro v path h; cases v <;> first | exact h | cases h

section

variable {proj : Visit → Option Path} (hproj : Visit.Part proj)

include hproj in
theorem yields_path {dir path : Path} {names : List Name}
    (h : path ∈ yields fs g_search_term proj dir names) :
    ∃ name ∈ names, path = newPathname dir name := by
  obtain ⟨name, hname, hvisit⟩ := List.mem_filterMap.1 h
  exact ⟨name, hname, visit_path (hproj _ _ hvisit)⟩

include hproj in
theorem yields_nodup (dir : Path) :
    (yields fs g_search_term proj dir (fs.readdir dir)).Nodup := by
  refine (fs.nodup dir).filterMap fun name name' path hname hname' => ?_
  have h := visit_path (hproj _ _ hname)
  rw [visit_path (hproj _ _ hname')] at h
  exact (List.cons.inj (List.append_cancel_left h)).2.symm

include hproj in
/-- What a directory yields no other directory does. -/
theorem yields_parent {dir dir' path : Path}
    (h : path ∈ yields fs g_search_term proj dir (fs.readdir dir))
    (h' : path ∈ yields fs g_search_term proj dir' (fs.readdir dir')) : dir = dir' := by
  obtain ⟨name, hname, rfl⟩ := yields_path hproj h
  obtain ⟨name', hname', heq⟩ := yields_path hproj h'
  exact (newPathname_inj (fs.noSlash _ _ hname) (fs.noSlash _ _ hname') heq).1

end

/-! ## A visit does what the specification says -/

/-- What is done for a name, by what it is. -/
inductive VisitSpec (fs : FileSys) (g_search_term : List UInt8) (d : DirQueueEntry) (d_name : Name) :
    Visit → Prop
  | dot (hdot : isDotFolder d_name = true) : VisitSpec fs g_search_term d d_name .skip
  | folder (hdot : isDotFolder d_name = false)
      (hstat : fs.stat (newPathname d.path_name d_name) = .dir true true) :
      VisitSpec fs g_search_term d d_name (.give ⟨newPathname d.path_name d_name, d_name⟩)
  | locked {rusr xusr : Bool} (hdot : isDotFolder d_name = false)
      (hstat : fs.stat (newPathname d.path_name d_name) = .dir rusr xusr)
      (hbits : rusr = false ∨ xusr = false) :
      VisitSpec fs g_search_term d d_name (.denied (newPathname d.path_name d_name))
  | file (hdot : isDotFolder d_name = false)
      (hstat : fs.stat (newPathname d.path_name d_name) = .notDir) (hterm : g_search_term <:+: d_name) :
      VisitSpec fs g_search_term d d_name (.found (newPathname d.path_name d_name))
  | other (hdot : isDotFolder d_name = false)
      (hstat : fs.stat (newPathname d.path_name d_name) = .notDir)
      (hterm : ¬g_search_term <:+: d_name) : VisitSpec fs g_search_term d d_name .skip

theorem visit_spec (d : DirQueueEntry) (d_name : Name) :
    VisitSpec fs g_search_term d d_name (visit fs g_search_term d d_name) := by
  unfold visit
  simp only
  split
  · rename_i hdot
    exact .dot hdot
  · rename_i hdot
    have hdot := Bool.of_not_eq_true hdot
    split
    · rename_i rusr xusr hstat
      split
      · rename_i hbits
        rw [Bool.and_eq_true] at hbits
        obtain ⟨rfl, rfl⟩ := hbits
        exact .folder hdot hstat
      · rename_i hbits
        refine .locked hdot hstat ?_
        rwa [← Bool.and_eq_false_iff, ← Bool.not_eq_true]
    · rename_i hstat
      split
      · rename_i hterm
        exact .file hdot hstat ((strstr_iff _ _).1 hterm)
      · rename_i hterm
        exact .other hdot hstat fun h => hterm ((strstr_iff _ _).2 h)

/-- What is known of a name that is given on. -/
theorem visit_give {d child : DirQueueEntry} {d_name : Name}
    (h : visit fs g_search_term d d_name = .give child) : isDotFolder d_name = false ∧
      fs.stat (newPathname d.path_name d_name) = .dir true true ∧
      child = ⟨newPathname d.path_name d_name, d_name⟩ := by
  have S := @visit_spec fs g_search_term d d_name
  rw [h] at S
  cases S with
  | folder hdot hstat => exact ⟨hdot, hstat, rfl⟩

section

variable {dir path : Path}

theorem mem_yields {proj : Visit → Option Path} {names : List Name} :
    path ∈ yields fs g_search_term proj dir names ↔
      ∃ name ∈ names, proj (visit fs g_search_term ⟨dir, []⟩ name) = some path :=
  List.mem_filterMap

theorem mem_yields_give :
    path ∈ yields fs g_search_term Visit.give? dir (fs.readdir dir) ↔ SubFolder fs dir path := by
  refine mem_yields.trans ⟨?_, ?_⟩
  · rintro ⟨name, hname, hvisit⟩
    have S := @visit_spec fs g_search_term ⟨dir, []⟩ name
    generalize visit fs g_search_term ⟨dir, []⟩ name = v at hvisit S
    cases S <;> cases hvisit
    rename_i hdot hstat
    exact ⟨name, ⟨hname, hdot, rfl⟩, hstat⟩
  · rintro ⟨name, ⟨hname, hdot, rfl⟩, hstat⟩
    exact ⟨name, hname, by simp [visit, hdot, hstat, Visit.give?]⟩

theorem mem_yields_denied :
    path ∈ yields fs g_search_term Visit.denied? dir (fs.readdir dir) ↔
      ∃ name, HasEntry fs dir name path ∧
        ∃ rusr xusr, fs.stat path = .dir rusr xusr ∧ (rusr = false ∨ xusr = false) := by
  refine mem_yields.trans ⟨?_, ?_⟩
  · rintro ⟨name, hname, hvisit⟩
    have S := @visit_spec fs g_search_term ⟨dir, []⟩ name
    generalize visit fs g_search_term ⟨dir, []⟩ name = v at hvisit S
    cases S <;> cases hvisit
    rename_i hdot hstat hbits
    exact ⟨name, ⟨hname, hdot, rfl⟩, _, _, hstat, hbits⟩
  · rintro ⟨name, ⟨hname, hdot, rfl⟩, rusr, xusr, hstat, hbits⟩
    refine ⟨name, hname, ?_⟩
    rcases hbits with rfl | rfl <;> simp [visit, hdot, hstat, Visit.denied?]

theorem mem_yields_found :
    path ∈ yields fs g_search_term Visit.found? dir (fs.readdir dir) ↔
      ∃ name, HasEntry fs dir name path ∧ fs.stat path = .notDir ∧ g_search_term <:+: name := by
  refine mem_yields.trans ⟨?_, ?_⟩
  · rintro ⟨name, hname, hvisit⟩
    have S := @visit_spec fs g_search_term ⟨dir, []⟩ name
    generalize visit fs g_search_term ⟨dir, []⟩ name = v at hvisit S
    cases S <;> cases hvisit
    rename_i hdot hstat hterm
    exact ⟨name, ⟨hname, hdot, rfl⟩, hstat, hterm⟩
  · rintro ⟨name, ⟨hname, hdot, rfl⟩, hstat, hterm⟩
    have hterm := (strstr_iff _ _).2 hterm
    exact ⟨name, hname, by simp [visit, hdot, hstat, hterm, Visit.found?]⟩

end

end OSCourse.Pfind
