import OSCourse.Pfind.Held
import OSCourse.Pfind.Listing

/-!
# The buffers of `PATH_MAX` bytes

`new_pathname`, `path_name` and `dir_name` have `PATH_MAX` bytes, and `strcpy` and `strcat` do not
look at them.

* `Search.writes` — the strings that a step copies into these buffers.
* `BoundedStep` — the steps when `stat` and `opendir` accept no path that fills a buffer.
* `Roomy` — a directory whose path leaves room for each of its names.
* `buffers_suffice` — **if every directory that is opened is roomy, all strings fit; if all strings
  fit, every directory that is iterated to its end is roomy**.
-/

set_option autoImplicit false

namespace OSCourse.Pfind

open Transition

def PATH_MAX : Nat := 4096

/-- The bytes of a string with its terminator. -/
def size (str : List UInt8) : Nat := str.length + 1

variable {n : Nat}

/-- The strings that the step copies into buffers of `PATH_MAX` bytes: `new_pathname`, which is there
before the name is looked at, and the `dir_name` and `path_name` of a new entry. -/
def Search.writes (s : Search n) (a : Action n) : List (List UInt8) :=
  match s.reads a with
  | some (d, d_name) => [newPathname d.path_name d_name]
  | none =>
    match a with
    | .thread t =>
      match s.thread t with
      | .give _ child _ => [child.dir_name, child.path_name]
      | _ => []
    | _ => []

/-- No string of the step is longer than its buffer. -/
def Search.Fits (s : Search n) (a : Action n) : Prop := ∀ str ∈ s.writes a, size str ≤ PATH_MAX

/-- `stat` and `opendir` have accepted the path that the step gives to them. -/
def Search.Accepted (s : Search n) : Action n → Prop
  | .thread t => ∀ path, s.asks t = some path → size path < PATH_MAX
  | _ => True

def BoundedStep (fs : FileSys) (g_search_term : List UInt8) (s : Search n) (a : Action n)
    (s' : Search n) : Prop :=
  SearchStep fs g_search_term s a s' ∧ s.Accepted a

/-- The directory's path leaves room for `'/'`, each of its names and the terminator. -/
def Roomy (fs : FileSys) (d : DirQueueEntry) : Prop :=
  ∀ name ∈ fs.readdir d.path_name, d.path_name.length + name.length + 2 ≤ PATH_MAX

variable {fs : FileSys} {g_search_term : List UInt8} {root : Path} {s s' : Search n} {a : Action n}

theorem size_newPathname (path_name : Path) (d_name : Name) :
    size (newPathname path_name d_name) = path_name.length + d_name.length + 2 := by
  simp only [size, newPathname, List.length_append, List.length_cons]
  omega

theorem Roomy.fits {d : DirQueueEntry} (h : Roomy fs d) {d_name : Name}
    (hmem : d_name ∈ fs.readdir d.path_name) : size (newPathname d.path_name d_name) ≤ PATH_MAX := by
  rw [size_newPathname]
  exact h d_name hmem

/-- With names of at most 255 bytes, a short path is enough. -/
theorem roomy_of_short {d : DirQueueEntry} (hnames : ∀ name ∈ fs.readdir d.path_name, name.length ≤ 255)
    (hshort : d.path_name.length ≤ PATH_MAX - 257) : Roomy fs d := by
  intro name hname
  have hle := hnames name hname
  unfold PATH_MAX at hshort ⊢
  omega

/-- A name fits where a path with it does. -/
theorem size_name_le {path_name : Path} {d_name : Name}
    (h : size (newPathname path_name d_name) ≤ PATH_MAX) : size d_name ≤ PATH_MAX := by
  rw [size_newPathname] at h
  unfold size
  omega

/-- A directory with path and name in buffers of their size is opened if it is roomy. -/
def roomMarks (fs : FileSys) (g_search_term : List UInt8) : Marks fs g_search_term where
  held d := size d.dir_name ≤ PATH_MAX ∧ size d.path_name ≤ PATH_MAX
  opened := Roomy fs
  read d d_name := size (newPathname d.path_name d_name) ≤ PATH_MAX
  gives d d_name child _ hread hgive := by
    obtain ⟨-, -, rfl⟩ := visit_give hgive
    exact ⟨size_name_le hread, hread⟩

/-- The strings that have been read fit. -/
def fitMarks (fs : FileSys) (g_search_term : List UInt8) : Marks fs g_search_term where
  held _ := True
  opened _ := True
  read d d_name := d.path_name.length + d_name.length + 2 ≤ PATH_MAX
  gives _ _ _ _ _ _ := trivial

/-- The thread that reads an entry stands in front of it. -/
theorem reads_eq_some {d : DirQueueEntry} {d_name : Name} (hread : s.reads a = some (d, d_name)) :
    ∃ t r, s.thread t = .iterate d (d_name :: r) := by
  unfold Search.reads at hread
  split at hread
  · split at hread
    · rename_i hpc
      cases hread
      exact ⟨_, _, hpc⟩
    · cases hread
  · split at hread
    · rename_i hpc
      cases hread
      exact ⟨_, _, hpc⟩
    · cases hread
  · cases hread

/-- What a step reads and writes, of a directory that has been opened. -/
theorem reads_known {M : Marks fs g_search_term} (H : Held M s) {d : DirQueueEntry} {d_name : Name}
    (hread : s.reads a = some (d, d_name)) : M.opened d ∧ d_name ∈ fs.readdir d.path_name := by
  obtain ⟨t, r, hpc⟩ := reads_eq_some hread
  have hK := H.known t
  rw [hpc] at hK
  exact ⟨hK.1, hK.mem⟩

/-- A step fits if what is held and what is read fits. -/
theorem Held.fits {M : Marks fs g_search_term} (H : Held M s)
    (hheld : ∀ d, M.held d → size d.dir_name ≤ PATH_MAX ∧ size d.path_name ≤ PATH_MAX)
    (hopened : ∀ d d_name, M.opened d → d_name ∈ fs.readdir d.path_name →
      size (newPathname d.path_name d_name) ≤ PATH_MAX) : s.Fits a := by
  intro str hstr
  unfold Search.writes at hstr
  split at hstr
  · rename_i d d_name hread
    obtain ⟨hknown, hmem⟩ := reads_known H hread
    rw [List.mem_singleton.1 hstr]
    exact hopened d d_name hknown hmem
  · split at hstr
    · rename_i t _
      have hK := H.known t
      split at hstr
      · rename_i child _ hpc
        rw [hpc] at hK
        obtain ⟨hname, hpath⟩ := hheld child hK.2
        rcases List.mem_pair.1 hstr with rfl | rfl
        · exact hname
        · exact hpath
      · cases hstr
    · cases hstr

theorem Search.Fits.newPathname (hfits : s.Fits a) {d : DirQueueEntry} {d_name : Name}
    (hread : s.reads a = some (d, d_name)) :
    size (OSCourse.Pfind.newPathname d.path_name d_name) ≤ PATH_MAX := by
  refine hfits _ ?_
  unfold Search.writes
  rw [hread]
  exact List.mem_singleton_self _

/-- What every run keeps that opens roomy directories only. -/
theorem held_roomMarks {h : List (Action n)} (hroot : size root ≤ PATH_MAX)
    (hr : Run (BoundedStep fs g_search_term) (Search.init n root) h s)
    (hopen : Run.EachStep (BoundedStep fs g_search_term) (Search.init n root)
      (fun s a => ∀ d, s.opens a = some d → Roomy fs d) h) :
    Held (roomMarks fs g_search_term) s := by
  refine hr.invariantOn (held_init ⟨hroot, hroot⟩) (fun s a s' H hopen hs => ?_) hopen
  exact held_step H (fun d hd _ => hopen d hd) (fun d d_name _ hroomy => hroomy.fits) hs.1

/-- What every run keeps whose strings fit. -/
theorem held_fitMarks {h : List (Action n)}
    (hr : Run (BoundedStep fs g_search_term) (Search.init n root) h s)
    (hfits : Run.EachStep (BoundedStep fs g_search_term) (Search.init n root) Search.Fits h) :
    Held (fitMarks fs g_search_term) s := by
  refine hr.invariantOn (held_init trivial) (fun s a s' H hfits hs => ?_) hfits
  refine held_step H (fun _ _ _ => trivial) (fun d d_name hread _ _ => ?_) hs.1
  show d.path_name.length + d_name.length + 2 ≤ PATH_MAX
  rw [← size_newPathname]
  exact hfits.newPathname hread

/-- **The buffers suffice exactly for roomy directories.**  If every directory that is opened is
roomy, every string fits, also those that `main` copies for the root directory; and if every string
fits, every directory that has been iterated to its end is roomy. -/
theorem buffers_suffice {h : List (Action n)} (hroot : size root < PATH_MAX)
    (hr : Run (BoundedStep fs g_search_term) (Search.init n root) h s) :
    (Run.EachStep (BoundedStep fs g_search_term) (Search.init n root)
        (fun s a => ∀ d, s.opens a = some d → Roomy fs d) h →
      size root ≤ PATH_MAX ∧
        Run.EachStep (BoundedStep fs g_search_term) (Search.init n root) Search.Fits h) ∧
    (Run.EachStep (BoundedStep fs g_search_term) (Search.init n root) Search.Fits h →
      ∀ d ∈ s.iterated, Roomy fs d) := by
  have hroot := Nat.le_of_lt hroot
  constructor
  · intro hopen
    refine ⟨hroot, fun a h' hsuf t ht => ?_⟩
    exact (held_roomMarks hroot ht (hopen.before hsuf)).fits (fun _ hheld => hheld)
      fun _ _ hroomy => hroomy.fits
  · intro hfits d hd
    exact ((held_fitMarks hr hfits).iterated d hd).2

/-! ## A root directory that fills its buffer -/

/-- Every path is a directory with the names `.` and `..`. -/
def dotsOnly : FileSys where
  stat := fun _ => .dir true true
  readdir := fun _ => [[46], [46, 46]]
  nodup := fun _ => by decide
  noSlash := fun _ name hname => by
    rcases List.mem_pair.1 hname with rfl | rfl <;> decide

/-- The only thread comes to the first name of the root directory. -/
def readsDot : List (Action 1) := turns 12 0 ++ [.main, .main]

theorem readsDot_run (root : Path) :
    ∃ s, Run (SearchStep dotsOnly []) (Search.init 1 root) readsDot s ∧
      s.thread 0 = .iterate ⟨root, root⟩ [[46], [46, 46]] :=
  ⟨_, Run.of_exec (fun s a s' (hs : s.next dotsOnly [] a = some s') => hs) rfl, rfl⟩

/-- A search of `dotsOnly` holds the root directory only. -/
def rootMarks (root : Path) : Marks dotsOnly [] where
  held d := d.path_name = root
  opened _ := True
  read _ d_name := d_name = [46] ∨ d_name = [46, 46]
  gives d d_name child _ hname hgive := by
    rcases hname with rfl | rfl <;> cases hgive

theorem held_rootMarks {h : List (Action 1)} {s : Search 1}
    (hr : Run (SearchStep dotsOnly []) (Search.init 1 root) h s) : Held (rootMarks root) s :=
  hr.invariant (held_init rfl) fun _ _ _ H hs =>
    held_step H (fun _ _ _ => trivial) (fun _ _ _ _ hmem => List.mem_pair.1 hmem) hs

/-- So it asks for nothing but the path of the root directory. -/
theorem accepted_dotsOnly {h : List (Action 1)} (hroot : size root < PATH_MAX) {s : Search 1}
    (hr : Run (SearchStep dotsOnly []) (Search.init 1 root) h s) (a : Action 1) : s.Accepted a := by
  have H := held_rootMarks hr
  cases a with
  | thread t =>
    intro path hpath
    have hK := H.known t
    unfold Search.asks at hpath
    split at hpath
    · rename_i d hpc
      cases hpath
      rw [hpc] at hK
      have hK : d.path_name = root := hK
      rwa [hK]
    · rename_i d d_name names hpc
      rw [hpc] at hK
      rcases List.mem_pair.1 hK.mem with rfl | rfl <;> cases hpath
    · cases hpath
  | _ => trivial

theorem opens_dotsOnly {h : List (Action 1)} {s : Search 1}
    (hr : Run (SearchStep dotsOnly []) (Search.init 1 root) h s) {a : Action 1} {d : DirQueueEntry}
    (hd : s.opens a = some d) : d.path_name = root := by
  unfold Search.opens at hd
  split at hd
  · rename_i t
    have hK := (held_rootMarks hr).known t
    split at hd <;> cases hd
    rename_i hpc
    rw [hpc] at hK
    exact hK
  · cases hd

/-- The search of a short root directory. -/
theorem buffers_suffice_dots :
    ∃ s, Run (BoundedStep dotsOnly []) (Search.init 1 [46]) readsDot s ∧
      Run.EachStep (BoundedStep dotsOnly []) (Search.init 1 [46]) Search.Fits readsDot := by
  have hroot : size [46] < PATH_MAX := by decide
  obtain ⟨s, hr, -⟩ := readsDot_run [46]
  have hbounded : Run (BoundedStep dotsOnly []) (Search.init 1 [46]) readsDot s :=
    hr.restrict fun a h _ t ht => accepted_dotsOnly hroot ht a
  refine ⟨s, hbounded, ((buffers_suffice hroot hbounded).1 ?_).2⟩
  intro a h _ t ht d hd
  have hpath := opens_dotsOnly (ht.mono fun _ _ _ hs => hs.1) hd
  intro name hname
  rw [hpath]
  rcases List.mem_pair.1 hname with rfl | rfl <;> decide

/-- A root directory whose path has `PATH_MAX - 2` bytes: `"/."` does not fit. -/
theorem dot_overflows :
    ∃ (root : Path) (h : List (Action 1)) (s : Search 1), size root < PATH_MAX ∧
      (∀ path, ∀ name ∈ dotsOnly.readdir path, 1 ≤ name.length ∧ name.length ≤ 255) ∧
      Run (BoundedStep dotsOnly []) (Search.init 1 root) h s ∧
      ¬Run.EachStep (BoundedStep dotsOnly []) (Search.init 1 root) Search.Fits h := by
  let root : Path := List.replicate 4094 97
  have hsize : size root = 4095 := by rw [size, List.length_replicate]
  have hroot : size root < PATH_MAX := by rw [hsize]; decide
  obtain ⟨s, hr, hpc⟩ := readsDot_run root
  have hstep : SearchStep dotsOnly [] s (.thread 0) (s.goto 0 (.iterate ⟨root, root⟩ [[46, 46]])) := by
    simp only [SearchStep, Search.next, Search.threadNext, hpc]
    rfl
  have hr' := hr.step hstep
  have hbounded : Run (BoundedStep dotsOnly []) (Search.init 1 root) (.thread 0 :: readsDot) _ :=
    hr'.restrict fun a h _ t ht => accepted_dotsOnly hroot ht a
  refine ⟨root, _, _, hroot, ?_, hbounded, ?_⟩
  · intro path name hname
    rcases List.mem_pair.1 hname with rfl | rfl <;> decide
  · intro hfits
    obtain ⟨s₁, hr₁, hs₁⟩ := Run.cons_iff.1 hbounded
    have heq : s₁ = s := (hr₁.mono fun _ _ _ hs => hs.1).det (searchStep_det) hr
    subst heq
    have hle := hfits _ _ (List.suffix_refl _) _ hr₁ (newPathname root [46]) (by
      unfold Search.writes
      rw [Search.reads, hpc]
      exact List.mem_singleton_self _)
    rw [size_newPathname] at hle
    unfold size at hsize
    unfold PATH_MAX at hle
    rw [List.length_singleton] at hle
    omega

end OSCourse.Pfind
