import OSCourse.Pfind.Allocation
import OSCourse.Pfind.Exact
import OSCourse.Pfind.Links
import OSCourse.Pfind.Terminates

/-!
# Searches of trees with symbolic links

`get_stat` calls `stat`, which follows links.

* `LinkStep` — the steps of a search in which `stat` and `opendir` succeed on the paths that lead to
  something and fail on the others, memory is there, and waits return after a signal.
* `LinksAsNames` — the search takes symbolic links for plain names: it ends with no failed thread,
  prints every file and every link that matches once, and iterates no directory twice.  What happens
  after a string has run over its buffer is not modelled; such a search is none of these.
* `links_as_names_iff` — **it does so exactly in the trees whose links all lead to files, and in which
  the limits of the kernel and of the buffers are kept**.
-/

set_option autoImplicit false

namespace OSCourse.Pfind

open Relation Transition

variable {n : Nat}

/-- `stat` and `opendir` tell what there is, and nothing else fails. -/
def LinkTree.truthful (T : LinkTree) (root : Path) (s : Search n) : Action n → Bool
  | .main => true
  | .thread t => (s.asks t).all fun path => (T.lookup root path).isSome
  | .fault t f => f == .fileSystem && (s.asks t).all fun path => (T.lookup root path).isNone
  | .mainSpurious | .threadSpurious _ => false

def LinkStep (T : LinkTree) (root : Path) (g_search_term : List UInt8) (s : Search n) (a : Action n)
    (s' : Search n) : Prop :=
  SearchStep (T.fileSys root) g_search_term s a s' ∧ T.truthful root s a = true

/-- The search of `n` threads takes symbolic links for plain names. -/
structure LinksAsNames (T : LinkTree) (root : Path) (g_search_term : List UInt8) (n : Nat) :
    Prop where
  ends : Halts (LinkStep T root g_search_term) (Search.init n root)
  /-- no string runs over its buffer -/
  fits : ∀ h s, Run (LinkStep T root g_search_term) (Search.init n root) h s →
    Run.EachStep (LinkStep T root g_search_term) (Search.init n root) Search.Fits h
  finished : ∀ h s, Run (LinkStep T root g_search_term) (Search.init n root) h s →
    Final (LinkStep T root g_search_term) s → s.Finished
  healthy : ∀ h s, Run (LinkStep T root g_search_term) (Search.init n root) h s →
    ∀ t, (s.thread t).isFailed = false
  prints : ∀ h s, Run (LinkStep T root g_search_term) (Search.init n root) h s →
    Final (LinkStep T root g_search_term) s → ∀ pos name,
      (T.entry (name :: pos) = some .file ∨
        ∃ more target, T.entry (name :: pos) = some (.link more target)) →
      g_search_term <:+: name → s.found.count (pathOf root (name :: pos)) = 1
  /-- directories, whatever the paths to them -/
  once : ∀ h s, Run (LinkStep T root g_search_term) (Search.init n root) h s →
    Final (LinkStep T root g_search_term) s → (s.iteratedPaths.map (T.lookup root)).Nodup

variable {T : LinkTree} {root : Path} {g_search_term : List UInt8} {s s' : Search n}
  {h : List (Action n)} {t : Fin n}

theorem LinkStep.not_spurious {a : Action n} (hs : LinkStep T root g_search_term s a s') :
    a.isSpurious = false := by
  cases a with
  | mainSpurious | threadSpurious t => cases hs.2
  | _ => rfl

/-- The paths of directories lead to directories, and the names that have been read to something. -/
def dirMarks (T : LinkTree) (root : Path) (g_search_term : List UInt8) :
    Marks (T.fileSys root) g_search_term where
  held d := (∃ pos, T.lookup root d.path_name = some (.dir pos)) ∧ size d.dir_name ≤ PATH_MAX
  opened d := ∃ pos, T.lookup root d.path_name = some (.dir pos)
  read d d_name := size (newPathname d.path_name d_name) ≤ PATH_MAX ∧
    (isDotFolder d_name = false → T.lookup root (newPathname d.path_name d_name) ≠ none)
  gives d d_name child _ hread hgive := by
    obtain ⟨-, hstat, rfl⟩ := visit_give hgive
    exact ⟨(LinkTree.stat_dir.1 hstat).1, size_name_le hread.1⟩

theorem held_dirMarks_init (n : Nat) (hroot : T.lookup root root = some (.dir [])) :
    Held (dirMarks T root g_search_term) (Search.init n root) :=
  held_init ⟨⟨[], hroot⟩, (LinkTree.lookup_eq_some.1 hroot).1⟩

theorem Search.Finished.over (hs : s.Finished) : s.Over := .inr (by rw [hs.1]; rfl)

/-! ## Trees whose links lead to files -/

section

variable (hroot : T.lookup root root = some (.dir [])) (hplain : T.Plain root)

include hplain in
/-- What a search asks for is there. -/
theorem asks_found (H : Held (dirMarks T root g_search_term) s) {path : Path}
    (hpath : s.asks t = some path) : T.lookup root path ≠ none := by
  have hK := H.known t
  unfold Search.asks at hpath
  split at hpath
  · rename_i d hpc
    cases hpath
    rw [hpc] at hK
    obtain ⟨⟨pos, hpos⟩, -⟩ := hK
    rw [hpos]
    exact nofun
  · rename_i d d_name names hpc
    rw [hpc] at hK
    split at hpath <;> cases hpath
    rename_i hdot
    have hK : (dirMarks T root g_search_term).ReadTo d (d_name :: names) := hK
    obtain ⟨pos, hpos⟩ := hK.1
    have hmem := hK.mem
    rw [LinkTree.readdir_dir hpos] at hmem
    exact LinkTree.lookup_name hplain hpos hmem (Bool.of_not_eq_true hdot)
  · cases hpath

include hplain in
/-- What it reads is there too, and fits into the buffer. -/
theorem read_dirMarks {d : DirQueueEntry} {d_name : Name}
    (hopened : (dirMarks T root g_search_term).opened d)
    (hmem : d_name ∈ (T.fileSys root).readdir d.path_name) :
    (dirMarks T root g_search_term).read d d_name := by
  obtain ⟨pos, hpos⟩ := hopened
  rw [LinkTree.readdir_dir hpos] at hmem
  exact ⟨LinkTree.size_name hplain hpos hmem, LinkTree.lookup_name hplain hpos hmem⟩

include hroot hplain

/-- So no call fails, all along a run. -/
theorem linkRun_succeeds
    (hr : Run (LinkStep T root g_search_term) (Search.init n root) h s) :
    (∀ a ∈ h, a.Succeeds) ∧ Held (dirMarks T root g_search_term) s := by
  refine hr.historyInvariant (P := fun h s => (∀ a ∈ h, a.Succeeds) ∧
    Held (dirMarks T root g_search_term) s) ⟨nofun, held_dirMarks_init n hroot⟩ ?_
  rintro h s a s' ⟨ha, H⟩ ⟨hs, htruth⟩
  constructor
  · have hnow : a.Succeeds := by
      cases a with
      | main | thread t => trivial
      | fault t f =>
        rw [LinkTree.truthful, Bool.and_eq_true, beq_iff_eq] at htruth
        obtain ⟨rfl, hnone⟩ := htruth
        obtain ⟨path, hpath⟩ := asks_of_fault hs
        rw [hpath, Option.all_some, Option.isNone_iff_eq_none] at hnone
        exact asks_found hplain H hpath hnone
      | mainSpurious | threadSpurious t => cases htruth
    intro b hb
    rcases List.mem_cons.1 hb with rfl | hb
    · exact hnow
    · exact ha b hb
  · exact held_step H (fun _ _ hheld => hheld.1)
      (fun _ _ _ hopened hmem => read_dirMarks hplain hopened hmem) hs

/-- A complete run leaves `main` and the threads at their ends. -/
theorem finished_of_final (hn : 0 < n)
    (hr : Run (LinkStep T root g_search_term) (Search.init n root) h s)
    (hfinal : Final (LinkStep T root g_search_term) s) : s.Finished := by
  obtain ⟨ha, H⟩ := linkRun_succeeds hroot hplain hr
  have hr' := hr.mono fun _ _ _ hs => hs.1
  have horderly : ∀ a ∈ h, a.Orderly := fun a hmem => (ha a hmem).orderly
  have G := good_run hn hr' horderly
  have hentry : ∀ t, .fault t .threadEntry ∉ h := fun t hmem => ha _ hmem
  have hno : ¬s.CanStep (T.fileSys root) g_search_term := by
    rintro (⟨s', hs'⟩ | ⟨t, s', hs'⟩)
    · exact hfinal .main s' ⟨hs', rfl⟩
    · refine hfinal (.thread t) s' ⟨hs', (Option.all_eq_true ..).2 fun path hpath => ?_⟩
      exact Option.isSome_iff_ne_none.2 (asks_found hplain H hpath)
  by_contra hlive
  exact not_stuck G.inv G.locks (uniform_run hn hr' horderly (.inl hentry)) ⟨hlive, hno⟩

/-- A file, or a link to one, whose name contains the search term is a match. -/
theorem matches_pathOf {pos : List Name} {name : Name}
    (hentry : T.entry (name :: pos) = some .file ∨
      ∃ more target, T.entry (name :: pos) = some (.link more target))
    (hterm : g_search_term <:+: name) :
    Matches (T.fileSys root) g_search_term root (pathOf root (name :: pos)) := by
  have hfound := LinkTree.allFound_of_plain hplain hroot
  have hsome : (T.entry (name :: pos)).isSome = true := by
    rcases hentry with h | ⟨_, _, h⟩ <;> rw [h] <;> rfl
  have hfile : T.follow (name :: pos) = some .file := by
    rcases hentry with h | ⟨more, target, h⟩
    · rw [LinkTree.follow, h]
    · cases (hplain.links _ _ _ h).1
      rw [LinkTree.follow, h]
  obtain ⟨-, -, _, hparent⟩ := LinkTree.entry_parent hsome
  refine ⟨pathOf root pos, name, (LinkTree.reached_pathOf hroot hfound hparent).2,
    LinkTree.hasEntry hroot hfound hsome, ?_, hterm⟩
  exact LinkTree.stat_notDir ((LinkTree.lookup_entry hroot hfound hsome).trans hfile)

/-- **A search of a plain tree takes links for plain names.** -/
theorem linksAsNames_of_plain (hn : 0 < n) : LinksAsNames T root g_search_term n where
  ends := (search_halts n root fun _ _ hsub => LinkTree.height_lt hplain hsub).mono
    fun _ _ _ hs => ⟨hs.1, hs.not_spurious⟩
  fits h s hr a h' hsuf u hu := by
    refine (linkRun_succeeds hroot hplain hu).2.fits (fun d hheld => ⟨hheld.2, ?_⟩)
      fun d d_name hopened hmem => (read_dirMarks hplain hopened hmem).1
    obtain ⟨pos, hpos⟩ := hheld.1
    exact (LinkTree.lookup_eq_some.1 hpos).1
  finished h s hr hfinal := finished_of_final hroot hplain hn hr hfinal
  healthy h s hr t :=
    healthy_run (hr.mono fun _ _ _ hs => hs.1) (linkRun_succeeds hroot hplain hr).1 t
  prints h s hr hfinal pos name hentry hterm := by
    have ha := (linkRun_succeeds hroot hplain hr).1
    have hr' := hr.mono fun _ _ _ hs => hs.1
    have hover : s.Over := (finished_of_final hroot hplain hn hr hfinal).over
    have hnodup : s.found.Nodup := (outputs_exact hn hr' ha hover part_found rfl fun _ => rfl).1
    apply List.count_eq_one_of_mem hnodup
    exact (mem_found hn hr' ha hover _).2 (matches_pathOf hroot hplain hentry hterm)
  once h s hr hfinal := by
    have ha := (linkRun_succeeds hroot hplain hr).1
    have hr' := hr.mono fun _ _ _ hs => hs.1
    have hover : s.Over := (finished_of_final hroot hplain hn hr hfinal).over
    refine List.Nodup.map_on (fun path hpath path' hpath' heq => ?_)
      (iteratedPaths_nodup hn hr' ha hover)
    -- both paths lead to one directory, and through no link of the tree
    obtain ⟨pos, hpos⟩ :=
      LinkTree.lookup_listed hroot ((mem_iteratedPaths hn hr' ha hover path).1 hpath)
    have hnames := (LinkTree.lookup_real hplain hpos).1
    have hnames' := (LinkTree.lookup_real hplain (heq ▸ hpos)).1
    exact names_inj hnames hnames'

end

/-! ## Searches that take links for plain names -/

/-- A call that has failed leaves a thread that has. -/
theorem failing_of_fault (hr : Run (LinkStep T root g_search_term) (Search.init n root) h s)
    (hfault : ∃ a ∈ h, a.isFault = true) : ∃ t, (s.thread t).failing = true := by
  refine hr.historyInvariant (P := fun h s => (∃ a ∈ h, a.isFault = true) →
    ∃ t, (s.thread t).failing = true) (fun ⟨_, ha, _⟩ => nomatch ha) ?_ hfault
  rintro h s a s' ih ⟨hs, htruth⟩ ⟨b, hb, hfault⟩
  have hbefore : b ∈ h → ∃ t, (s.thread t).failing = true := fun hb => ih ⟨b, hb, hfault⟩
  cases a with
  | main =>
    rcases List.mem_cons.1 hb with rfl | hb
    · cases hfault
    · obtain ⟨t, ht⟩ := hbefore hb
      exact ⟨t, (failing_mainNext hs t).trans ht⟩
  | thread u =>
    rcases List.mem_cons.1 hb with rfl | hb
    · cases hfault
    · obtain ⟨t, ht⟩ := hbefore hb
      exact ⟨t, (failing_threadNext hs t).trans ht⟩
  | fault u f => exact ⟨u, failing_threadFault hs⟩
  | mainSpurious | threadSpurious u => cases htruth

theorem ThreadPc.isFailed_of_failing {pc : ThreadPc} (hf : pc.failing = true)
    (ht : pc.terminated = true) : pc.isFailed = true := by
  cases pc <;> simp_all [ThreadPc.failing, ThreadPc.terminated, ThreadPc.isFailed]

/-- A thread that has not failed at its end has not failed at all. -/
theorem succeeds_of_healthy (hr : Run (LinkStep T root g_search_term) (Search.init n root) h s)
    (hfinished : s.Finished) (hhealthy : ∀ t, (s.thread t).isFailed = false) :
    ∀ a ∈ h, a.Succeeds := by
  have hfault : ∀ a ∈ h, a.isFault = false := by
    intro a ha
    by_contra hfault
    obtain ⟨t, ht⟩ := failing_of_fault hr ⟨a, ha, Bool.of_not_eq_false hfault⟩
    have hfailed := ThreadPc.isFailed_of_failing ht (hfinished.2 t)
    exact Bool.false_ne_true ((hhealthy t).symm.trans hfailed)
  have hwaits : ∀ a ∈ h, a.isSpurious = false := by
    refine hr.historyInvariant (P := fun h _ => ∀ a ∈ h, a.isSpurious = false) nofun ?_
    intro h s a s' ih hs b hb
    rcases List.mem_cons.1 hb with rfl | hb
    · exact hs.not_spurious
    · exact ih b hb
  intro a ha
  have hnotFault := hfault a ha
  have hnotSpurious := hwaits a ha
  cases a with
  | main | thread t => trivial
  | fault t f => cases hnotFault
  | mainSpurious | threadSpurious t => cases hnotSpurious

/-- A name that has been read without a failure is there. -/
theorem held_dirMarks (hroot : T.lookup root root = some (.dir []))
    (hr : Run (LinkStep T root g_search_term) (Search.init n root) h s) (ha : ∀ a ∈ h, a.Succeeds)
    (hfits : Run.EachStep (LinkStep T root g_search_term) (Search.init n root) Search.Fits h) :
    Held (dirMarks T root g_search_term) s := by
  refine hr.invariantOn (Q := fun s a => a.Succeeds ∧ s.Fits a) (held_dirMarks_init n hroot)
    (fun s a s' H hq hs => ?_)
    fun a h' hsuf t ht => ⟨ha a (hsuf.subset (List.mem_cons_self ..)), hfits a h' hsuf t ht⟩
  obtain ⟨ha, hfits⟩ := hq
  refine held_step H (fun _ _ hheld => hheld.1)
    (fun d d_name hread _ _ => ⟨hfits.newPathname hread, fun hdot => ?_⟩) hs.1
  cases a with
  | thread t =>
    have htruth := hs.2
    rw [LinkTree.truthful, Option.all_eq_true] at htruth
    unfold Search.reads at hread
    simp only at hread
    split at hread
    · rename_i hpc
      cases hread
      refine Option.isSome_iff_ne_none.1 (htruth _ ?_)
      unfold Search.asks
      rw [hpc]
      exact if_neg (by rw [hdot]; exact Bool.false_ne_true)
    · cases hread
  | main => cases hread
  | _ => exact absurd ha id

section

variable (hroot : T.lookup root root = some (.dir [])) (hn : 0 < n)
  (P : LinksAsNames T root g_search_term n)

include hn P

/-- A complete run, which has come to every directory. -/
theorem exists_complete : ∃ h s, Run (LinkStep T root g_search_term) (Search.init n root) h s ∧
    Final (LinkStep T root g_search_term) s ∧ (∀ a ∈ h, a.Succeeds) ∧
    ∀ path, path ∈ s.iteratedPaths ↔ Listed (T.fileSys root) root path := by
  obtain ⟨h, s, hr, hfinal⟩ := P.ends.exists_final
  have hfinished := P.finished h s hr hfinal
  have ha := succeeds_of_healthy hr hfinished (P.healthy h s hr)
  exact ⟨h, s, hr, hfinal, ha,
    mem_iteratedPaths hn (hr.mono fun _ _ _ hs => hs.1) ha hfinished.over⟩

include hroot

/-- What the search reads in the directories that are reached is there and fits: it comes by. -/
theorem reads_of_linksAsNames {dir : Path} (hlisted : Listed (T.fileSys root) root dir) {name : Name}
    (hname : name ∈ (T.fileSys root).readdir dir) :
    size (newPathname dir name) ≤ PATH_MAX ∧
      (isDotFolder name = false → T.lookup root (newPathname dir name) ≠ none) := by
  obtain ⟨h, s, hr, -, ha, hiterated⟩ := exists_complete hn P
  obtain ⟨d, hd, rfl⟩ := List.mem_map.1 ((hiterated dir).2 hlisted)
  exact ((held_dirMarks hroot hr ha (P.fits h s hr)).iterated d hd).2 name hname

theorem allFound_of_linksAsNames : T.AllFound root :=
  fun _ hlisted _ hname => (reads_of_linksAsNames hroot hn P hlisted hname).2

/-- No link leads to a directory, which would be iterated by two paths. -/
theorem not_dir_of_linksAsNames {pos p : List Name} {more : Nat} :
    T.entry pos ≠ some (.link more (.dir p)) := by
  intro hlink
  have hfound := allFound_of_linksAsNames hroot hn P
  obtain ⟨h, s, hr, hfinal, -, hiterated⟩ := exists_complete hn P
  cases pos with
  | nil =>
    obtain ⟨names, hdir⟩ := T.root
    cases hdir.symm.trans hlink
  | cons name pos =>
    have hsome : (T.entry (name :: pos)).isSome = true := by rw [hlink]; rfl
    obtain ⟨-, -, _, hparent⟩ := LinkTree.entry_parent hsome
    obtain ⟨_, hp⟩ := T.target _ more p hlink
    obtain ⟨hlookup, hlisted⟩ := LinkTree.reached_pathOf hroot hfound hp
    have hlookup' : T.lookup root (pathOf root (name :: pos)) = some (.dir p) := by
      rw [LinkTree.lookup_entry hroot hfound hsome, LinkTree.follow, hlink]
    have hlisted' : Listed (T.fileSys root) root (pathOf root (name :: pos)) :=
      (LinkTree.reached_pathOf hroot hfound hparent).2.tail
        ⟨name, LinkTree.hasEntry hroot hfound hsome, LinkTree.stat_dir.2 ⟨⟨p, hlookup'⟩, rfl, rfl⟩⟩
    have heq : pathOf root (name :: pos) = pathOf root p :=
      List.inj_on_of_nodup_map (P.once h s hr hfinal) ((hiterated _).2 hlisted')
        ((hiterated _).2 hlisted) (hlookup'.trans hlookup.symm)
    have hnames : names root (pathOf root (name :: pos)) = some (name :: pos) :=
      LinkTree.names_pathOf hsome
    rw [heq, LinkTree.names_pathOf (by rw [hp]; rfl)] at hnames
    cases hnames
    cases hp.symm.trans hlink

/-- **A search that takes links for plain names searches a plain tree.** -/
theorem plain_of_linksAsNames : T.Plain root where
  links pos more target hlink := by
    have hfound := allFound_of_linksAsNames hroot hn P
    cases pos with
    | nil =>
      obtain ⟨names, hdir⟩ := T.root
      cases hdir.symm.trans hlink
    | cons name pos =>
      have hsome : (T.entry (name :: pos)).isSome = true := by rw [hlink]; rfl
      obtain ⟨hname, hdot, _, hparent⟩ := LinkTree.entry_parent hsome
      obtain ⟨hdir, hlisted⟩ := LinkTree.reached_pathOf hroot hfound hparent
      have hfollow := LinkTree.lookup_entry hroot hfound hsome
      have hne : T.lookup root (pathOf root (name :: pos)) ≠ none :=
        hfound _ hlisted name (LinkTree.hasEntry hroot hfound hsome).listed hdot
      obtain ⟨r, hr⟩ := Option.ne_none_iff_exists'.1 hne
      -- the path goes through the links of the root's path and those at its end
      have hlimit : T.rootLinks + (more + 1) ≤ MAXSYMLINKS := by
        obtain ⟨-, ns, hnames, hlimit, -⟩ := LinkTree.lookup_eq_some.1 hr
        rw [LinkTree.names_pathOf hsome] at hnames
        cases hnames
        obtain ⟨hresolve, hlinks⟩ := LinkTree.resolve_entry hparent
        rw [LinkTree.links, hresolve, hlinks] at hlimit
        have hat : T.linksAt (name :: pos) = more + 1 := by rw [LinkTree.linksAt, hlink]
        rw [← hat]
        exact hlimit
      refine ⟨?_, hlimit⟩
      rw [hfollow, LinkTree.follow, hlink] at hne
      cases target with
      | missing => exact absurd rfl hne
      | file => rfl
      | dir p => exact absurd hlink (not_dir_of_linksAsNames hroot hn P)
  room pos names hentry name hname := by
    obtain ⟨hdir, hlisted⟩ :=
      LinkTree.reached_pathOf hroot (allFound_of_linksAsNames hroot hn P) hentry
    have hread : name ∈ (T.fileSys root).readdir (pathOf root pos) := by
      rw [LinkTree.readdir_dir hdir, LinkTree.list, hentry]
      exact hname
    rw [← size_newPathname]
    exact (reads_of_linksAsNames hroot hn P hlisted hread).1

end

/-- **Links are taken for plain names exactly in the plain trees**: every link leads to a file, within
the limit of the kernel, and every directory leaves room for its names.  `main` has opened the root
directory before the search. -/
theorem links_as_names_iff (T : LinkTree) (root : Path) (g_search_term : List UInt8)
    (hroot : T.lookup root root = some (.dir [])) (hn : 0 < n) :
    LinksAsNames T root g_search_term n ↔ T.Plain root :=
  ⟨fun P => plain_of_linksAsNames hroot hn P, fun hplain => linksAsNames_of_plain hroot hplain hn⟩

/-! ## A root directory with one link -/

/-- The link `a` in the root directory; it may lead back there. -/
def oneLink (more : Nat) (target : Target) (htarget : ∀ p, target = .dir p → p = []) : LinkTree where
  entry
    | [] => some (.dir [[97]])
    | [[97]] => some (.link more target)
    | _ => none
  depth := 1
  rootLinks := 0
  root := ⟨_, rfl⟩
  child pos name := by
    constructor
    · intro h
      split at h
      · rename_i heq
        cases heq
      · rename_i heq
        cases heq
        exact ⟨_, rfl, List.mem_singleton_self _, rfl⟩
      · cases h
    · rintro ⟨names, hentry, hname, -⟩
      split at hentry <;> cases hentry
      cases List.mem_singleton.1 hname
      rfl
  target pos k p h := by
    split at h <;> cases h
    exact ⟨_, by rw [htarget p rfl]⟩
  nodup pos names h := by
    split at h <;> cases h
    exact List.nodup_singleton _
  noSlash pos names h name hname := by
    split at h <;> cases h
    cases List.mem_singleton.1 hname
    decide
  shallow pos h := by
    split at h
    · exact Nat.zero_le _
    · exact Nat.le_refl _
    · cases h

/-- With a link to a file, two threads take it for a plain name. -/
theorem links_as_names_file : LinksAsNames (oneLink 0 .file nofun) [46] [97] 2 := by
  refine (links_as_names_iff (oneLink 0 .file nofun) [46] [97] rfl (by decide)).2
    ⟨fun pos more target h => ?_, fun pos names h name hname => ?_⟩
  · unfold oneLink at h
    simp only at h
    split at h <;> cases h
    exact ⟨rfl, by decide⟩
  · unfold oneLink at h
    simp only at h
    split at h <;> cases h
    cases List.mem_singleton.1 hname
    decide

/-- A link through 41 links is too long a way, also to a file. -/
example : ¬(oneLink 40 .file nofun).Plain [46] :=
  fun hplain => absurd (hplain.links [[97]] 40 .file rfl).2 (by decide)

/-- A step of a search of the tree, to run it. -/
def LinkTree.next (T : LinkTree) (root : Path) (g_search_term : List UInt8) (s : Search n)
    (a : Action n) : Option (Search n) :=
  if T.truthful root s a then s.next (T.fileSys root) g_search_term a else none

theorem LinkTree.next_linkStep (T : LinkTree) (s : Search n) (a : Action n) (s' : Search n)
    (hs : T.next root g_search_term s a = some s') : LinkStep T root g_search_term s a s' := by
  obtain ⟨htruth, hs⟩ := Option.ite_none_right_eq_some.1 hs
  exact ⟨hs, htruth⟩

/-- The only thread comes to the link and fails on it. -/
def failsOnLink : List (Action 1) :=
  turns 2 0 ++ .fault 0 .fileSystem :: turns 12 0 ++ [.main, .main]

/-- A dangling link makes the thread fail that comes to it. -/
theorem dangling_link_fails : (oneLink 0 .missing nofun).lookup [46] [46] = some (.dir []) ∧
    ¬LinksAsNames (oneLink 0 .missing nofun) [46] [97] 1 := by
  refine ⟨rfl, fun P => ?_⟩
  have he : (Run.exec ((oneLink 0 .missing nofun).next [46] [97]) (Search.init 1 [46]) failsOnLink).any
      (fun s => (s.thread 0).isFailed) = true := by
    decide
  obtain ⟨s, hr, hfailed⟩ := Run.of_exec_any (LinkTree.next_linkStep _) he
  exact Bool.false_ne_true ((P.healthy _ s hr 0).symm.trans hfailed)

end OSCourse.Pfind
