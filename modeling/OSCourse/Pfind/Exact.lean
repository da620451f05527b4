import OSCourse.Lib.Offspring
import OSCourse.Pfind.Listing
import OSCourse.Pfind.Progress
import OSCourse.Pfind.Weights

/-!
# The search is exact

Runs in which every call succeeds and waits return after a signal.

* `Search.outputs` — what the trace has of one kind: lines printed or directories given.
* `tally` — the weights that count one path of a kind; `outputs_eq` — the outputs are the root and
  what the iterated directories yield.
* `search_exact` — **when `main` has left its wait loop, every directory that is reached has been
  iterated once, and what is printed is what should be found**.
-/

set_option autoImplicit false

namespace OSCourse.Pfind

open Relation Transition

variable {n : Nat} {fs : FileSys} {g_search_term : List UInt8} {root : Path} {s s' : Search n}
  {t : Fin n}

/-- The steps in which every call succeeds. -/
def Action.Succeeds : Action n → Prop
  | .main | .thread _ => True
  | .fault .. | .mainSpurious | .threadSpurious _ => False

theorem Action.Succeeds.orderly {a : Action n} (ha : a.Succeeds) : a.Orderly := by
  cases a <;> first | exact ha | exact absurd ha id

theorem Action.Succeeds.not_fault {a : Action n} (ha : a.Succeeds) : a.isFault = false := by
  cases a <;> first | rfl | exact absurd ha id

/-! ## Outputs -/

/-- The visit that an event comes from. -/
def Event.visit? : Event n → Option Visit
  | .found path => some (.found path)
  | .denied path => some (.denied path)
  | .given d => some (.give d)
  | .iterated .. | .failedOn _ => none

def Search.outputs (proj : Visit → Option Path) (s : Search n) : List Path :=
  s.trace.filterMap fun e => e.visit?.bind proj

/-- The paths of the files that were printed. -/
def Search.found (s : Search n) : List Path := s.outputs Visit.found?

/-- The paths of the directories that were reported. -/
def Search.denied (s : Search n) : List Path := s.outputs Visit.denied?

/-- The paths of the directories that were iterated to their end. -/
def Search.iteratedPaths (s : Search n) : List Path := s.iterated.map DirQueueEntry.path_name

/-- The weights that count `path` among what is yielded of a kind. -/
def tally (fs : FileSys) (g_search_term : List UInt8) (n : Nat) (proj : Visit → Option Path)
    (hskip : proj .skip = none) (path : Path) : Weights fs g_search_term n where
  pending _ := 0
  iterating d names := ((yields fs g_search_term proj d.path_name names).count path : ℤ) -
    (yields fs g_search_term proj d.path_name (fs.readdir d.path_name)).count path
  event
    | .found q => (proj (.found q)).toList.count path
    | .denied q => (proj (.denied q)).toList.count path
    | .given d => (proj (.give d)).toList.count path
    | .iterated _ d =>
      -(yields fs g_search_term proj d.path_name (fs.readdir d.path_name)).count path
    | .failedOn _ => 0
  opened _ := Int.sub_self _
  visited d d_name names := by
    rw [yields_cons, List.count_append]
    cases visit fs g_search_term d d_name with
    | skip => simp [Visit.weight, hskip]
    | found q | denied q | give child => simp only [Visit.weight]; omega
  closed _ _ := (Int.zero_sub _).symm

section

variable {proj : Visit → Option Path} (hskip : proj .skip = none)

/-- The directories iterated in a trace, by their paths. -/
theorem tally_sum (path : Path) (trace : List (Event n)) :
    (trace.map (tally fs g_search_term n proj hskip path).event).sum =
      ((trace.filterMap fun e => e.visit?.bind proj).count path : ℤ) -
        (((trace.filterMap Event.iterated?).map DirQueueEntry.path_name).map fun dir =>
          (yields fs g_search_term proj dir (fs.readdir dir)).count path).sum := by
  induction trace with
  | nil => simp
  | cons e trace ih =>
    rw [List.map_cons, List.sum_cons, ih]
    cases e with
    | found q | denied q | given q =>
      rw [filterMap_cons_toList, List.count_append]
      simp only [tally, Event.visit?, Event.iterated?, List.filterMap_cons, Option.bind_some]
      omega
    | iterated u d =>
      simp only [tally, Event.visit?, Event.iterated?, List.filterMap_cons, Option.bind_none,
        List.map_cons, List.sum_cons]
      omega
    | failedOn d =>
      exact Int.zero_add _

/-! ## What the runs give out -/

/-- No thread fails. -/
theorem healthy_run {h : List (Action n)}
    (hr : Run (SearchStep fs g_search_term) (Search.init n root) h s) (ha : ∀ a ∈ h, a.Succeeds)
    (t : Fin n) : (s.thread t).isFailed = false := by
  have hrun : ∀ t, (s.thread t).failing = false := by
    refine hr.invariantOn (P := fun s : Search n => ∀ t, (s.thread t).failing = false)
      (Q := fun _ (a : Action n) => a.Succeeds) (fun _ => rfl) (fun s a s' hs ha hstep u => ?_)
      (Run.eachStep_of_forall ha)
    cases a with
    | main => exact (failing_mainNext hstep u).trans (hs u)
    | thread t => exact (failing_threadNext hstep u).trans (hs u)
    | _ => exact absurd ha id
  have h := hrun t
  cases hpc : s.thread t <;> rw [hpc] at h <;> first | rfl | cases h

theorem coe_count_path (path : Path) (l : List Path) :
    (l : Multiset Path).count path = l.count path := by
  rw [Multiset.coe_count]
  congr 1
  exact lawful_beq_subsingleton ..

include hskip in
/-- After the wait loop, what was given out is the root and what the iterated directories yield. -/
theorem outputs_eq {h : List (Action n)} (hn : 0 < n)
    (hr : Run (SearchStep fs g_search_term) (Search.init n root) h s) (ha : ∀ a ∈ h, a.Succeeds)
    (hover : s.Over) : (s.outputs proj : Multiset Path) =
      ((proj (.give ⟨root, root⟩)).toList : Multiset Path) +
        (s.iteratedPaths : Multiset Path).bind fun dir =>
          (yields fs g_search_term proj dir (fs.readdir dir) : Multiset Path) := by
  have horderly : ∀ a ∈ h, a.Orderly := fun a hmem => (ha a hmem).orderly
  have G := good_run hn hr horderly
  ext path
  have htotal := total_run (W := tally fs g_search_term n proj hskip path) hn hr horderly
    fun a hmem hfault => by rw [(ha a hmem).not_fault] at hfault; cases hfault
  rw [total_over G.inv hover (healthy_run hr ha ⟨0, hn⟩), tally_sum] at htotal
  rw [Multiset.count_add, Multiset.count_bind, Multiset.map_coe, Multiset.sum_coe]
  simp only [coe_count_path]
  have hroot : (tally fs g_search_term n proj hskip path).event (.given ⟨root, root⟩) +
      (tally fs g_search_term n proj hskip path).pending ⟨root, root⟩ =
        ((proj (.give ⟨root, root⟩)).toList.count path : ℤ) := Int.add_zero _
  rw [hroot] at htotal
  unfold Search.outputs Search.iteratedPaths Search.iterated
  omega

end

/-- The directories given out are those iterated. -/
theorem given_eq_iterated {h : List (Action n)} (hn : 0 < n)
    (hr : Run (SearchStep fs g_search_term) (Search.init n root) h s) (ha : ∀ a ∈ h, a.Succeeds)
    (hover : s.Over) : (s.outputs Visit.give? : Multiset Path) = s.iteratedPaths := by
  ext path
  have hcount := given_countP hn hr (fun a hmem => (ha a hmem).orderly) hover
    (healthy_run hr ha ⟨0, hn⟩) (fun d => d.path_name == path) 0
    (.inr fun a hmem => (ha a hmem).not_fault)
  have hgiven : s.outputs Visit.give? = s.given.map DirQueueEntry.path_name := by
    unfold Search.outputs Search.given
    rw [List.map_filterMap]
    congr 1
    ext e
    cases e <;> rfl
  rw [hgiven, Search.iteratedPaths, coe_count_path, coe_count_path, List.count_eq_countP,
    List.count_eq_countP, List.countP_map, List.countP_map]
  rw [Int.zero_mul, Int.add_zero] at hcount
  exact Int.ofNat.inj hcount

section

variable {h : List (Action n)} (hn : 0 < n)
  (hr : Run (SearchStep fs g_search_term) (Search.init n root) h s) (ha : ∀ a ∈ h, a.Succeeds)
  (hover : s.Over)

include hn hr ha hover

theorem iterated_offspring : Offspring
    (fun dir => (yields fs g_search_term Visit.give? dir (fs.readdir dir) : Multiset Path)) root
    (s.iteratedPaths : Multiset Path) :=
  (given_eq_iterated hn hr ha hover).symm.trans (outputs_eq rfl hn hr ha hover)

/-- **The directories that are iterated are those reached from the root.** -/
theorem mem_iteratedPaths (path : Path) : path ∈ s.iteratedPaths ↔ Listed fs root path := by
  have hmem := (iterated_offspring hn hr ha hover).mem_iff List.length
    (fun dir q hq => ?_) path
  · rw [← Multiset.mem_coe, hmem, Listed]
    have hrel : (fun dir q => q ∈ (yields fs g_search_term Visit.give? dir (fs.readdir dir) :
        Multiset Path)) = SubFolder fs := by
      funext dir q
      exact propext (Multiset.mem_coe.trans mem_yields_give)
    rw [hrel]
  · obtain ⟨name, -, rfl⟩ := yields_path part_give (Multiset.mem_coe.1 hq)
    exact length_lt_newPathname dir name

/-- **Each of them is iterated once.** -/
theorem iteratedPaths_nodup : s.iteratedPaths.Nodup := by
  rw [← Multiset.coe_nodup]
  refine (iterated_offspring hn hr ha hover).nodup List.length (fun dir q hq => ?_)
    (fun dir => yields_nodup part_give dir) fun dir dir' q hq hq' => yields_parent part_give hq hq'
  obtain ⟨name, -, rfl⟩ := yields_path part_give (Multiset.mem_coe.1 hq)
  exact length_lt_newPathname dir name

/-- What is printed of a kind is what the directories reached yield of it, once each. -/
theorem outputs_exact {proj : Visit → Option Path} (hproj : Visit.Part proj)
    (hskip : proj .skip = none) (hgive : ∀ d, proj (.give d) = none) : (s.outputs proj).Nodup ∧ ∀ path,
      path ∈ s.outputs proj ↔ ∃ dir, Listed fs root dir ∧
        path ∈ yields fs g_search_term proj dir (fs.readdir dir) := by
  have heq := outputs_eq hskip hn hr ha hover
  rw [hgive] at heq
  have heq : (s.outputs proj : Multiset Path) = (s.iteratedPaths : Multiset Path).bind fun dir =>
      (yields fs g_search_term proj dir (fs.readdir dir) : Multiset Path) := heq.trans (zero_add _)
  constructor
  · rw [← Multiset.coe_nodup, heq]
    exact nodup_bind_of_parent (Multiset.coe_nodup.2 (iteratedPaths_nodup hn hr ha hover))
      (fun dir => yields_nodup hproj dir) fun dir dir' q hq hq' => yields_parent hproj hq hq'
  · intro path
    rw [← Multiset.mem_coe, heq, Multiset.mem_bind]
    simp only [Multiset.mem_coe, mem_iteratedPaths hn hr ha hover]

theorem mem_found (path : Path) : path ∈ s.found ↔ Matches fs g_search_term root path := by
  refine ((outputs_exact hn hr ha hover part_found rfl fun _ => rfl).2 path).trans ?_
  simp only [mem_yields_found, Matches]
  exact ⟨fun ⟨dir, hdir, name, h⟩ => ⟨dir, name, hdir, h⟩,
    fun ⟨dir, name, hdir, h⟩ => ⟨dir, hdir, name, h⟩⟩

theorem mem_denied (path : Path) : path ∈ s.denied ↔ Denied fs root path := by
  refine ((outputs_exact hn hr ha hover part_denied rfl fun _ => rfl).2 path).trans ?_
  simp only [mem_yields_denied, Denied]
  exact ⟨fun ⟨dir, hdir, name, h⟩ => ⟨dir, name, hdir, h⟩,
    fun ⟨dir, name, hdir, h⟩ => ⟨dir, hdir, name, h⟩⟩

end

/-! ## The number of files found -/

/-- What a step can do to the counter and to the lines printed. -/
def Prints (s s' : Search n) : Prop :=
  (s'.g_files_found = s.g_files_found ∧ s'.found = s.found) ∨
    ∃ path, s'.g_files_found = s.g_files_found + 1 ∧ s'.found = path :: s.found

theorem prints_giveDir (s : Search n) (child : DirQueueEntry) :
    (s.giveDir child).g_files_found = s.g_files_found ∧ (s.giveDir child).found = s.found := by
  rcases giveDir_cases s child with ⟨u, queue, -, heq⟩ | ⟨-, heq⟩
  · rw [heq]
    exact ⟨rfl, rfl⟩
  · rw [heq]
    exact ⟨rfl, rfl⟩

theorem prints_threadNext (hs : s.threadNext fs g_search_term t = some s') : Prints s s' := by
  cases threadMove hs with
  | enqueue _ =>
    unfold Search.threadEnqueue
    split <;> exact .inl ⟨rfl, rfl⟩
  | barrier _ hs => cases barrierMove hs <;> exact .inl ⟨rfl, rfl⟩
  | found _ _ => exact .inr ⟨_, rfl, rfl⟩
  | give _ => exact .inl (prints_giveDir s _)
  | _ => exact .inl ⟨rfl, rfl⟩

/-- The counter counts the lines printed, modulo `2 ^ 32`. -/
theorem files_run {h : List (Action n)}
    (hr : Run (SearchStep fs g_search_term) (Search.init n root) h s) (ha : ∀ a ∈ h, a.Succeeds) :
    s.g_files_found = BitVec.ofNat 32 s.found.length := by
  refine hr.invariantOn (P := fun s : Search n => s.g_files_found = BitVec.ofNat 32 s.found.length)
    (Q := fun _ (a : Action n) => a.Succeeds) rfl (fun s a s' hs ha hstep => ?_)
    (Run.eachStep_of_forall ha)
  have hprints : Prints s s' := by
    cases a with
    | main =>
      have F := mainFrame hstep
      exact .inl ⟨F.files, by rw [Search.found, Search.outputs, F.trace]; rfl⟩
    | thread t => exact prints_threadNext hstep
    | _ => exact absurd ha id
  rcases hprints with ⟨hfiles, hfound⟩ | ⟨path, hfiles, hfound⟩
  · rw [hfiles, hfound, hs]
  · rw [hfiles, hfound, hs, List.length_cons]
    exact (BitVec.ofNat_add ..).symm

/-! ## The main result -/

theorem eq_of_nodup_filterMap {α β : Type} {f : α → Option β} {l : List α}
    (h : (l.filterMap f).Nodup) {a b : α} {c : β} (ha : a ∈ l) (hb : b ∈ l) (hfa : f a = some c)
    (hfb : f b = some c) : a = b := by
  induction l with
  | nil => cases ha
  | cons x l ih =>
    rw [filterMap_cons_toList] at h
    have hrest := h.of_append_right
    have hnot : ∀ y ∈ l, f x = some c → f y ≠ some c := fun y hy hx hy' =>
      List.disjoint_of_nodup_append h (a := c) (by rw [hx]; simp) (List.mem_filterMap.2 ⟨y, hy, hy'⟩)
    rcases List.mem_cons.1 ha with rfl | ha' <;> rcases List.mem_cons.1 hb with rfl | hb'
    · rfl
    · exact absurd hfb (hnot b hb' hfa)
    · exact absurd hfa (hnot a ha' hfb)
    · exact ih hrest ha' hb'

/-- The thread `t` has iterated the directory at `path` to its end. -/
def Search.IteratedBy (s : Search n) (path : Path) (t : Fin n) : Prop :=
  ∃ d, d.path_name = path ∧ .iterated t d ∈ s.trace

theorem iteratedBy_unique (hnodup : s.iteratedPaths.Nodup) {path : Path} {t u : Fin n}
    (ht : s.IteratedBy path t) (hu : s.IteratedBy path u) : t = u := by
  obtain ⟨d, hd, ht⟩ := ht
  obtain ⟨e, he, hu⟩ := hu
  rw [Search.iteratedPaths, Search.iterated, List.map_filterMap] at hnodup
  have heq := eq_of_nodup_filterMap hnodup ht hu (congrArg some hd) (congrArg some he)
  cases heq
  rfl

theorem exists_iteratedBy {path : Path} (h : path ∈ s.iteratedPaths) : ∃ t, s.IteratedBy path t := by
  obtain ⟨d, hd, hpath⟩ := List.mem_map.1 h
  obtain ⟨e, he, heq⟩ := List.mem_filterMap.1 hd
  cases e <;> cases heq
  exact ⟨_, d, hpath, he⟩

/-- A directory that is reached has both bits. -/
theorem Listed.searchable {path : Path} (hroot : isSearchable fs root = true)
    (h : Listed fs root path) : (fs.stat path).searchable = true := by
  rcases ReflTransGen.cases_tail h with rfl | ⟨dir, -, name, -, hstat⟩
  · exact hroot
  · rw [hstat]; rfl

/-- **When `main` leaves its wait loop the search has been exact**: every directory that is reached
was iterated once, by one thread; the lines printed are the matches, once each; every directory that
lacks a bit was reported once and not iterated; and the counter counts the matches. -/
theorem search_exact {s₀ : Search n} {h : List (Action n)} (hn : 0 < n)
    (h₀ : Search.start fs n root = some s₀) (hr : Run (SearchStep fs g_search_term) s₀ h s)
    (ha : ∀ a ∈ h, a.Succeeds) (hover : s.Over) :
    (s.iteratedPaths.Nodup ∧ ∀ path, path ∈ s.iteratedPaths ↔ Listed fs root path) ∧
      (∀ path, Listed fs root path → ∃! t, s.IteratedBy path t) ∧
      (s.found.Nodup ∧ ∀ path, path ∈ s.found ↔ Matches fs g_search_term root path) ∧
      (s.denied.Nodup ∧ ∀ path, path ∈ s.denied ↔ Denied fs root path) ∧
      (∀ path ∈ s.denied, path ∉ s.iteratedPaths) ∧
      s.g_files_found = BitVec.ofNat 32 s.found.length := by
  obtain ⟨hroot, heq⟩ := Option.ite_none_right_eq_some.1 h₀
  cases heq
  have hnodup := iteratedPaths_nodup hn hr ha hover
  have hmem := mem_iteratedPaths hn hr ha hover
  refine ⟨⟨hnodup, hmem⟩, fun path hpath => ?_,
    ⟨(outputs_exact hn hr ha hover part_found rfl fun _ => rfl).1, mem_found hn hr ha hover⟩,
    ⟨(outputs_exact hn hr ha hover part_denied rfl fun _ => rfl).1, mem_denied hn hr ha hover⟩,
    fun path hdenied hiterated => ?_, files_run hr ha⟩
  · obtain ⟨t, ht⟩ := exists_iteratedBy ((hmem path).2 hpath)
    exact ⟨t, ht, fun u hu => iteratedBy_unique hnodup hu ht⟩
  · obtain ⟨_, _, -, -, rusr, xusr, hstat, hbits⟩ := (mem_denied hn hr ha hover path).1 hdenied
    have hsearchable := ((hmem path).1 hiterated).searchable hroot
    rw [hstat] at hsearchable
    rcases hbits with rfl | rfl
    · cases hsearchable
    · cases rusr <;> cases hsearchable

/-! ## A run of two threads -/

/-- The root directory `.` with a directory `a`, a file `b` and a locked directory `c`. -/
def smallTree : FileSys where
  stat := fun path =>
    if path = [46] ∨ path = [46, 47, 97] then .dir true true
    else if path = [46, 47, 99] then .dir false true else .notDir
  readdir := fun path => if path = [46] then [[97], [98], [99]] else []
  nodup := fun path => by split <;> simp
  noSlash := fun path name hname => by
    split at hname <;> simp at hname
    rcases hname with rfl | rfl | rfl <;> decide

/-- The thread 0 iterates the root directory, the thread 1 is handed `./a`. -/
def sharedSearch : List (Action 2) :=
  List.flatten [[.main, .main, .main], turns 11 1, turns 16 0, turns 8 1, turns 8 0,
    [.main, .main], turns 2 1, turns 2 0]

theorem search_exact_two :
    ∃ s, Run (SearchStep smallTree [98]) (Search.init 2 [46]) sharedSearch s ∧
      s.found = [[46, 47, 98]] ∧ s.g_files_found = 1 ∧
      (∀ path, path ∈ s.found ↔ Matches smallTree [98] [46] path) ∧
      ∃! t, s.IteratedBy [46] t := by
  have he : (Run.exec (Search.next smallTree [98]) (Search.init 2 [46]) sharedSearch).any (fun s =>
      s.main = .stopSearch ∧ s.found = [[46, 47, 98]]) = true := by
    decide
  obtain ⟨s, hr, hs⟩ := run_of_exec he
  obtain ⟨hmain, hfound⟩ := of_decide_eq_true hs
  obtain ⟨-, hone, hmatches, -, -, hfiles⟩ := @search_exact 2 smallTree [98] [46] s _ sharedSearch
    (by decide) rfl hr (by simp [sharedSearch, turns, Action.Succeeds]) (.inl (by rw [hmain]; rfl))
  rw [hfound] at hfiles
  exact ⟨s, hr, hfound, hfiles, hmatches.2, hone [46] .refl⟩

end OSCourse.Pfind
