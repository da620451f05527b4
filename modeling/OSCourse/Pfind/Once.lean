import OSCourse.Pfind.Budget
import OSCourse.Pfind.Exact
import OSCourse.Pfind.Held

/-!
# What a search puts out, whatever happens to it

Any call of a searching thread may fail, and `pthread_cond_wait` may return without a signal.

* `slashed` — a path with a slash at its end; whether a path lies at or below another is whether one
  slashed path begins the other.
* `visitBudget`, `iterateBudget` — the budgets of the outputs at one path, and of its iteration.
* `Event.Holds` — what an output says of the tree.
* `once_and_true` — **no path is put out twice, no directory is iterated twice, and what is put out
  is true**.
-/

set_option autoImplicit false

namespace OSCourse.Pfind

open Relation Transition

variable {n : Nat} {fs : FileSys} {g_search_term : List UInt8} {root : Path} {s s' : Search n}

/-! ## Paths below a path -/

def slashed (path : Path) : Path := path ++ [slash]

theorem slashed_newPathname (dir : Path) (name : Name) :
    slashed (newPathname dir name) = slashed dir ++ slashed name := by
  simp [slashed, newPathname]

theorem slashed_length (path : Path) : (slashed path).length = path.length + 1 := by
  simp [slashed]

/-- A path begins with one name only. -/
theorem eq_of_slashed_prefix {name name' : Name} {l : List UInt8} (hname : slash ∉ name)
    (hname' : slash ∉ name') (h : slashed name <+: l) (h' : slashed name' <+: l) : name = name' := by
  have hcase : ∀ {a b : Name}, slash ∉ b → slashed a <+: slashed b → a = b := by
    intro a b hb hab
    rcases List.prefix_concat_iff.1 hab with heq | hab
    · exact List.append_cancel_right heq
    · exact absurd (hab.subset (by simp [slashed])) hb
  rcases Nat.le_total (slashed name).length (slashed name').length with hle | hle
  · exact hcase hname' (List.prefix_of_prefix_length_le h h' hle)
  · exact (hcase hname (List.prefix_of_prefix_length_le h' h hle)).symm

/-- A path is one with a slash, or lies below it. -/
theorem slashed_cases (dir path : Path) : (if dir = path then 1 else 0) +
    (if slashed dir <+: path then 1 else 0) ≤ if slashed dir <+: slashed path then 1 else 0 := by
  by_cases heq : dir = path
  · subst heq
    have hnot : ¬slashed dir <+: dir := by
      intro hpre
      have hle := hpre.length_le
      rw [slashed_length] at hle
      omega
    rw [if_pos rfl, if_neg hnot, if_pos (List.prefix_refl _)]
  · rw [if_neg heq]
    by_cases hpre : slashed dir <+: path
    · have hpre' : slashed dir <+: slashed path := hpre.trans (List.prefix_append ..)
      rw [if_pos hpre, if_pos hpre']
    · rw [if_neg hpre]
      exact Nat.zero_le _

/-- At most one element of a list without repetitions has the property. -/
theorem countP_le_one {α : Type} {p : α → Bool} {l : List α} (hl : l.Nodup)
    (hone : ∀ a ∈ l, ∀ b ∈ l, p a = true → p b = true → a = b) : l.countP p ≤ 1 := by
  rw [List.countP_eq_length_filter]
  have hfilter := hl.filter p
  have hmem : ∀ a ∈ l.filter p, a ∈ l ∧ p a = true := fun a ha => List.mem_filter.1 ha
  generalize l.filter p = m at hfilter hmem
  rcases m with _ | ⟨a, _ | ⟨b, m⟩⟩
  · exact Nat.zero_le _
  · exact Nat.le_refl _
  · have ha := hmem a (by simp)
    have hb := hmem b (by simp)
    have hab := hone a ha.1 b hb.1 ha.2 hb.2
    simp [hab] at hfilter

/-- The names of a directory at or above a path. -/
def namesAbove (path : Path) (dir : Path) (names : List Name) : ℕ :=
  names.countP fun name => slashed (newPathname dir name) <+: slashed path

theorem namesAbove_cons (path dir : Path) (name : Name) (names : List Name) :
    namesAbove path dir (name :: names) = namesAbove path dir names +
      if slashed (newPathname dir name) <+: slashed path then 1 else 0 := by
  simp [namesAbove, List.countP_cons]

/-- One name of a directory leads to a path, and only if the path lies below the directory. -/
theorem namesAbove_le (fs : FileSys) (path dir : Path) :
    namesAbove path dir (fs.readdir dir) ≤ if slashed dir <+: path then 1 else 0 := by
  have hbelow : ∀ name, slashed (newPathname dir name) <+: slashed path → slashed dir <+: path := by
    intro name hpre
    rw [slashed_newPathname] at hpre
    have hdir : slashed dir <+: path ++ [slash] := (List.prefix_append ..).trans hpre
    have hle := hpre.length_le
    rw [List.length_append, slashed_length, slashed_length, slashed_length] at hle
    refine List.prefix_of_prefix_length_le hdir (List.prefix_append ..) ?_
    rw [slashed_length]
    omega
  split
  · refine countP_le_one (fs.nodup dir) fun a ha b hb hpa hpb => ?_
    have hpa := of_decide_eq_true hpa
    have hpb := of_decide_eq_true hpb
    rw [slashed_newPathname] at hpa hpb
    obtain ⟨la, hla⟩ := hpa
    obtain ⟨lb, hlb⟩ := hpb
    rw [List.append_assoc] at hla hlb
    have heq := List.append_cancel_left (hla.trans hlb.symm)
    exact eq_of_slashed_prefix (fs.noSlash _ _ ha) (fs.noSlash _ _ hb) ⟨la, rfl⟩ ⟨lb, heq.symm⟩
  · rename_i hnot
    refine Nat.le_of_eq (List.countP_eq_zero.2 fun name _ hpre => ?_)
    exact hnot (hbelow name (of_decide_eq_true hpre))

/-! ## The budgets of one path -/

/-- The path that an event puts out. -/
def Event.path? (e : Event n) : Option Path := e.visit?.bind Visit.path?

/-- `path` may be put out once. -/
def visitBudget (fs : FileSys) (g_search_term : List UInt8) (n : Nat) (path : Path) :
    Budget fs g_search_term n where
  pending d := if slashed d.path_name <+: path then 1 else 0
  iterating d names := namesAbove path d.path_name names
  event e := e.path?.toList.count path
  opened d := namesAbove_le fs path d.path_name
  visited d d_name names := by
    have hcases := slashed_cases (newPathname d.path_name d_name) path
    rw [namesAbove_cons]
    have hpath := @visit_path fs g_search_term d d_name
    cases hv : visit fs g_search_term d d_name with
    | skip =>
      simp only [Visit.cost]
      omega
    | found q | denied q =>
      rw [hv] at hpath
      cases hpath rfl
      simp only [Visit.cost, Event.path?, Event.visit?, Option.bind_some, Visit.path?,
        Option.toList_some, List.count_singleton, beq_iff_eq]
      omega
    | give child =>
      rw [hv] at hpath
      rw [← hpath rfl] at hcases ⊢
      simp only [Visit.cost, Event.path?, Event.visit?, Option.bind_some, Visit.path?,
        Option.toList_some, List.count_singleton, beq_iff_eq]
      omega
  closed _ _ := Nat.zero_le _
  failed _ := rfl

/-- 1 for the end of the iteration at `path`. -/
def Event.iteratedAt (path : Path) (e : Event n) : ℕ :=
  e.iterated?.elim 0 fun d => if d.path_name = path then 1 else 0

theorem iterate_visited (path : Path) (d : DirQueueEntry) (d_name : Name) (names : List Name) :
    (visit fs g_search_term d d_name).cost (Event.iteratedAt (n := n) path)
        (fun child => if slashed child.path_name <+: slashed path then 1 else 0) +
      namesAbove path d.path_name names ≤ namesAbove path d.path_name (d_name :: names) := by
  rw [namesAbove_cons]
  cases hv : visit fs g_search_term d d_name with
  | skip | found q | denied q =>
    simp only [Visit.cost, Event.iteratedAt, Event.iterated?, Option.elim_none]
    omega
  | give child =>
    have hpath := @visit_path fs g_search_term d d_name
    rw [hv] at hpath
    rw [← hpath rfl]
    simp only [Visit.cost, Event.iteratedAt, Event.iterated?, Option.elim_none]
    omega

/-- The directory at `path` may be iterated once. -/
def iterateBudget (fs : FileSys) (g_search_term : List UInt8) (n : Nat) (path : Path) :
    Budget fs g_search_term n where
  pending d := if slashed d.path_name <+: slashed path then 1 else 0
  iterating d names := (if d.path_name = path then 1 else 0) + namesAbove path d.path_name names
  event := Event.iteratedAt path
  opened d := (Nat.add_le_add_left (namesAbove_le fs path d.path_name) _).trans (slashed_cases _ _)
  visited d d_name names := (Nat.add_left_comm ..).trans_le
    (Nat.add_le_add_left (iterate_visited path d d_name names) _)
  closed _ _ := Nat.le_add_right ..
  failed _ := rfl

theorem paid_visit (path : Path) (s : Search n) :
    (visitBudget fs g_search_term n path).paid s = (s.outputs Visit.path?).count path := by
  rw [Budget.paid, Search.outputs]
  induction s.trace with
  | nil => rfl
  | cons e trace ih =>
    rw [List.map_cons, List.sum_cons, filterMap_cons_toList, List.count_append, ih]
    rfl

theorem paid_iterate (path : Path) (s : Search n) :
    (iterateBudget fs g_search_term n path).paid s = s.iteratedPaths.count path := by
  rw [Budget.paid, Search.iteratedPaths, Search.iterated]
  induction s.trace with
  | nil => rfl
  | cons e trace ih =>
    rw [List.map_cons, List.sum_cons, filterMap_cons_toList, List.map_append, List.count_append, ih]
    cases e with
    | iterated t d =>
      simp [iterateBudget, Event.iteratedAt, Event.iterated?, List.count_singleton]
    | _ => rfl

section

variable {h : List (Action n)} (hr : Run (SearchStep fs g_search_term) (Search.init n root) h s)

include hr

/-- A path is printed, reported or given out at most once, and one of these. -/
theorem outputs_nodup : (s.outputs Visit.path?).Nodup := by
  rw [List.nodup_iff_count_le_one]
  intro path
  rw [← paid_visit]
  refine (Budget.total_run hr).trans ?_
  have hcases := slashed_cases root path
  simp only [visitBudget, Event.path?, Event.visit?, Option.bind_some, Visit.path?,
    Option.toList_some, List.count_singleton, beq_iff_eq]
  split at hcases <;> split at hcases <;> split at hcases <;> simp_all

theorem iterated_nodup : s.iteratedPaths.Nodup := by
  rw [List.nodup_iff_count_le_one]
  intro path
  rw [← paid_iterate]
  refine (Budget.total_run hr).trans ?_
  simp only [iterateBudget, Event.iteratedAt, Event.iterated?, Option.elim_none, Nat.zero_add]
  split <;> omega

end

/-! ## What the outputs say is true -/

def Event.Holds (fs : FileSys) (g_search_term : List UInt8) (root : Path) : Event n → Prop
  | .found path => Matches fs g_search_term root path
  | .denied path => Denied fs root path
  | .given d | .iterated _ d | .failedOn d => Listed fs root d.path_name

/-- A directory that is held is reached from the root. -/
def reachedMarks (fs : FileSys) (g_search_term : List UInt8) (root : Path) :
    Marks fs g_search_term where
  held d := Listed fs root d.path_name
  opened d := Listed fs root d.path_name
  read d name := name ∈ fs.readdir d.path_name
  gives d d_name child hopened hread hvisit := by
    obtain ⟨hdot, hstat, rfl⟩ := visit_give hvisit
    exact ReflTransGen.tail hopened ⟨d_name, ⟨hread, hdot, rfl⟩, hstat⟩

theorem held_reachedMarks {h : List (Action n)}
    (hr : Run (SearchStep fs g_search_term) (Search.init n root) h s) :
    Held (reachedMarks fs g_search_term root) s := by
  refine hr.invariant (held_init .refl) fun s a s' H hs => held_step H ?_ ?_ hs
  · intro d _ hd
    exact hd
  · intro d d_name _ _ hmem
    exact hmem

/-- The events that a step adds hold. -/
def AddsTrue (fs : FileSys) (g_search_term : List UInt8) (root : Path) (s s' : Search n) : Prop :=
  s'.trace = s.trace ∨ ∃ e, e.Holds fs g_search_term root ∧ s'.trace = e :: s.trace

theorem addsTrue_threadNext {t : Fin n} (H : Held (reachedMarks fs g_search_term root) s)
    (hs : s.threadNext fs g_search_term t = some s') : AddsTrue fs g_search_term root s s' := by
  have hK := H.known t
  cases threadMove hs with
  | enqueue _ =>
    unfold Search.threadEnqueue
    split <;> exact .inl rfl
  | barrier _ hs => cases barrierMove hs <;> exact .inl rfl
  | @closeDir d hpc =>
    rw [hpc] at hK
    exact .inr ⟨.iterated t d, hK.1, rfl⟩
  | @found d d_name names path hpc hvisit =>
    rw [hpc] at hK
    have S := @visit_spec fs g_search_term d d_name
    rw [hvisit] at S
    cases S with
    | file hdot hstat hterm =>
      exact .inr ⟨.found _, ⟨_, _, hK.1, ⟨hK.mem, hdot, rfl⟩, hstat, hterm⟩, rfl⟩
  | @denied d d_name names path hpc hvisit =>
    rw [hpc] at hK
    have S := @visit_spec fs g_search_term d d_name
    rw [hvisit] at S
    cases S with
    | locked hdot hstat hbits =>
      exact .inr ⟨.denied _, ⟨_, _, hK.1, ⟨hK.mem, hdot, rfl⟩, _, _, hstat, hbits⟩, rfl⟩
  | @give d child names hpc =>
    rw [hpc] at hK
    refine .inr ⟨.given child, hK.2, ?_⟩
    rcases giveDir_cases s child with ⟨u, queue, -, heq⟩ | ⟨-, heq⟩
    · rw [heq]
      rfl
    · rw [heq]
      rfl
  | _ => exact .inl rfl

theorem addsTrue_step {a : Action n} (H : Held (reachedMarks fs g_search_term root) s)
    (hs : SearchStep fs g_search_term s a s') : AddsTrue fs g_search_term root s s' := by
  cases a with
  | main => exact .inl (mainFrame hs).trace
  | thread t => exact addsTrue_threadNext H hs
  | fault t f =>
    have hK := H.known t
    cases faultMove hs with
    | malloc _ => exact .inl rfl
    | @openDir d hpc =>
      rw [hpc] at hK
      exact .inr ⟨.failedOn d, hK, rfl⟩
    | @stat d d_name names hpc _ =>
      rw [hpc] at hK
      exact .inr ⟨.failedOn d, hK.1, rfl⟩
    | @give d child names hpc _ =>
      rw [hpc] at hK
      exact .inr ⟨.failedOn d, hK.1.1, rfl⟩
  | mainSpurious =>
    obtain ⟨-, rfl⟩ := mainSpurious_cases hs
    exact .inl rfl
  | threadSpurious t =>
    rcases threadSpurious_cases hs with ⟨-, rfl⟩ | ⟨-, rfl⟩
    · exact .inl rfl
    · exact .inl rfl

theorem holds_run {h : List (Action n)}
    (hr : Run (SearchStep fs g_search_term) (Search.init n root) h s) :
    ∀ e ∈ s.trace, e.Holds fs g_search_term root := by
  have hrun : Held (reachedMarks fs g_search_term root) s ∧
      ∀ e ∈ s.trace, e.Holds fs g_search_term root := by
    induction hr with
    | nil =>
      refine ⟨held_init .refl, fun e he => ?_⟩
      rw [List.mem_singleton.1 he]
      exact .refl
    | step hr hs ih =>
      refine ⟨held_reachedMarks (hr.step hs), fun e he => ?_⟩
      rcases addsTrue_step ih.1 hs with htrace | ⟨e', he', htrace⟩
      · exact ih.2 e (htrace ▸ he)
      · rw [htrace] at he
        rcases List.mem_cons.1 he with rfl | he
        · exact he'
        · exact ih.2 e he
  exact hrun.2

/-- The number of files is that of the lines printed, also after failures. -/
theorem files_run_any {h : List (Action n)}
    (hr : Run (SearchStep fs g_search_term) (Search.init n root) h s) :
    s.g_files_found = BitVec.ofNat 32 s.found.length := by
  refine hr.invariant (P := fun s => s.g_files_found = BitVec.ofNat 32 s.found.length) rfl ?_
  intro s a s' hs hstep
  have hprints : Prints s s' := by
    cases a with
    | main =>
      have F := mainFrame hstep
      exact .inl ⟨F.files, by rw [Search.found, Search.outputs, F.trace]; rfl⟩
    | thread t => exact prints_threadNext hstep
    | fault t f => cases faultMove hstep <;> exact .inl ⟨rfl, rfl⟩
    | mainSpurious =>
      obtain ⟨-, rfl⟩ := mainSpurious_cases hstep
      exact .inl ⟨rfl, rfl⟩
    | threadSpurious t =>
      rcases threadSpurious_cases hstep with ⟨-, rfl⟩ | ⟨-, rfl⟩
      · exact .inl ⟨rfl, rfl⟩
      · exact .inl ⟨rfl, rfl⟩
  rcases hprints with ⟨hfiles, hfound⟩ | ⟨path, hfiles, hfound⟩
  · rw [hfiles, hfound, hs]
  · rw [hfiles, hfound, hs, List.length_cons]
    exact (BitVec.ofNat_add ..).symm

theorem mem_outputs {proj : Visit → Option Path} {path : Path} (h : path ∈ s.outputs proj) :
    ∃ e ∈ s.trace, e.visit?.bind proj = some path :=
  List.mem_filterMap.1 h

/-- **Whatever fails and whoever wakes, the output of a search is true and without repetitions**: a
path is printed, reported or given out at most once, no directory is iterated twice, the lines are
matches and directories that lack a bit, and the counter counts the lines. -/
theorem once_and_true {h : List (Action n)}
    (hr : Run (SearchStep fs g_search_term) (Search.init n root) h s) :
    (s.outputs Visit.path?).Nodup ∧ s.iteratedPaths.Nodup ∧
      (∀ path ∈ s.found, Matches fs g_search_term root path) ∧
      (∀ path ∈ s.denied, Denied fs root path) ∧
      (∀ path ∈ s.iteratedPaths, Listed fs root path) ∧
      s.g_files_found = BitVec.ofNat 32 s.found.length := by
  have hholds := holds_run hr
  refine ⟨outputs_nodup hr, iterated_nodup hr, ?_, ?_, ?_, files_run_any hr⟩
  · intro path hpath
    obtain ⟨e, he, hvisit⟩ := mem_outputs hpath
    have htrue := hholds e he
    cases e <;> cases hvisit
    exact htrue
  · intro path hpath
    obtain ⟨e, he, hvisit⟩ := mem_outputs hpath
    have htrue := hholds e he
    cases e <;> cases hvisit
    exact htrue
  · intro path hpath
    obtain ⟨d, hd, rfl⟩ := List.mem_map.1 hpath
    obtain ⟨e, he, hiterated⟩ := List.mem_filterMap.1 hd
    have htrue := hholds e he
    cases e <;> cases hiterated
    exact htrue

/-- The wait of the thread 1 for the start returns without a signal; it fails to open `./a`. -/
def wokenAndFailed : List (Action 2) :=
  List.flatten [[.fault 1 .fileSystem], turns 4 1, turns 16 0, turns 8 1, turns 8 0, [.main, .main],
    turns 2 1, [.threadSpurious 1], turns 2 1, turns 2 0]

theorem once_and_true_failed :
    ∃ s, Run (SearchStep smallTree [98]) (Search.init 2 [46]) wokenAndFailed s ∧
      s.found = [[46, 47, 98]] ∧ s.denied = [[46, 47, 99]] ∧ s.g_files_found = 1 ∧
      Matches smallTree [98] [46] [46, 47, 98] ∧ Denied smallTree [46] [46, 47, 99] := by
  have he : (Run.exec (Search.next smallTree [98]) (Search.init 2 [46]) wokenAndFailed).any (fun s =>
      s.found = [[46, 47, 98]] ∧ s.denied = [[46, 47, 99]]) = true := by
    decide
  obtain ⟨s, hr, hs⟩ := run_of_exec he
  obtain ⟨hfound, hdenied⟩ := of_decide_eq_true hs
  obtain ⟨-, -, hmatches, hlocked, -, hfiles⟩ := once_and_true hr
  rw [hfound] at hfiles
  exact ⟨s, hr, hfound, hdenied, hfiles, hmatches _ (by simp [hfound]), hlocked _ (by simp [hdenied])⟩

end OSCourse.Pfind
