import OSCourse.Pfind.Progress

/-!
# Failing `malloc` calls

A thread whose `thread_entry` cannot be allocated leaves before the start barrier, which then waits
for it forever; a thread that fails in `dir_enqueue` leaves with `queue_mutex`.

* `Search.Blocked` — `main` is in its wait loop or someone waits, and nobody has a step.
* `allocation_failure_blocks` — one failing `malloc` of two blocks the search.
* `not_blocked_of_uniform` — **a run in which `dir_enqueue` finds memory, and the `malloc` calls for
  the thread entries all succeed or all fail, never gets there**.
-/

set_option autoImplicit false

namespace OSCourse.Pfind

open Transition

variable {n : Nat} {fs : FileSys} {g_search_term : List UInt8} {root : Path} {s : Search n}

/-- At a lock, or waiting for a signal. -/
def ThreadPc.waits : ThreadPc → Bool
  | .start | .waitStart | .wakeStart | .lockQueue | .lockFinish | .sleep | .wake | .lockGive ..
  | .lockFail _ => true
  | _ => false

/-- In its wait loop, or at a lock. -/
def MainPc.waits : MainPc → Bool
  | .lockSearch | .lockFinish | .readDirs | .readCounts | .readFailed | .waiting | .waking
  | .lockQueue => true
  | _ => false

/-- `main` is in its wait loop, or a surviving thread waits, and nobody has a step. -/
def Search.Blocked (fs : FileSys) (g_search_term : List UInt8) (s : Search n) : Prop :=
  (s.main.waits = true ∨ ∃ t, (s.thread t).waits = true) ∧ ¬s.CanStep fs g_search_term

theorem Search.Blocked.stuck (h : s.Blocked fs g_search_term) : s.Stuck fs g_search_term := by
  refine ⟨fun ⟨hdone, hterm⟩ => ?_, h.2⟩
  rcases h.1 with hmain | ⟨t, ht⟩
  · rw [hdone] at hmain; cases hmain
  · have h := hterm t
    cases hpc : s.thread t <;> rw [hpc] at ht h <;> cases ht <;> cases h

theorem uniform_run {h : List (Action n)} (hn : 0 < n)
    (hr : Run (SearchStep fs g_search_term) (Search.init n root) h s) (ha : ∀ a ∈ h, a.Orderly)
    (hentry : (∀ t, .fault t .threadEntry ∉ h) ∨
      Run.EachStep (SearchStep fs g_search_term) (Search.init n root)
        (fun s a => ∀ t, a = .thread t → s.thread t ≠ .malloc) h) : s.Uniform := by
  rcases hentry with hnone | hall
  · have hrun : Good root s ∧ NoneFailing s := by
      refine hr.invariantOn (P := fun s : Search n => Good root s ∧ NoneFailing s)
        (Q := fun _ (a : Action n) => a.Orderly ∧ ∀ t, a ≠ .fault t .threadEntry)
        ⟨good_init hn root, fun _ _ => rfl⟩ (fun s a s' hs ha hstep => ?_)
        (Run.eachStep_of_forall fun a hmem => ⟨ha a hmem, fun t heq => hnone t (heq ▸ hmem)⟩)
      exact ⟨good_step hs.1 ha.1 hstep, noneFailing_step hs.1.inv hs.2 ha.1 ha.2 hstep⟩
    exact fun hready => .inl (hrun.2 hready)
  · have hrun : NoneEntered s := by
      refine hr.invariantOn
        (Q := fun (s : Search n) (a : Action n) =>
          a.Orderly ∧ ∀ t, a = .thread t → s.thread t ≠ .malloc)
        (fun _ => rfl) (fun s a s' hs ha hstep => noneEntered_step hs ha.1 ha.2 hstep)
        fun a h' hsuf t ht => ⟨ha a (hsuf.subset (List.mem_cons_self ..)), hall a h' hsuf t ht⟩
    exact fun _ => .inr hrun

/-- **No run is blocked in which `dir_enqueue` finds memory and the `malloc` calls for the thread
entries all succeed or all fail.** -/
theorem not_blocked_of_uniform {h : List (Action n)} (hn : 0 < n)
    (hr : Run (SearchStep fs g_search_term) (Search.init n root) h s) (ha : ∀ a ∈ h, a.Orderly)
    (hentry : (∀ t, .fault t .threadEntry ∉ h) ∨
      Run.EachStep (SearchStep fs g_search_term) (Search.init n root)
        (fun s a => ∀ t, a = .thread t → s.thread t ≠ .malloc) h) :
    ¬s.Blocked fs g_search_term := by
  intro hblocked
  have G := good_run hn hr ha
  exact not_stuck G.inv G.locks (uniform_run hn hr ha hentry) hblocked.stuck

/-! ## A run of two threads -/

/-- A file system with the empty root directory `.` only. -/
def bareRoot : FileSys where
  stat := fun path => if path = [46] then .dir true true else .notDir
  readdir := fun _ => []
  nodup := fun _ => List.nodup_nil
  noSlash := fun _ _ h => nomatch h

/-- The actions in which calls fail only for want of memory. -/
def Action.Allocates : Action n → Prop
  | .main | .thread _ => True
  | .fault _ f => f ≠ .fileSystem
  | .mainSpurious | .threadSpurious _ => False

/-- The thread 0 finds no memory for its entry, the thread 1 sleeps at the start barrier. -/
def loneSleeper : List (Action 2) :=
  [.main, .main, .main, .thread 1, .thread 1, .thread 1, .thread 1, .thread 1, .thread 1, .thread 1,
    .thread 1, .thread 0, .thread 0, .fault 0 .threadEntry, .thread 0, .thread 0, .main, .main]

/-- One failing `malloc` of two blocks `main` and the other thread. -/
theorem allocation_failure_blocks :
    ¬∀ (n : Nat) (fs : FileSys) (g_search_term : List UInt8) (root : Path) (h : List (Action n))
      (s : Search n), 2 ≤ n → isSearchable fs root = true →
      Run (SearchStep fs g_search_term) (Search.init n root) h s → (∀ a ∈ h, a.Allocates) →
      ¬s.Blocked fs g_search_term := by
  intro hclaim
  have he : (Run.exec (Search.next bareRoot []) (Search.init 2 [46]) loneSleeper).any (fun s =>
      s.main = .waiting ∧ s.mainNext.isNone ∧ ∀ t, (s.threadNext bareRoot [] t).isNone) = true := by
    decide
  obtain ⟨s, hr, hs⟩ := run_of_exec he
  obtain ⟨hmain, hno, hnone⟩ := of_decide_eq_true hs
  refine hclaim 2 bareRoot [] [46] loneSleeper s (Nat.le_refl 2) rfl hr
    (by simp [loneSleeper, Action.Allocates]) ⟨.inl (by rw [hmain]; rfl), ?_⟩
  rintro (⟨s', hs'⟩ | ⟨t, s', hs'⟩)
  · rw [hs'] at hno; cases hno
  · have h := hnone t
    rw [hs'] at h; cases h

/-- The root directory `.` with two empty directories `a` and `b`. -/
def twoFolders : FileSys where
  stat := fun path =>
    if path = [46] ∨ path = [46, 47, 97] ∨ path = [46, 47, 98] then .dir true true else .notDir
  readdir := fun path => if path = [46] then [[97], [98]] else []
  nodup := fun path => by split <;> simp
  noSlash := fun path name hname => by
    split at hname <;> simp at hname
    rcases hname with rfl | rfl <;> decide

/-- The thread 0 iterates the root directory: `./a` goes to the thread 1, `./b` to the queue. -/
def enqueuesFolder : List (Action 2) :=
  List.flatten [turns 11 0, turns 8 1, turns 8 0, [.main, .main]]

theorem not_blocked_of_uniform_folders :
    ∃ s, Run (SearchStep twoFolders []) (Search.init 2 [46]) enqueuesFolder s ∧
      s.g_dir_queue = [⟨[46, 47, 98], [98]⟩] ∧ ¬s.Blocked twoFolders [] := by
  have he : (Run.exec (Search.next twoFolders []) (Search.init 2 [46]) enqueuesFolder).any (fun s =>
      s.g_dir_queue = [⟨[46, 47, 98], [98]⟩]) = true := by
    decide
  obtain ⟨s, hr, hs⟩ := run_of_exec he
  refine ⟨s, hr, of_decide_eq_true hs, not_blocked_of_uniform (by decide) hr ?_ (.inl ?_)⟩
  · simp [enqueuesFolder, turns, Action.Orderly]
  · simp [enqueuesFolder, turns]

end OSCourse.Pfind
