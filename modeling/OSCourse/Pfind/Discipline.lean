import OSCourse.Pfind.Locks

/-!
# The discipline of the two queues

Here `pthread_cond_wait` returns only after a signal and the `malloc` of `dir_enqueue` succeeds;
every other call of a searching thread may fail.

* `Allowed` — for each program point of a thread: in which phase of `main` it can be there, whether
  its entry is in the thread queue, whether it was handed a directory, and what it knows of the
  directory queue.
* `Launched` — while the directory queue is not empty, threads sleep only if the root directory
  waits for the thread that the start barrier woke.
* `Inv` — the invariant; `Inv.goto` is for the steps of a thread that the others do not see.
-/

set_option autoImplicit false

namespace OSCourse.Pfind

open Mutex Transition

variable {n : Nat}

/-! ## Phases and views -/

/-- The phases of `main`. -/
inductive Phase where
  /-- before it raises `g_is_search` -/
  | before
  /-- in its wait loop -/
  | search
  /-- out of the loop, before it has signalled the threads -/
  | stopping
  | stopped
  deriving DecidableEq, Repr

def MainPc.phase : MainPc → Phase
  | .lockSearch | .raise => .before
  | .lockFinish | .readDirs | .readCounts | .readFailed | .waiting | .waking => .search
  | .stopSearch | .lockQueue | .signalAll => .stopping
  | .join _ | .done => .stopped

/-- What the shared state means to one thread. -/
structure View where
  phase : Phase
  ready : Bool
  dirs : List DirQueueEntry
  idle : Prop
  dir : Option DirQueueEntry

def Search.view (s : Search n) (t : Fin n) : View :=
  ⟨s.main.phase, s.g_all_threads_ready, s.g_dir_queue, t ∈ s.g_thread_queue, s.dir_to_handle t⟩

/-- When a thread can be at a program point. -/
def Allowed (v : View) : ThreadPc → Prop
  | .start | .testStart =>
      (v.phase = .before ∨ v.phase = .search) ∧ v.ready = false ∧ ¬v.idle ∧ v.dir = none
  | .waitStart => v.phase = .before ∧ v.ready = false ∧ ¬v.idle ∧ v.dir = none
  | .wakeStart | .malloc => v.phase = .search ∧ v.ready = false ∧ ¬v.idle ∧ v.dir = none
  | .lockQueue => v.phase = .search ∧ ¬v.idle ∧ v.dir = none
  | .testSleep => (v.phase = .search ∧ ¬v.idle ∧ (v.ready = false → v.dir = none)) ∨
      (v.phase = .stopped ∧ v.idle ∧ v.dir = none ∧ v.ready = true)
  | .lockFinish | .enqueue =>
      v.phase = .search ∧ ¬v.idle ∧ v.dir = none ∧ (v.ready = true → v.dirs = [])
  | .barrier | .sleep =>
      (v.phase = .search ∨ (v.phase = .stopping ∧ v.ready = true)) ∧ v.idle ∧ v.dir = none
  | .wake => (v.phase = .search ∧ ¬v.idle ∧ v.ready = true) ∨
      (v.phase = .stopped ∧ v.idle ∧ v.dir = none ∧ v.ready = true)
  | .testSearch => (v.phase = .search ∧ ¬v.idle ∧ v.ready = true ∧ (v.dir ≠ none ∨ v.dirs ≠ [])) ∨
      (v.phase = .stopped ∧ v.idle ∧ v.dir = none ∧ v.ready = true)
  | .take => v.phase = .search ∧ ¬v.idle ∧ v.ready = true ∧ (v.dir ≠ none ∨ v.dirs ≠ [])
  | .openDir _ | .iterate .. | .lockGive .. | .give .. =>
      v.phase = .search ∧ ¬v.idle ∧ v.ready = true
  | .lockFail queue | .fail queue => v.phase = .search ∧ ¬v.idle ∧ queue = false
  | .failed queue => ¬v.idle ∧ queue = false
  | .exited => v.phase = .stopped ∧ v.idle ∧ v.dir = none ∧ v.ready = true

/-- The points between the signal that wakes a thread and the directory that it takes. -/
def ThreadPc.launchable : ThreadPc → Bool
  | .wake | .testSleep | .testSearch | .take => true
  | _ => false

def ThreadPc.isFailed : ThreadPc → Bool
  | .failed _ => true
  | _ => false

/-- `t` is the thread that the start barrier woke, and the root directory still waits for it. -/
structure Launched (s : Search n) (t : Fin n) : Prop where
  working : t ∉ s.g_thread_queue
  point : (s.thread t).launchable = true
  dir : s.dir_to_handle t = none
  one : s.g_dir_queue.length = 1

/-- What `main` knows at its program points. -/
def MainKnows (s : Search n) : Prop :=
  match s.main with
  | .readCounts => s.g_all_threads_ready = true
  | .readFailed => ¬(s.g_dir_queue = [] ∧ s.g_thread_queue.length + s.g_failed_threads = n)
  | .waiting => ¬(s.g_dir_queue = [] ∧ s.g_thread_queue.length + s.g_failed_threads = n) ∧
      s.g_failed_threads ≠ n
  | .join i => ∀ t : Fin n, t.val < i → (s.thread t).terminated = true
  | .done => ∀ t, (s.thread t).terminated = true
  | _ => True

/-- The threads that have failed. -/
def Search.failedThreads (s : Search n) : Finset (Fin n) :=
  Finset.univ.filter fun t => (s.thread t).isFailed = true

structure Inv (root : DirQueueEntry) (s : Search n) : Prop where
  searching : s.g_is_search = true ↔ s.main.phase = .search ∨ s.main = .stopSearch
  allowed : ∀ t, Allowed (s.view t) (s.thread t)
  nodup : s.g_thread_queue.Nodup
  failed : s.g_failed_threads = s.failedThreads.card
  notReady : s.g_all_threads_ready = false → s.g_dir_queue = [root]
  launch : s.g_all_threads_ready = true → s.g_dir_queue ≠ [] → s.g_thread_queue ≠ [] →
    ∃ t, Launched s t
  full : s.g_all_threads_ready = false → s.g_thread_queue.length = n → ∃ t, s.thread t = .barrier
  head : ∀ t, s.thread t = .barrier → ∃ rest, s.g_thread_queue = t :: rest
  main : MainKnows s

/-! ## What follows from the invariant -/

variable {root : DirQueueEntry} {s s' : Search n} {t : Fin n}

theorem Allowed.not_idle_of_failed {v : View} {pc : ThreadPc} (h : Allowed v pc)
    (hf : pc.isFailed = true) : ¬v.idle := by
  cases pc <;> simp only [ThreadPc.isFailed, Bool.false_eq_true] at hf
  exact h.1

/-- Out of the wait loop of `main`, a thread that has not failed is idle. -/
theorem Allowed.over {v : View} {pc : ThreadPc} (h : Allowed v pc)
    (hover : v.phase = .stopping ∨ v.phase = .stopped) (hf : pc.isFailed = false) :
    v.idle ∧ v.ready = true ∧ v.dir = none := by
  rcases hover with hphase | hphase <;> cases pc <;> simp_all [Allowed, ThreadPc.isFailed]

theorem Inv.not_failed (I : Inv root s) : ∀ t ∈ s.g_thread_queue, ¬(s.thread t).isFailed = true :=
  fun t ht hf => (I.allowed t).not_idle_of_failed hf ht

/-- A thread that is neither idle nor failed keeps the counts below the number of threads. -/
theorem Inv.lt_of_working (I : Inv root s) (ht : t ∉ s.g_thread_queue)
    (hf : ¬(s.thread t).isFailed = true) :
    s.g_thread_queue.length + s.g_failed_threads < n := by
  rw [I.failed]
  exact lt_of_uncovered I.nodup I.not_failed ht hf

/-- If the counts add up, every thread is idle or failed. -/
theorem Inv.idle_or_failed (I : Inv root s)
    (hcount : s.g_thread_queue.length + s.g_failed_threads = n) (t : Fin n) :
    t ∈ s.g_thread_queue ∨ (s.thread t).isFailed = true := by
  rw [I.failed] at hcount
  exact covered_of_card I.nodup I.not_failed hcount t

/-- If all threads are counted as failed, they are. -/
theorem Inv.all_failed (I : Inv root s) (hcount : s.g_failed_threads = n) (t : Fin n) :
    (s.thread t).isFailed = true := by
  rw [I.failed, Search.failedThreads] at hcount
  have h := covered_of_card (P := fun t => (s.thread t).isFailed = true) List.nodup_nil
    (fun t ht => by cases ht) ((Nat.zero_add _).trans hcount) t
  rcases h with h | h
  · cases h
  · exact h

/-- What an idle thread does while the search goes on. -/
theorem Inv.idle_cases (I : Inv root s) (hphase : s.main.phase = .search)
    (ht : t ∈ s.g_thread_queue) :
    (s.thread t = .barrier ∨ s.thread t = .sleep) ∧ s.dir_to_handle t = none := by
  have hA := I.allowed t
  have hidle : (s.view t).idle := ht
  have hview : (s.view t).phase = .search := hphase
  cases hpc : s.thread t <;> simp only [hpc, Allowed, hview, hidle] at hA <;>
    simp_all [Search.view]

/-- The other idle threads sleep while `t` holds `queue_mutex`. -/
theorem Inv.asleep (I : Inv root s) (L : Locks s) (hphase : s.main.phase = .search)
    (hqueue : (s.thread t).holdsQueue = true) {u : Fin n} (hu : u ∈ s.g_thread_queue) (hut : u ≠ t) :
    s.thread u = .sleep := by
  rcases (I.idle_cases hphase hu).1 with hpc | hpc
  · have hu : s.holdsQueue (.thread u) = true := by simp [Search.holdsQueue, hpc]
    have ht : s.holdsQueue (.thread t) = true := hqueue
    exact absurd (Proc.thread.inj (L.queue.unique hu ht)) hut
  · exact hpc

/-! ## Views and knowledge that a step keeps -/

theorem Search.view_congr {u : Fin n} (hphase : s'.main.phase = s.main.phase)
    (hready : s'.g_all_threads_ready = s.g_all_threads_ready) (hdirs : s'.g_dir_queue = s.g_dir_queue)
    (hidle : u ∈ s'.g_thread_queue ↔ u ∈ s.g_thread_queue)
    (hdir : s'.dir_to_handle u = s.dir_to_handle u) : s'.view u = s.view u := by
  simp only [Search.view, hphase, hready, hdirs, hdir, View.mk.injEq, true_and, and_true]
  exact propext hidle

/-- What a thread does not see does not move it. -/
theorem Inv.allowed_congr (I : Inv root s) {u : Fin n} (hphase : s'.main.phase = s.main.phase)
    (hready : s'.g_all_threads_ready = s.g_all_threads_ready) (hdirs : s'.g_dir_queue = s.g_dir_queue)
    (hidle : u ∈ s'.g_thread_queue ↔ u ∈ s.g_thread_queue)
    (hdir : s'.dir_to_handle u = s.dir_to_handle u) : Allowed (s'.view u) (s.thread u) := by
  rw [Search.view_congr hphase hready hdirs hidle hdir]
  exact I.allowed u

/-- Only a thread that holds `queue_mutex` knows of the directory queue. -/
theorem Allowed.dirs {v : View} {pc : ThreadPc} (h : Allowed v pc) (hpc : pc.holdsQueue = false)
    (dirs : List DirQueueEntry) : Allowed { v with dirs := dirs } pc := by
  cases pc <;> first | exact h | cases hpc

theorem MainPc.phase_signalled (pc : MainPc) : pc.signalled.phase = pc.phase := by
  cases pc <;> rfl

/-- A signal on `finish_cv` while `main` is in its wait loop and does not hold `finish_mutex`. -/
theorem mainKnows_signalled (hphase : s.main.phase = .search)
    (hfinish : s.main.holdsFinish = false) (hmain : s'.main = s.main.signalled) : MainKnows s' := by
  unfold MainKnows
  rw [hmain]
  cases hpc : s.main <;> simp [hpc, MainPc.phase] at hphase hfinish ⊢ <;> trivial

/-- What `main` knows stays true while the search is not over. -/
theorem MainKnows.of_not_done (h : MainKnows s) (hphase : s.main.phase = .search)
    (hmain : s'.main = s.main)
    (hready : s.g_all_threads_ready = true → s'.g_all_threads_ready = true)
    (hnot : ¬(s'.g_dir_queue = [] ∧ s'.g_thread_queue.length + s'.g_failed_threads = n))
    (hfailed : s'.g_failed_threads = s.g_failed_threads) : MainKnows s' := by
  unfold MainKnows at h ⊢
  rw [hmain]
  cases hpc : s.main <;> simp only [hpc, MainPc.phase, reduceCtorEq] at h hphase ⊢
  · exact hready h
  · exact hnot
  · exact ⟨hnot, hfailed ▸ h.2⟩

/-! ## A step of one thread that the others do not see -/

/-- The shared state that `Inv` looks at is the same, but for the `dir_to_handle` of `t`. -/
structure Frame (s s' : Search n) (t : Fin n) : Prop where
  searching : s'.g_is_search = s.g_is_search
  ready : s'.g_all_threads_ready = s.g_all_threads_ready
  failed : s'.g_failed_threads = s.g_failed_threads
  dirs : s'.g_dir_queue = s.g_dir_queue
  threads : s'.g_thread_queue = s.g_thread_queue
  dir : ∀ u, u ≠ t → s'.dir_to_handle u = s.dir_to_handle u
  thread : s'.thread = s.thread
  main : s'.main = s.main

/-- A step that touches the mutexes, the output and the trace only. -/
theorem Frame.rest {search finish queue : Option (Proc n)} {files : BitVec 32}
    {trace : List (Event n)} : Frame s { s with
      search_mutex := search
      finish_mutex := finish
      queue_mutex := queue
      g_files_found := files
      trace := trace } t :=
  ⟨rfl, rfl, rfl, rfl, rfl, fun _ _ => rfl, rfl, rfl⟩

theorem Frame.view (F : Frame s s' t) {u : Fin n} (hu : u ≠ t) : s'.view u = s.view u :=
  Search.view_congr (congrArg MainPc.phase F.main) F.ready F.dirs (by rw [F.threads]) (F.dir u hu)

theorem ThreadPc.isFailed_of_live {pc : ThreadPc} (h : pc.terminated = false) :
    pc.isFailed = false := by
  cases pc <;> first | rfl | cases h

theorem Search.goto_self (s : Search n) (t : Fin n) (pc : ThreadPc) : (s.goto t pc).thread t = pc :=
  Function.update_self ..

theorem Search.goto_of_ne (s : Search n) {t u : Fin n} (pc : ThreadPc) (hu : u ≠ t) :
    (s.goto t pc).thread u = s.thread u :=
  Function.update_of_ne hu ..

theorem Inv.goto (I : Inv root s) (pc : ThreadPc) (F : Frame s s' t)
    (hA : Allowed (s'.view t) pc) (hlive : (s.thread t).terminated = false)
    (hfailed : pc.isFailed = false)
    (hlaunch : s.g_all_threads_ready = true → Launched s t →
      pc.launchable = true ∧ s'.dir_to_handle t = none)
    (hbarrier : s.thread t = .barrier → s.g_all_threads_ready = true ∨ s.g_thread_queue.length ≠ n)
    (hpc : pc ≠ .barrier) : Inv root (s'.goto t pc) := by
  have hothers : ∀ u, u ≠ t → (s'.goto t pc).thread u = s.thread u := fun u hu => by
    rw [Search.goto_of_ne _ _ hu, F.thread]
  have hself : (s'.goto t pc).thread t = pc := Search.goto_self ..
  refine ⟨?_, fun u => ?_, ?_, ?_, ?_, ?_, ?_, fun u hu => ?_, ?_⟩
  · show s'.g_is_search = true ↔ s'.main.phase = .search ∨ s'.main = .stopSearch
    rw [F.searching, F.main]; exact I.searching
  · show Allowed (s'.view u) ((s'.goto t pc).thread u)
    by_cases hu : u = t
    · subst hu; rw [hself]; exact hA
    · rw [hothers u hu, F.view hu]; exact I.allowed u
  · exact F.threads ▸ I.nodup
  · show s'.g_failed_threads = _
    rw [F.failed, I.failed]
    congr 1
    ext u
    simp only [Search.failedThreads, Finset.mem_filter, Finset.mem_univ, true_and]
    by_cases hu : u = t
    · subst hu; rw [hself, hfailed, ThreadPc.isFailed_of_live hlive]
    · rw [hothers u hu]
  · exact F.dirs ▸ F.ready ▸ I.notReady
  · show s'.g_all_threads_ready = true → s'.g_dir_queue ≠ [] → s'.g_thread_queue ≠ [] → _
    rw [F.ready, F.dirs, F.threads]
    intro hready hdirs hthreads
    obtain ⟨u, hu⟩ := I.launch hready hdirs hthreads
    refine ⟨u, F.threads ▸ hu.working, ?_, ?_, F.dirs ▸ hu.one⟩
    · by_cases hut : u = t
      · subst hut; rw [hself]; exact (hlaunch hready hu).1
      · rw [hothers u hut]; exact hu.point
    · show s'.dir_to_handle u = none
      by_cases hut : u = t
      · subst hut; exact (hlaunch hready hu).2
      · rw [F.dir u hut]; exact hu.dir
  · show s'.g_all_threads_ready = false → s'.g_thread_queue.length = n → _
    rw [F.ready, F.threads]
    intro hready hlen
    obtain ⟨u, hu⟩ := I.full hready hlen
    by_cases hut : u = t
    · subst hut
      rcases hbarrier hu with h | h
      · rw [hready] at h; cases h
      · exact absurd hlen h
    · exact ⟨u, (hothers u hut).trans hu⟩
  · show ∃ rest, s'.g_thread_queue = u :: rest
    rw [F.threads]
    by_cases hut : u = t
    · subst hut; exact absurd (hself.symm.trans hu) hpc
    · exact I.head u ((hothers u hut).symm.trans hu)
  · have hterm : ∀ u, (s.thread u).terminated = true →
        ((s'.goto t pc).thread u).terminated = true := by
      intro u hu
      by_cases hut : u = t
      · subst hut; rw [hlive] at hu; cases hu
      · rw [hothers u hut]; exact hu
    have h := I.main
    unfold MainKnows at h ⊢
    show match s'.main with
      | .readCounts => s'.g_all_threads_ready = true
      | .readFailed => ¬(s'.g_dir_queue = [] ∧ s'.g_thread_queue.length + s'.g_failed_threads = n)
      | .waiting => ¬(s'.g_dir_queue = [] ∧ s'.g_thread_queue.length + s'.g_failed_threads = n) ∧
          s'.g_failed_threads ≠ n
      | .join i => ∀ u : Fin n, u.val < i → ((s'.goto t pc).thread u).terminated = true
      | .done => ∀ u, ((s'.goto t pc).thread u).terminated = true
      | _ => True
    rw [F.main, F.ready, F.dirs, F.threads, F.failed]
    cases hmain : s.main <;> rw [hmain] at h <;> first | exact h | skip
    · exact fun u hu => hterm u (h u hu)
    · exact fun u => hterm u (h u)

end OSCourse.Pfind
