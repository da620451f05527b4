import OSCourse.Pfind.Threads

/-!
# What the steps of `pfind.c` do

One case for each way through the code between two program points, with the tests that lead there.

* `ThreadMove`, `FaultMove`, `MainMove` — the steps of a searching thread, those in which one of its
  calls fails, and those of `main`; `threadMove`, `faultMove` and `mainMove` say that there are no
  others.
* `BarrierMove`, `giveDir_cases` — the sections that move a thread out of the thread queue.
* `MainFrame` — what a step of `main` leaves as it is.
-/

set_option autoImplicit false

namespace OSCourse.Pfind

variable {n : Nat} {fs : FileSys} {g_search_term : List UInt8} {s s' : Search n} {t : Fin n}

/-! ## A searching thread -/

inductive ThreadMove (fs : FileSys) (g_search_term : List UInt8) (s : Search n) (t : Fin n) :
    Search n → Prop
  | lockSearch : s.thread t = .start → s.search_mutex = none →
      ThreadMove fs g_search_term s t ({ s with search_mutex := some (.thread t) }.goto t .testStart)
  | wakeStart : s.thread t = .wakeStart → s.search_mutex = none →
      ThreadMove fs g_search_term s t ({ s with search_mutex := some (.thread t) }.goto t .testStart)
  | started : s.thread t = .testStart → s.g_is_search = true →
      ThreadMove fs g_search_term s t ({ s with search_mutex := none }.goto t .malloc)
  | waitStart : s.thread t = .testStart → s.g_is_search ≠ true →
      ThreadMove fs g_search_term s t ({ s with search_mutex := none }.goto t .waitStart)
  | malloc : s.thread t = .malloc → ThreadMove fs g_search_term s t (s.goto t .lockQueue)
  | lockQueue : s.thread t = .lockQueue → s.queue_mutex = none →
      ThreadMove fs g_search_term s t ({ s with queue_mutex := some (.thread t) }.goto t .testSleep)
  | wake : s.thread t = .wake → s.queue_mutex = none →
      ThreadMove fs g_search_term s t ({ s with queue_mutex := some (.thread t) }.goto t .testSleep)
  | idle : s.thread t = .testSleep → shouldThreadSleep s t = true →
      ThreadMove fs g_search_term s t (s.goto t .lockFinish)
  | busy : s.thread t = .testSleep → shouldThreadSleep s t ≠ true →
      ThreadMove fs g_search_term s t (s.goto t .testSearch)
  | lockFinish : s.thread t = .lockFinish → s.finish_mutex = none →
      ThreadMove fs g_search_term s t ({ s with finish_mutex := some (.thread t) }.goto t .enqueue)
  | enqueue : s.thread t = .enqueue → ThreadMove fs g_search_term s t
      ({ (s.threadEnqueue t).signalMain with finish_mutex := none }.goto t .barrier)
  | barrier {s' : Search n} : s.thread t = .barrier → s.passBarrier t = some s' →
      ThreadMove fs g_search_term s t s'
  | search : s.thread t = .testSearch → s.g_is_search = true →
      ThreadMove fs g_search_term s t (s.goto t .take)
  | exit : s.thread t = .testSearch → s.g_is_search ≠ true →
      ThreadMove fs g_search_term s t ({ s with queue_mutex := none }.goto t .exited)
  | takeOwn {d : DirQueueEntry} : s.thread t = .take → s.dir_to_handle t = some d →
      ThreadMove fs g_search_term s t ({ s with queue_mutex := none }.goto t (.openDir d))
  | takeNext {d : DirQueueEntry} {queue : List DirQueueEntry} : s.thread t = .take →
      s.dir_to_handle t = none → s.g_dir_queue = queue ++ [d] → ThreadMove fs g_search_term s t
        ({ s with g_dir_queue := queue, queue_mutex := none }.goto t (.openDir d))
  | openDir {d : DirQueueEntry} : s.thread t = .openDir d →
      ThreadMove fs g_search_term s t (s.goto t (.iterate d (fs.readdir d.path_name)))
  | closeDir {d : DirQueueEntry} : s.thread t = .iterate d [] → ThreadMove fs g_search_term s t
      ({ s with
        dir_to_handle := Function.update s.dir_to_handle t none
        trace := .iterated t d :: s.trace }.goto t .lockQueue)
  | skip {d : DirQueueEntry} {d_name : Name} {names : List Name} :
      s.thread t = .iterate d (d_name :: names) → visit fs g_search_term d d_name = .skip →
      ThreadMove fs g_search_term s t (s.goto t (.iterate d names))
  | found {d : DirQueueEntry} {d_name : Name} {names : List Name} {path : Path} :
      s.thread t = .iterate d (d_name :: names) → visit fs g_search_term d d_name = .found path →
      ThreadMove fs g_search_term s t
        ({ s with g_files_found := s.g_files_found + 1, trace := .found path :: s.trace }.goto t
          (.iterate d names))
  | denied {d : DirQueueEntry} {d_name : Name} {names : List Name} {path : Path} :
      s.thread t = .iterate d (d_name :: names) → visit fs g_search_term d d_name = .denied path →
      ThreadMove fs g_search_term s t
        ({ s with trace := .denied path :: s.trace }.goto t (.iterate d names))
  | folder {d child : DirQueueEntry} {d_name : Name} {names : List Name} :
      s.thread t = .iterate d (d_name :: names) → visit fs g_search_term d d_name = .give child →
      ThreadMove fs g_search_term s t (s.goto t (.lockGive d child names))
  | lockGive {d child : DirQueueEntry} {names : List Name} :
      s.thread t = .lockGive d child names → s.queue_mutex = none → ThreadMove fs g_search_term s t
        ({ s with queue_mutex := some (.thread t) }.goto t (.give d child names))
  | give {d child : DirQueueEntry} {names : List Name} : s.thread t = .give d child names →
      ThreadMove fs g_search_term s t
        ({ s.giveDir child with queue_mutex := none }.goto t (.iterate d names))
  | lockFail {queue : Bool} : s.thread t = .lockFail queue → s.finish_mutex = none →
      ThreadMove fs g_search_term s t
        ({ s with finish_mutex := some (.thread t) }.goto t (.fail queue))
  | fail {queue : Bool} : s.thread t = .fail queue → ThreadMove fs g_search_term s t
      ({ Search.signalMain { s with g_failed_threads := s.g_failed_threads + 1 } with
        finish_mutex := none }.goto t (.failed queue))

/-- **Every step of a searching thread is one of these.** -/
theorem threadMove (hs : s.threadNext fs g_search_term t = some s') :
    ThreadMove fs g_search_term s t s' := by
  unfold Search.threadNext at hs
  split at hs
  all_goals rename_i hpc
  · split at hs <;> cases hs
    exact .lockSearch hpc ‹_›
  · split at hs <;> cases hs
    exact .wakeStart hpc ‹_›
  · split at hs <;> cases hs
    · exact .started hpc ‹_›
    · exact .waitStart hpc ‹_›
  · cases hs
    exact .malloc hpc
  · split at hs <;> cases hs
    exact .lockQueue hpc ‹_›
  · split at hs <;> cases hs
    exact .wake hpc ‹_›
  · split at hs <;> cases hs
    · exact .idle hpc ‹_›
    · exact .busy hpc ‹_›
  · split at hs <;> cases hs
    exact .lockFinish hpc ‹_›
  · cases hs
    exact .enqueue hpc
  · exact .barrier hpc hs
  · split at hs <;> cases hs
    · exact .search hpc ‹_›
    · exact .exit hpc ‹_›
  · split at hs
    · cases hs
      exact .takeOwn hpc ‹_›
    · split at hs <;> cases hs
      rename_i hown _ _ _ hdeq
      exact .takeNext hpc hown (dequeue_eq_some hdeq)
  · cases hs
    exact .openDir hpc
  · split at hs
    · cases hs
      exact .closeDir hpc
    · split at hs <;> cases hs
      · exact .skip hpc ‹_›
      · exact .found hpc ‹_›
      · exact .denied hpc ‹_›
      · exact .folder hpc ‹_›
  · split at hs <;> cases hs
    exact .lockGive hpc ‹_›
  · cases hs
    exact .give hpc
  · split at hs <;> cases hs
    exact .lockFail hpc ‹_›
  · cases hs
    exact .fail hpc
  all_goals cases hs

/-- The section after `thread_enqueue`: all threads are in the queue for the first time, of one or of
several, or the thread goes to sleep. -/
inductive BarrierMove (s : Search n) (t : Fin n) : Search n → Prop
  | launch (thread : Fin n) (queue : List (Fin n)) : s.g_all_threads_ready = false →
      s.g_thread_queue.length = n → s.g_thread_queue = queue ++ [thread] → n ≠ 1 →
      BarrierMove s t ((Search.signalThread { s with
        g_all_threads_ready := true
        g_thread_queue := queue
        queue_mutex := none } thread).goto t .sleep)
  | alone (thread : Fin n) (queue : List (Fin n)) : s.g_all_threads_ready = false →
      s.g_thread_queue.length = n → s.g_thread_queue = queue ++ [thread] → n = 1 →
      BarrierMove s t ({ s with
        g_all_threads_ready := true
        g_thread_queue := queue }.goto t .testSleep)
  | sleep : ¬(s.g_all_threads_ready = false ∧ s.g_thread_queue.length = n) →
      BarrierMove s t ({ s with queue_mutex := none }.goto t .sleep)

theorem barrierMove (hs : s.passBarrier t = some s') : BarrierMove s t s' := by
  unfold Search.passBarrier at hs
  split at hs
  · rename_i hall
    split at hs
    · cases hs
    · rename_i hdeq
      simp only at hs
      split at hs <;> cases hs
      · exact .launch _ _ hall.1 hall.2 (dequeue_eq_some hdeq) ‹_›
      · exact .alone _ _ hall.1 hall.2 (dequeue_eq_some hdeq) (not_not.1 ‹_›)
  · cases hs
    exact .sleep ‹_›

/-- A directory is handed to the thread at the tail of the queue, or put into its own queue. -/
theorem giveDir_cases (s : Search n) (child : DirQueueEntry) :
    (∃ thread queue, s.g_thread_queue = queue ++ [thread] ∧ s.giveDir child = Search.signalThread
      { s with
        trace := .given child :: s.trace
        g_thread_queue := queue
        dir_to_handle := Function.update s.dir_to_handle thread (some child) } thread) ∨
    s.g_thread_queue = [] ∧ s.giveDir child = { s with
      trace := .given child :: s.trace
      g_dir_queue := child :: s.g_dir_queue } := by
  unfold Search.giveDir
  simp only
  split
  · exact .inl ⟨_, _, dequeue_eq_some ‹_›, rfl⟩
  · exact .inr ⟨dequeue_eq_none.1 ‹_›, rfl⟩

/-! ## Failing calls and returns without a signal -/

inductive FaultMove (s : Search n) (t : Fin n) : Fault → Search n → Prop
  | malloc : s.thread t = .malloc → FaultMove s t .threadEntry (s.goto t (.lockFail false))
  | openDir {d : DirQueueEntry} : s.thread t = .openDir d → FaultMove s t .fileSystem
      ({ s with trace := .failedOn d :: s.trace }.goto t (.lockFail false))
  | stat {d : DirQueueEntry} {d_name : Name} {names : List Name} :
      s.thread t = .iterate d (d_name :: names) → isDotFolder d_name ≠ true →
      FaultMove s t .fileSystem
        ({ s with trace := .failedOn d :: s.trace }.goto t (.lockFail false))
  | give {d child : DirQueueEntry} {names : List Name} : s.thread t = .give d child names →
      s.g_thread_queue = [] → FaultMove s t .dirEntry
        ({ s with trace := .failedOn d :: s.trace }.goto t (.lockFail true))

/-- **Every failing step of a searching thread is one of these.** -/
theorem faultMove {f : Fault} (hs : s.threadFault t f = some s') : FaultMove s t f s' := by
  unfold Search.threadFault at hs
  split at hs
  · split at hs <;> cases hs
    exact .malloc ‹_›
  · split at hs
    · cases hs
      exact .openDir ‹_›
    · split at hs <;> cases hs
      exact .stat ‹_› ‹_›
    · cases hs
  · split at hs
    · split at hs <;> cases hs
      exact .give ‹_› ‹_›
    · cases hs

theorem threadSpurious_cases (hs : s.threadSpurious t = some s') :
    s.thread t = .waitStart ∧ s' = s.goto t .wakeStart ∨ s.thread t = .sleep ∧ s' = s.goto t .wake := by
  unfold Search.threadSpurious at hs
  split at hs <;> cases hs
  · exact .inl ⟨‹_›, rfl⟩
  · exact .inr ⟨‹_›, rfl⟩

/-! ## `main` -/

inductive MainMove (s : Search n) : Search n → Prop
  | lockSearch : s.main = .lockSearch → s.search_mutex = none →
      MainMove s { s with search_mutex := some .main, main := .raise }
  | raise : s.main = .raise → MainMove s { s with
      g_is_search := true
      search_mutex := none
      thread := fun t => (s.thread t).broadcast
      main := .lockFinish }
  | lockFinish : s.main = .lockFinish → s.finish_mutex = none →
      MainMove s { s with finish_mutex := some .main, main := .readDirs }
  | wake : s.main = .waking → s.finish_mutex = none →
      MainMove s { s with finish_mutex := some .main, main := .readDirs }
  | noDirs : s.main = .readDirs → s.g_dir_queue = [] → MainMove s { s with main := .readCounts }
  | dirs : s.main = .readDirs → s.g_dir_queue ≠ [] → MainMove s { s with main := .readFailed }
  | allIdle : s.main = .readCounts → s.g_thread_queue.length + s.g_failed_threads = n →
      MainMove s { s with main := .stopSearch }
  | someBusy : s.main = .readCounts → s.g_thread_queue.length + s.g_failed_threads ≠ n →
      MainMove s { s with main := .readFailed }
  | wait : s.main = .readFailed → s.g_failed_threads ≠ n →
      MainMove s { s with finish_mutex := none, main := .waiting }
  | allFailed : s.main = .readFailed → s.g_failed_threads = n →
      MainMove s { s with main := .stopSearch }
  | stopSearch : s.main = .stopSearch →
      MainMove s { s with g_is_search := false, main := .lockQueue }
  | lockQueue : s.main = .lockQueue → s.queue_mutex = none →
      MainMove s { s with queue_mutex := some .main, main := .signalAll }
  | signalAll : s.main = .signalAll → MainMove s { s with
      thread := fun t => (s.thread t).signalled
      queue_mutex := none
      finish_mutex := none
      main := .join 0 }
  | join {i : Nat} (hi : i < n) : s.main = .join i → (s.thread ⟨i, hi⟩).terminated = true →
      MainMove s { s with main := .join (i + 1) }
  | joined {i : Nat} : s.main = .join i → ¬i < n → MainMove s { s with main := .done }

/-- **Every step of `main` is one of these.** -/
theorem mainMove (hs : s.mainNext = some s') : MainMove s s' := by
  unfold Search.mainNext at hs
  split at hs
  all_goals rename_i hpc
  · split at hs <;> cases hs
    exact .lockSearch hpc ‹_›
  · cases hs
    exact .raise hpc
  · split at hs <;> cases hs
    exact .lockFinish hpc ‹_›
  · split at hs <;> cases hs
    exact .wake hpc ‹_›
  · split at hs <;> cases hs
    · exact .noDirs hpc ‹_›
    · exact .dirs hpc ‹_›
  · split at hs <;> cases hs
    · exact .allIdle hpc ‹_›
    · exact .someBusy hpc ‹_›
  · split at hs <;> cases hs
    · exact .wait hpc ‹_›
    · exact .allFailed hpc (not_not.1 ‹_›)
  · cases hs
    exact .stopSearch hpc
  · split at hs <;> cases hs
    exact .lockQueue hpc ‹_›
  · cases hs
    exact .signalAll hpc
  · split at hs
    · split at hs <;> cases hs
      exact .join ‹_› hpc ‹_›
    · cases hs
      exact .joined hpc ‹_›
  all_goals cases hs

theorem mainSpurious_cases (hs : s.mainSpurious = some s') :
    s.main = .waiting ∧ s' = { s with main := .waking } := by
  unfold Search.mainSpurious at hs
  split at hs <;> cases hs
  exact ⟨‹_›, rfl⟩

/-- What a step of `main` can do to the threads, and what it leaves as it is. -/
structure MainFrame (s s' : Search n) : Prop where
  thread : (∀ t, s'.thread t = s.thread t) ∨ (∀ t, s'.thread t = (s.thread t).broadcast) ∨
    ∀ t, s'.thread t = (s.thread t).signalled
  ready : s'.g_all_threads_ready = s.g_all_threads_ready
  files : s'.g_files_found = s.g_files_found
  dirs : s'.g_dir_queue = s.g_dir_queue
  dir : s'.dir_to_handle = s.dir_to_handle
  trace : s'.trace = s.trace

theorem mainFrame (hs : s.mainNext = some s') : MainFrame s s' := by
  cases mainMove hs with
  | raise => exact ⟨.inr (.inl fun _ => rfl), rfl, rfl, rfl, rfl, rfl⟩
  | signalAll => exact ⟨.inr (.inr fun _ => rfl), rfl, rfl, rfl, rfl, rfl⟩
  | _ => exact ⟨.inl fun _ => rfl, rfl, rfl, rfl, rfl, rfl⟩

end OSCourse.Pfind
