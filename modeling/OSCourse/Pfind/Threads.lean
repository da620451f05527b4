import OSCourse.Lib.Run
import OSCourse.Pfind.FileSystem

/-!
# The threads of `pfind.c`

`main` and `n` searching threads, each at a program point, share the globals.  A step runs from one
point to the next: it takes one mutex, tests one condition, or does the work of a critical section
that no other party can see half done.  Every access to a variable that another party may touch at
the same time is a step of its own.

* `Search.threadNext`, `Search.mainNext` — the steps; a party that waits for a mutex or for a signal
  has none.
* `Search.threadFault` — the step in which a system call of the thread fails.
* `Search.threadSpurious`, `Search.mainSpurious` — returns of `pthread_cond_wait` without a signal.
* `Event` — what is printed and what becomes of the directories, kept in `trace`, latest first.

`next` and `prev` of the queue entries are not kept: a queue is the list of its entries from the
head on, entries are put in at the head and taken out at the tail.

Left out: a string that runs over its buffer of `PATH_MAX` bytes (`Pfind.Buffers` tells which do), a
tree that changes during the search, and what another thread could see between the `printf` of a match
and `g_files_found++`, which are one step.
-/

set_option autoImplicit false

namespace OSCourse.Pfind

open Transition

/-- Where a searching thread is. -/
inductive ThreadPc where
  /-- `wait_for_start`: before `lock(search_mutex)` -/
  | start
  /-- `wait_for_start`: `while (!g_is_search)` -/
  | testStart
  /-- `wait_for_start`: waits on `search_cv` -/
  | waitStart
  /-- `wait_for_start`: signalled, takes `search_mutex` again -/
  | wakeStart
  /-- before the `malloc` of `thread_entry` -/
  | malloc
  /-- before `lock(queue_mutex)` -/
  | lockQueue
  /-- `while (should_thread_sleep(..))` -/
  | testSleep
  /-- before `lock(finish_mutex)` -/
  | lockFinish
  /-- puts itself into the thread queue and signals `finish_cv` -/
  | enqueue
  /-- `if (!g_all_threads_ready && ..)`, up to the wait -/
  | barrier
  /-- waits on its own `queue_cv` -/
  | sleep
  /-- signalled, takes `queue_mutex` again -/
  | wake
  /-- `if (!g_is_search)` -/
  | testSearch
  /-- takes the directory it was given, or one from the queue -/
  | take
  /-- `open_dir_and_check` -/
  | openDir (removed_entry : DirQueueEntry)
  /-- `iterate_in_directory`, with the names still to read -/
  | iterate (removed_entry : DirQueueEntry) (names : List Name)
  /-- before `lock(queue_mutex)` in it -/
  | lockGive (removed_entry : DirQueueEntry) (child : DirQueueEntry) (names : List Name)
  /-- gives `child` to a sleeping thread or to the queue -/
  | give (removed_entry : DirQueueEntry) (child : DirQueueEntry) (names : List Name)
  /-- `thread_exit_on_error`: before `lock(finish_mutex)`; `queue` tells that `queue_mutex` is held -/
  | lockFail (queue : Bool)
  /-- `thread_exit_on_error`: counts itself -/
  | fail (queue : Bool)
  /-- `pthread_exit((void *)FAILURE)` -/
  | failed (queue : Bool)
  /-- `pthread_exit((void *)SUCCESS)` -/
  | exited
  deriving DecidableEq, Repr

/-- Where `main` is, after `main_init`. -/
inductive MainPc where
  /-- before `lock(search_mutex)` -/
  | lockSearch
  /-- raises `g_is_search` -/
  | raise
  /-- before `lock(finish_mutex)` -/
  | lockFinish
  /-- `is_dir_queue_empty()` in the condition of its wait loop -/
  | readDirs
  /-- `(g_thread_queue.count + g_failed_threads) == g_threads_num` -/
  | readCounts
  /-- `g_failed_threads != g_threads_num` -/
  | readFailed
  /-- waits on `finish_cv` -/
  | waiting
  /-- signalled, takes `finish_mutex` again -/
  | waking
  /-- out of the wait loop: lowers `g_is_search` -/
  | stopSearch
  /-- before `lock(queue_mutex)` -/
  | lockQueue
  /-- signals all threads and unlocks both mutexes -/
  | signalAll
  /-- `pthread_join` of the thread `i` -/
  | join (i : Nat)
  | done
  deriving DecidableEq, Repr

/-- Who can hold a mutex. -/
inductive Proc (n : Nat) where
  | main
  | thread (t : Fin n)
  deriving DecidableEq, Repr

inductive Event (n : Nat) where
  | found (path : Path)
  | denied (path : Path)
  /-- put into `g_dir_queue` or handed to a thread -/
  | given (d : DirQueueEntry)
  /-- iterated to its end by the thread -/
  | iterated (t : Fin n) (d : DirQueueEntry)
  /-- a thread failed on it -/
  | failedOn (d : DirQueueEntry)
  deriving DecidableEq, Repr

/-- The globals, the `dir_to_handle` of each thread's entry, and the program points. -/
structure Search (n : Nat) where
  g_is_search : Bool
  g_all_threads_ready : Bool
  g_files_found : BitVec 32
  g_failed_threads : Nat
  g_dir_queue : List DirQueueEntry
  g_thread_queue : List (Fin n)
  dir_to_handle : Fin n → Option DirQueueEntry
  search_mutex : Option (Proc n)
  finish_mutex : Option (Proc n)
  queue_mutex : Option (Proc n)
  thread : Fin n → ThreadPc
  main : MainPc
  trace : List (Event n)

/-- The state after `main_init`, with the root directory in the queue. -/
def Search.init (n : Nat) (root : Path) : Search n where
  g_is_search := false
  g_all_threads_ready := false
  g_files_found := 0
  g_failed_threads := 0
  g_dir_queue := [⟨root, root⟩]
  g_thread_queue := []
  dir_to_handle := fun _ => none
  search_mutex := none
  finish_mutex := none
  queue_mutex := none
  thread := fun _ => .start
  main := .lockSearch
  trace := [.given ⟨root, root⟩]

/-- What `main` sets up for an existing root directory; `none` if it cannot be searched. -/
def Search.start (fs : FileSys) (n : Nat) (root : Path) : Option (Search n) :=
  if isSearchable fs root then some (.init n root) else none

/-! ## Queues and signals -/

/-- `dir_dequeue`, `thread_dequeue`: the entry at the tail, and the queue without it. -/
def dequeue {α : Type} (queue : List α) : Option (α × List α) :=
  queue.getLast?.map fun removed_entry => (removed_entry, queue.dropLast)

theorem dequeue_eq_some {α : Type} {l queue : List α} {x : α} (h : dequeue l = some (x, queue)) :
    l = queue ++ [x] := by
  unfold dequeue at h
  obtain ⟨y, hy, heq⟩ := Option.map_eq_some_iff.1 h
  cases heq
  obtain ⟨front, rfl⟩ := List.getLast?_eq_some_iff.1 hy
  simp

theorem dequeue_eq_none {α : Type} {l : List α} : dequeue l = none ↔ l = [] := by
  simp [dequeue]

variable {n : Nat}

/-- The thread `t` goes to `pc`. -/
def Search.goto (s : Search n) (t : Fin n) (pc : ThreadPc) : Search n :=
  { s with thread := Function.update s.thread t pc }

/-- A signal on the thread's `queue_cv` wakes it only if it waits there. -/
def ThreadPc.signalled : ThreadPc → ThreadPc
  | .sleep => .wake
  | pc => pc

/-- A signal on `search_cv`. -/
def ThreadPc.broadcast : ThreadPc → ThreadPc
  | .waitStart => .wakeStart
  | pc => pc

/-- A signal on `finish_cv`. -/
def MainPc.signalled : MainPc → MainPc
  | .waiting => .waking
  | pc => pc

/-- `pthread_cond_signal(&queue_cv[t])`. -/
def Search.signalThread (s : Search n) (t : Fin n) : Search n := s.goto t (s.thread t).signalled

/-- `pthread_cond_signal(&finish_cv)`. -/
def Search.signalMain (s : Search n) : Search n := { s with main := s.main.signalled }

/-- `should_thread_sleep`. -/
def shouldThreadSleep (s : Search n) (t : Fin n) : Bool :=
  if s.g_is_search then
    !s.g_all_threads_ready || (s.g_dir_queue.isEmpty && (s.dir_to_handle t).isNone)
  else false

/-- The body of `thread_enqueue` for the entry of `t`, unless it is in the queue. -/
def Search.threadEnqueue (s : Search n) (t : Fin n) : Search n :=
  if t ∈ s.g_thread_queue then s
  else { s with
    g_thread_queue := t :: s.g_thread_queue
    dir_to_handle := Function.update s.dir_to_handle t none }

/-! ## The steps of a searching thread -/

/-- The section after `thread_enqueue`, which ends in a wait or in `continue`. -/
def Search.passBarrier (s : Search n) (t : Fin n) : Option (Search n) :=
  if s.g_all_threads_ready = false ∧ s.g_thread_queue.length = n then
    match dequeue s.g_thread_queue with
    | none => none
    | some (thread, queue) =>
      let s := { s with g_all_threads_ready := true, g_thread_queue := queue }
      if n ≠ 1 then some ({ s.signalThread thread with queue_mutex := none }.goto t .sleep)
      else some (s.goto t .testSleep)
  else some ({ s with queue_mutex := none }.goto t .sleep)

/-- A directory goes to the thread that sleeps longest, else to the queue. -/
def Search.giveDir (s : Search n) (child : DirQueueEntry) : Search n :=
  let s := { s with trace := .given child :: s.trace }
  match dequeue s.g_thread_queue with
  | some (thread, queue) =>
    Search.signalThread { s with
      g_thread_queue := queue
      dir_to_handle := Function.update s.dir_to_handle thread (some child) } thread
  | none => { s with g_dir_queue := child :: s.g_dir_queue }

/-- The step of the searching thread `t` in which every call succeeds. -/
def Search.threadNext (fs : FileSys) (g_search_term : List UInt8) (s : Search n) (t : Fin n) :
    Option (Search n) :=
  match s.thread t with
  | .start | .wakeStart =>
    if s.search_mutex = none then
      some ({ s with search_mutex := some (.thread t) }.goto t .testStart)
    else none
  | .testStart =>
    if s.g_is_search then some ({ s with search_mutex := none }.goto t .malloc)
    else some ({ s with search_mutex := none }.goto t .waitStart)
  | .malloc => some (s.goto t .lockQueue)
  | .lockQueue | .wake =>
    if s.queue_mutex = none then
      some ({ s with queue_mutex := some (.thread t) }.goto t .testSleep)
    else none
  | .testSleep =>
    if shouldThreadSleep s t then some (s.goto t .lockFinish) else some (s.goto t .testSearch)
  | .lockFinish =>
    if s.finish_mutex = none then
      some ({ s with finish_mutex := some (.thread t) }.goto t .enqueue)
    else none
  | .enqueue => some ({ (s.threadEnqueue t).signalMain with finish_mutex := none }.goto t .barrier)
  | .barrier => s.passBarrier t
  | .testSearch =>
    if s.g_is_search then some (s.goto t .take)
    else some ({ s with queue_mutex := none }.goto t .exited)
  | .take =>
    match s.dir_to_handle t with
    | some d => some ({ s with queue_mutex := none }.goto t (.openDir d))
    | none =>
      match dequeue s.g_dir_queue with
      | some (d, queue) =>
        some ({ s with g_dir_queue := queue, queue_mutex := none }.goto t (.openDir d))
      | none => none
  | .openDir d => some (s.goto t (.iterate d (fs.readdir d.path_name)))
  | .iterate d names =>
    match names with
    | [] =>
      some ({ s with
        dir_to_handle := Function.update s.dir_to_handle t none
        trace := .iterated t d :: s.trace }.goto t .lockQueue)
    | d_name :: names =>
      match visit fs g_search_term d d_name with
      | .skip => some (s.goto t (.iterate d names))
      | .found path =>
        some ({ s with g_files_found := s.g_files_found + 1, trace := .found path :: s.trace }.goto t
          (.iterate d names))
      | .denied path => some ({ s with trace := .denied path :: s.trace }.goto t (.iterate d names))
      | .give child => some (s.goto t (.lockGive d child names))
  | .lockGive d child names =>
    if s.queue_mutex = none then
      some ({ s with queue_mutex := some (.thread t) }.goto t (.give d child names))
    else none
  | .give d child names =>
    some ({ s.giveDir child with queue_mutex := none }.goto t (.iterate d names))
  | .lockFail queue =>
    if s.finish_mutex = none then
      some ({ s with finish_mutex := some (.thread t) }.goto t (.fail queue))
    else none
  | .fail queue =>
    some ({ Search.signalMain { s with g_failed_threads := s.g_failed_threads + 1 } with
      finish_mutex := none }.goto t (.failed queue))
  | .waitStart | .sleep | .failed _ | .exited => none

/-- The calls of the code of a searching thread that can fail. -/
inductive Fault where
  /-- `stat` or `opendir` -/
  | fileSystem
  /-- the `malloc` of `thread_entry` -/
  | threadEntry
  /-- the `malloc` of `dir_enqueue` -/
  | dirEntry
  deriving DecidableEq, Repr

/-- The step of `t` in which its next call fails, which starts `thread_exit_on_error`. -/
def Search.threadFault (s : Search n) (t : Fin n) : Fault → Option (Search n)
  | .threadEntry =>
    match s.thread t with
    | .malloc => some (s.goto t (.lockFail false))
    | _ => none
  | .fileSystem =>
    match s.thread t with
    | .openDir d => some ({ s with trace := .failedOn d :: s.trace }.goto t (.lockFail false))
    | .iterate d (d_name :: _) =>
      if isDotFolder d_name then none
      else some ({ s with trace := .failedOn d :: s.trace }.goto t (.lockFail false))
    | _ => none
  | .dirEntry =>
    match s.thread t with
    | .give d _ _ =>
      if s.g_thread_queue = [] then
        some ({ s with trace := .failedOn d :: s.trace }.goto t (.lockFail true))
      else none
    | _ => none

/-- `pthread_cond_wait` of `t` returns without a signal. -/
def Search.threadSpurious (s : Search n) (t : Fin n) : Option (Search n) :=
  match s.thread t with
  | .waitStart => some (s.goto t .wakeStart)
  | .sleep => some (s.goto t .wake)
  | _ => none

/-! ## The steps of `main` -/

def ThreadPc.terminated : ThreadPc → Bool
  | .failed _ | .exited => true
  | _ => false

/-- The step of `main`. -/
def Search.mainNext (s : Search n) : Option (Search n) :=
  match s.main with
  | .lockSearch =>
    if s.search_mutex = none then some { s with search_mutex := some .main, main := .raise } else none
  | .raise =>
    some { s with
      g_is_search := true
      search_mutex := none
      thread := fun t => (s.thread t).broadcast
      main := .lockFinish }
  | .lockFinish | .waking =>
    if s.finish_mutex = none then some { s with finish_mutex := some .main, main := .readDirs }
    else none
  | .readDirs =>
    if s.g_dir_queue = [] then some { s with main := .readCounts }
    else some { s with main := .readFailed }
  | .readCounts =>
    if s.g_thread_queue.length + s.g_failed_threads = n then some { s with main := .stopSearch }
    else some { s with main := .readFailed }
  | .readFailed =>
    if s.g_failed_threads ≠ n then some { s with finish_mutex := none, main := .waiting }
    else some { s with main := .stopSearch }
  | .stopSearch => some { s with g_is_search := false, main := .lockQueue }
  | .lockQueue =>
    if s.queue_mutex = none then some { s with queue_mutex := some .main, main := .signalAll }
    else none
  | .signalAll =>
    some { s with
      thread := fun t => (s.thread t).signalled
      queue_mutex := none
      finish_mutex := none
      main := .join 0 }
  | .join i =>
    if h : i < n then
      if (s.thread ⟨i, h⟩).terminated then some { s with main := .join (i + 1) } else none
    else some { s with main := .done }
  | .waiting | .done => none

/-- `pthread_cond_wait` of `main` returns without a signal. -/
def Search.mainSpurious (s : Search n) : Option (Search n) :=
  match s.main with
  | .waiting => some { s with main := .waking }
  | _ => none

/-! ## Runs -/

inductive Action (n : Nat) where
  | main
  | thread (t : Fin n)
  | fault (t : Fin n) (f : Fault)
  | mainSpurious
  | threadSpurious (t : Fin n)
  deriving DecidableEq, Repr

def Search.next (fs : FileSys) (g_search_term : List UInt8) (s : Search n) :
    Action n → Option (Search n)
  | .main => s.mainNext
  | .thread t => s.threadNext fs g_search_term t
  | .fault t f => s.threadFault t f
  | .mainSpurious => s.mainSpurious
  | .threadSpurious t => s.threadSpurious t

/-- One step of the search. -/
def SearchStep (fs : FileSys) (g_search_term : List UInt8) (s : Search n) (a : Action n)
    (s' : Search n) : Prop :=
  s.next fs g_search_term a = some s'

theorem searchStep_det {fs : FileSys} {g_search_term : List UInt8} (s : Search n) (a : Action n)
    (s₁ s₂ : Search n) (h₁ : SearchStep fs g_search_term s a s₁)
    (h₂ : SearchStep fs g_search_term s a s₂) : s₁ = s₂ :=
  Option.some.inj (h₁.symm.trans h₂)

-- the thread 0 of a search of one or two threads
scoped instance neZero_one : NeZero 1 := ⟨Nat.one_ne_zero⟩
scoped instance neZero_two : NeZero 2 := ⟨Nat.succ_ne_zero 1⟩

/-- `k` steps of the thread `t`. -/
def turns (k : Nat) (t : Fin n) : List (Action n) := List.replicate k (.thread t)

/-- A run to a state with a given property. -/
theorem run_of_exec {fs : FileSys} {g_search_term : List UInt8} {s₀ : Search n}
    {h : List (Action n)} {p : Search n → Bool}
    (he : (Run.exec (Search.next fs g_search_term) s₀ h).any p = true) :
    ∃ s, Run (SearchStep fs g_search_term) s₀ h s ∧ p s = true :=
  Run.of_exec_any (fun _ _ _ hs => hs) he

/-- The same for a run whose steps all meet a condition. -/
theorem runOn_of_exec {fs : FileSys} {g_search_term : List UInt8} {s₀ : Search n}
    {Q : Search n → Action n → Prop} [∀ s a, Decidable (Q s a)] {h : List (Action n)}
    {p : Search n → Bool} (he : (Run.execOn (Search.next fs g_search_term) Q s₀ h).any p = true) :
    ∃ s, Run (SearchStep fs g_search_term) s₀ h s ∧
      Run.EachStep (SearchStep fs g_search_term) s₀ Q h ∧ p s = true :=
  Run.of_execOn_any (fun _ _ _ hs => hs) searchStep_det he

end OSCourse.Pfind
