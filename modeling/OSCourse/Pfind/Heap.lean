import OSCourse.Pfind.Queues

/-!
# `pfind.c` with its pointers and its memory

The steps of `Pfind.Threads` on the data that the code really has: both queues are linked through
their entries, a thread holds the address of the directory entry it works on and reads the path from
there, `malloc` hands out entries and `free` takes them back.  An address is any `P`; the memory of an
entry that `malloc` returns holds anything, so does the memory of a `thread_queue_entry_t` until the
thread writes to it.

* `HeapPc` — the program points of `ThreadPc`, with addresses.
* `HeapSearch.next` — the steps.  A step that follows NULL or the address of an entry that is not
  allocated, frees such an entry, or signals a condition variable that does not exist, is a `crash`.
-/

set_option autoImplicit false

namespace OSCourse.Pfind

open Transition LinkedQueue

/-! ## States -/

/-- Where a searching thread is; the points are those of `ThreadPc`. -/
inductive HeapPc (P : Type) where
  | start
  | testStart
  | waitStart
  | wakeStart
  | malloc
  | lockQueue
  | testSleep
  | lockFinish
  | enqueue
  | barrier
  | sleep
  | wake
  | testSearch
  | take
  | openDir (removed_dir_entry : P)
  | iterate (removed_entry : P) (names : List Name)
  /-- with the strings `new_pathname` and `curr_entry->d_name` -/
  | lockGive (removed_entry : P) (child : DirQueueEntry) (names : List Name)
  | give (removed_entry : P) (child : DirQueueEntry) (names : List Name)
  | lockFail (queue : Bool)
  | fail (queue : Bool)
  | failed (queue : Bool)
  | exited

/-- The memory that the pointers lead to. -/
structure Heap (n : Nat) (P : Type) where
  g_dir_queue : DirQueue P
  g_thread_queue : ThreadQueue n P
  /-- the directory entries that `malloc` has returned and that have not been freed -/
  allocated : P → Bool

structure HeapSearch (n : Nat) (P : Type) extends Heap n P where
  g_is_search : Bool
  g_all_threads_ready : Bool
  g_files_found : BitVec 32
  g_failed_threads : BitVec 32
  search_mutex : Option (Proc n)
  finish_mutex : Option (Proc n)
  queue_mutex : Option (Proc n)
  thread : Fin n → HeapPc P
  main : MainPc
  trace : List (Event n)

/-- What becomes of a step. -/
inductive Outcome (S : Type) where
  | waits
  | crash
  | ok (s : S)

def Outcome.ofOption {S : Type} : Option S → Outcome S
  | none => .crash
  | some s => .ok s

variable {n : Nat} {P : Type}

/-! ## Pointers -/

section

variable [DecidableEq P]

/-- What is read through a pointer to a directory entry. -/
def Heap.entry (m : Heap n P) (p : P) : Option DirQueueEntry :=
  if m.allocated p then some (m.g_dir_queue.node p).data else none

/-- `malloc`, with the strings that are copied to the entry. -/
def Heap.newDir (m : Heap n P) (new_dir : P) (child : DirQueueEntry) : Heap n P :=
  { m with
    allocated := Function.update m.allocated new_dir true
    g_dir_queue := m.g_dir_queue.modify new_dir fun _ => child }

/-- `thread_entry->dir_to_handle = NULL` and `free(removed_dir_entry)`. -/
def Heap.closeDir (m : Heap n P) (t : Fin n) (removed_dir_entry : P) : Heap n P :=
  { m with
    g_thread_queue := m.g_thread_queue.modify t fun entry => { entry with dir_to_handle := none }
    allocated := Function.update m.allocated removed_dir_entry false }

end

/-- `thread_entry->thread_id = t_id`. -/
def Heap.setThreadId (m : Heap n P) (t : Fin n) : Heap n P :=
  { m with g_thread_queue := m.g_thread_queue.modify t fun entry =>
      { entry with thread_id := BitVec.ofNat 64 t } }

/-- `thread_entry->dir_to_handle`. -/
def Heap.dirToHandle (m : Heap n P) (t : Fin n) : Option P :=
  (m.g_thread_queue.node t).data.dir_to_handle

/-- `queue_cv[thread->thread_id]`. -/
def Heap.queueCv (m : Heap n P) (thread : Fin n) : Option (Fin n) :=
  let thread_id := (m.g_thread_queue.node thread).data.thread_id
  if h : thread_id.toNat < n then some ⟨thread_id.toNat, h⟩ else none

def HeapPc.signalled : HeapPc P → HeapPc P
  | .sleep => .wake
  | pc => pc

def HeapPc.broadcast : HeapPc P → HeapPc P
  | .waitStart => .wakeStart
  | pc => pc

def HeapPc.terminated : HeapPc P → Bool
  | .failed _ | .exited => true
  | _ => false

namespace HeapSearch

def goto (c : HeapSearch n P) (t : Fin n) (pc : HeapPc P) : HeapSearch n P :=
  { c with thread := Function.update c.thread t pc }

def signalThread (c : HeapSearch n P) (t : Fin n) : HeapSearch n P := c.goto t (c.thread t).signalled

def signalMain (c : HeapSearch n P) : HeapSearch n P := { c with main := c.main.signalled }

/-- `should_thread_sleep`. -/
def shouldThreadSleep (c : HeapSearch n P) (t : Fin n) : Bool :=
  if c.g_is_search then
    !c.g_all_threads_ready || (c.g_dir_queue.queue.count == 0 && (c.dirToHandle t).isNone)
  else false

/-! ## The steps of a searching thread -/

/-- The section after `thread_enqueue`, which ends in a wait or in `continue`. -/
def passBarrier (c : HeapSearch n P) (t : Fin n) : Outcome (HeapSearch n P) :=
  if c.g_all_threads_ready = false ∧ c.g_thread_queue.queue.count = BitVec.ofNat 32 n then
    match threadDequeue c.g_thread_queue with
    | some (some thread, queue) =>
      let c := { c with g_all_threads_ready := true, g_thread_queue := queue }
      if n ≠ 1 then
        .ofOption <| (c.queueCv thread).map fun cv =>
          { c.signalThread cv with queue_mutex := none }.goto t .sleep
      else .ok (c.goto t .testSleep)
    | _ => .crash
  else .ok ({ c with queue_mutex := none }.goto t .sleep)

section

variable [DecidableEq P]

/-- A directory goes to the thread that sleeps longest, else to the queue; `malloc` returns
`new_dir`. -/
def giveDir (c : HeapSearch n P) (child : DirQueueEntry) (new_dir : P) : Option (HeapSearch n P) :=
  let c := { c with trace := .given child :: c.trace }
  if c.g_thread_queue.queue.count ≠ 0 then
    let c := { c with toHeap := c.toHeap.newDir new_dir child }
    match threadDequeue c.g_thread_queue with
    | some (some thread, queue) =>
      let c := { c with g_thread_queue := setDirToHandle thread new_dir queue }
      (c.queueCv thread).map fun cv => c.signalThread cv
    | _ => none
  else
    (dirEnqueue child.dir_name child.path_name new_dir c.g_dir_queue).map fun queue =>
      { c with g_dir_queue := queue, allocated := Function.update c.allocated new_dir true }

/-- The step of the searching thread `t` in which every call succeeds; `malloc` returns `new_dir`, if
it is called, which is not allocated. -/
def threadNext (fs : FileSys) (g_search_term : List UInt8) (c : HeapSearch n P) (t : Fin n)
    (new_dir : P) : Outcome (HeapSearch n P) :=
  match c.thread t with
  | .start | .wakeStart =>
    if c.search_mutex = none then
      .ok ({ c with search_mutex := some (.thread t) }.goto t .testStart)
    else .waits
  | .testStart =>
    if c.g_is_search then .ok ({ c with search_mutex := none }.goto t .malloc)
    else .ok ({ c with search_mutex := none }.goto t .waitStart)
  | .malloc => .ok ({ c with toHeap := c.toHeap.setThreadId t }.goto t .lockQueue)
  | .lockQueue | .wake =>
    if c.queue_mutex = none then
      .ok ({ c with queue_mutex := some (.thread t) }.goto t .testSleep)
    else .waits
  | .testSleep =>
    if c.shouldThreadSleep t then .ok (c.goto t .lockFinish) else .ok (c.goto t .testSearch)
  | .lockFinish =>
    if c.finish_mutex = none then
      .ok ({ c with finish_mutex := some (.thread t) }.goto t .enqueue)
    else .waits
  | .enqueue =>
    .ofOption <| (becomeIdle (n + 1) t c.g_thread_queue).map fun queue =>
      { { c with g_thread_queue := queue }.signalMain with finish_mutex := none }.goto t .barrier
  | .barrier => c.passBarrier t
  | .testSearch =>
    if c.g_is_search then .ok (c.goto t .take)
    else .ok ({ c with queue_mutex := none }.goto t .exited)
  | .take =>
    match c.dirToHandle t with
    | some p => .ok ({ c with queue_mutex := none }.goto t (.openDir p))
    | none =>
      match dirDequeue c.g_dir_queue with
      | some (some p, queue) =>
        .ok ({ c with g_dir_queue := queue, queue_mutex := none }.goto t (.openDir p))
      | _ => .crash
  | .openDir p =>
    .ofOption <| (c.entry p).map fun d => c.goto t (.iterate p (fs.readdir d.path_name))
  | .iterate p names =>
    match c.entry p with
    | none => .crash
    | some d =>
      match names with
      | [] =>
        .ok ({ c with
          toHeap := c.toHeap.closeDir t p
          trace := .iterated t d :: c.trace }.goto t .lockQueue)
      | d_name :: names =>
        match visit fs g_search_term d d_name with
        | .skip => .ok (c.goto t (.iterate p names))
        | .found path =>
          .ok ({ c with g_files_found := c.g_files_found + 1, trace := .found path :: c.trace }.goto t
            (.iterate p names))
        | .denied path => .ok ({ c with trace := .denied path :: c.trace }.goto t (.iterate p names))
        | .give child => .ok (c.goto t (.lockGive p child names))
  | .lockGive p child names =>
    if c.queue_mutex = none then
      .ok ({ c with queue_mutex := some (.thread t) }.goto t (.give p child names))
    else .waits
  | .give p child names =>
    if c.allocated new_dir then .waits
    else
      .ofOption <| (c.giveDir child new_dir).map fun c =>
        { c with queue_mutex := none }.goto t (.iterate p names)
  | .lockFail queue =>
    if c.finish_mutex = none then
      .ok ({ c with finish_mutex := some (.thread t) }.goto t (.fail queue))
    else .waits
  | .fail queue =>
    .ok ({ signalMain { c with g_failed_threads := c.g_failed_threads + 1 } with
      finish_mutex := none }.goto t (.failed queue))
  | .waitStart | .sleep | .failed _ | .exited => .waits

/-- The step of `t` in which its next call fails.  `iterate_in_directory` does not look at what
`malloc` returns when it hands a directory to a thread. -/
def threadFault (c : HeapSearch n P) (t : Fin n) : Fault → Outcome (HeapSearch n P)
  | .threadEntry =>
    match c.thread t with
    | .malloc => .ok (c.goto t (.lockFail false))
    | _ => .waits
  | .fileSystem =>
    match c.thread t with
    | .openDir p =>
      .ofOption <| (c.entry p).map fun d =>
        { c with trace := .failedOn d :: c.trace }.goto t (.lockFail false)
    | .iterate p (d_name :: _) =>
      if isDotFolder d_name then .waits
      else .ofOption <| (c.entry p).map fun d =>
        { c with trace := .failedOn d :: c.trace }.goto t (.lockFail false)
    | _ => .waits
  | .dirEntry =>
    match c.thread t with
    | .give p _ _ =>
      if c.g_thread_queue.queue.count = 0 then
        .ofOption <| (c.entry p).map fun d =>
          { c with trace := .failedOn d :: c.trace }.goto t (.lockFail true)
      else .crash
    | _ => .waits

end

/-- `pthread_cond_wait` of `t` returns without a signal. -/
def threadSpurious (c : HeapSearch n P) (t : Fin n) : Outcome (HeapSearch n P) :=
  match c.thread t with
  | .waitStart => .ok (c.goto t .wakeStart)
  | .sleep => .ok (c.goto t .wake)
  | _ => .waits

/-! ## The steps of `main` -/

def mainNext (c : HeapSearch n P) : Outcome (HeapSearch n P) :=
  match c.main with
  | .lockSearch =>
    if c.search_mutex = none then .ok { c with search_mutex := some .main, main := .raise }
    else .waits
  | .raise =>
    .ok { c with
      g_is_search := true
      search_mutex := none
      thread := fun t => (c.thread t).broadcast
      main := .lockFinish }
  | .lockFinish | .waking =>
    if c.finish_mutex = none then .ok { c with finish_mutex := some .main, main := .readDirs }
    else .waits
  | .readDirs =>
    if c.g_dir_queue.queue.count = 0 then .ok { c with main := .readCounts }
    else .ok { c with main := .readFailed }
  | .readCounts =>
    if c.g_thread_queue.queue.count + c.g_failed_threads = BitVec.ofNat 32 n then
      .ok { c with main := .stopSearch }
    else .ok { c with main := .readFailed }
  | .readFailed =>
    if c.g_failed_threads ≠ BitVec.ofNat 32 n then
      .ok { c with finish_mutex := none, main := .waiting }
    else .ok { c with main := .stopSearch }
  | .stopSearch => .ok { c with g_is_search := false, main := .lockQueue }
  | .lockQueue =>
    if c.queue_mutex = none then .ok { c with queue_mutex := some .main, main := .signalAll }
    else .waits
  | .signalAll =>
    .ok { c with
      thread := fun t => (c.thread t).signalled
      queue_mutex := none
      finish_mutex := none
      main := .join 0 }
  | .join i =>
    if h : i < n then
      if (c.thread ⟨i, h⟩).terminated then .ok { c with main := .join (i + 1) } else .waits
    else .ok { c with main := .done }
  | .waiting | .done => .waits

def mainSpurious (c : HeapSearch n P) : Outcome (HeapSearch n P) :=
  match c.main with
  | .waiting => .ok { c with main := .waking }
  | _ => .waits

end HeapSearch

/-! ## Runs -/

inductive HeapAction (n : Nat) (P : Type) where
  | main
  /-- `malloc` returns `new_dir`, if the step calls it -/
  | thread (t : Fin n) (new_dir : P)
  | fault (t : Fin n) (f : Fault)
  | mainSpurious
  | threadSpurious (t : Fin n)

/-- The step without the address. -/
def HeapAction.action : HeapAction n P → Action n
  | .main => .main
  | .thread t _ => .thread t
  | .fault t f => .fault t f
  | .mainSpurious => .mainSpurious
  | .threadSpurious t => .threadSpurious t

section

variable [DecidableEq P]

def HeapSearch.next (fs : FileSys) (g_search_term : List UInt8) (c : HeapSearch n P) :
    HeapAction n P → Outcome (HeapSearch n P)
  | .main => c.mainNext
  | .thread t new_dir => c.threadNext fs g_search_term t new_dir
  | .fault t f => c.threadFault t f
  | .mainSpurious => c.mainSpurious
  | .threadSpurious t => c.threadSpurious t

def HeapStep (fs : FileSys) (g_search_term : List UInt8) (c : HeapSearch n P) (a : HeapAction n P)
    (c' : HeapSearch n P) : Prop :=
  c.next fs g_search_term a = .ok c'

/-- The state after `main_init`: the root directory has been put into the empty queue, on the entry
that `malloc` returned; the memory of all entries held anything before. -/
def HeapSearch.init (root : Path) (root_entry : P) (dirNode : P → Node P DirQueueEntry)
    (threadNode : Fin n → Node (Fin n) (ThreadEntry P)) : Option (HeapSearch n P) :=
  (dirEnqueue root root root_entry ⟨Header.empty 32 P, dirNode⟩).map fun queue =>
    { g_dir_queue := queue
      g_thread_queue := ⟨Header.empty 32 (Fin n), threadNode⟩
      allocated := fun p => p == root_entry
      g_is_search := false
      g_all_threads_ready := false
      g_files_found := 0
      g_failed_threads := 0
      search_mutex := none
      finish_mutex := none
      queue_mutex := none
      thread := fun _ => .start
      main := .lockSearch
      trace := [.given ⟨root, root⟩] }

end

end OSCourse.Pfind
