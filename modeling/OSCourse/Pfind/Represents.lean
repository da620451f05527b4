import OSCourse.Pfind.Heap
import OSCourse.Pfind.Points

/-!
# What the memory of `pfind.c` stands for

* `Role` — what the pointers of a thread mean at a program point.
* `Represents c s l` — the state `c` with its pointers stands for the state `s` with its lists; the
  entries `l` are those in the directory queue, from the head on.  Every directory entry that is in
  use is allocated, and in use at one place.
* The lemmas say that what the code does to its memory is what `Pfind.Threads` does to its lists.
-/

set_option autoImplicit false

namespace OSCourse.Pfind

open LinkedQueue Transition

variable {n : Nat} {P : Type}

/-! ## Points and pointers -/

/-- What the pointers of a thread mean. -/
inductive Role (P : Type) where
  /-- it has no `thread_entry` yet -/
  | fresh
  /-- its `dir_to_handle` is the directory that it is to handle next -/
  | idle
  /-- it works on a directory entry -/
  | works (p : P)
  /-- it is in `thread_exit_on_error` -/
  | failing

def HeapPc.role : HeapPc P → Role P
  | .start | .testStart | .waitStart | .wakeStart | .malloc => .fresh
  | .lockQueue | .testSleep | .lockFinish | .enqueue | .barrier | .sleep | .wake | .testSearch
  | .take | .exited => .idle
  | .openDir p | .iterate p _ | .lockGive p _ _ | .give p _ _ => .works p
  | .lockFail _ | .fail _ | .failed _ => .failing

/-- The thread has set up its `thread_entry`. -/
def Role.hasEntry : Role P → Bool
  | .idle | .works _ => true
  | .fresh | .failing => false

/-- The directory entry that belongs to the thread; `own` is its `dir_to_handle`. -/
def Role.pointer (own : Option P) : Role P → Option P
  | .idle => own
  | .works p => some p
  | .fresh | .failing => none

/-- The point as `ThreadPc` has it, when the directory entries hold `data`. -/
def HeapPc.view (data : P → DirQueueEntry) : HeapPc P → ThreadPc
  | .start => .start
  | .testStart => .testStart
  | .waitStart => .waitStart
  | .wakeStart => .wakeStart
  | .malloc => .malloc
  | .lockQueue => .lockQueue
  | .testSleep => .testSleep
  | .lockFinish => .lockFinish
  | .enqueue => .enqueue
  | .barrier => .barrier
  | .sleep => .sleep
  | .wake => .wake
  | .testSearch => .testSearch
  | .take => .take
  | .openDir p => .openDir (data p)
  | .iterate p names => .iterate (data p) names
  | .lockGive p child names => .lockGive (data p) child names
  | .give p child names => .give (data p) child names
  | .lockFail queue => .lockFail queue
  | .fail queue => .fail queue
  | .failed queue => .failed queue
  | .exited => .exited

theorem HeapPc.view_congr {data data' : P → DirQueueEntry} {pc : HeapPc P}
    (h : ∀ p, pc.role = .works p → data' p = data p) : pc.view data' = pc.view data := by
  cases pc with
  | openDir p | iterate p names | lockGive p child names | give p child names =>
    simp only [view, h p rfl]
  | _ => rfl

theorem HeapPc.view_signalled (data : P → DirQueueEntry) (pc : HeapPc P) :
    pc.signalled.view data = (pc.view data).signalled := by
  cases pc <;> rfl

theorem HeapPc.view_broadcast (data : P → DirQueueEntry) (pc : HeapPc P) :
    pc.broadcast.view data = (pc.view data).broadcast := by
  cases pc <;> rfl

theorem HeapPc.role_signalled (pc : HeapPc P) : pc.signalled.role = pc.role := by
  cases pc <;> rfl

theorem HeapPc.role_broadcast (pc : HeapPc P) : pc.broadcast.role = pc.role := by
  cases pc <;> rfl

theorem HeapPc.view_terminated (data : P → DirQueueEntry) (pc : HeapPc P) :
    (pc.view data).terminated = pc.terminated := by
  cases pc <;> rfl

/-! ## The relation -/

/-- What both levels have in common, but for the number of failed threads. -/
structure Control (n : Nat) where
  g_is_search : Bool
  g_all_threads_ready : Bool
  g_files_found : BitVec 32
  search_mutex : Option (Proc n)
  finish_mutex : Option (Proc n)
  queue_mutex : Option (Proc n)
  main : MainPc
  trace : List (Event n)

def Search.control (s : Search n) : Control n :=
  ⟨s.g_is_search, s.g_all_threads_ready, s.g_files_found, s.search_mutex, s.finish_mutex,
    s.queue_mutex, s.main, s.trace⟩

def HeapSearch.control (c : HeapSearch n P) : Control n :=
  ⟨c.g_is_search, c.g_all_threads_ready, c.g_files_found, c.search_mutex, c.finish_mutex,
    c.queue_mutex, c.main, c.trace⟩

/-- What the directory entries hold. -/
def Heap.data (m : Heap n P) (p : P) : DirQueueEntry := (m.g_dir_queue.node p).data

/-- The `dir_to_handle` of `t` has been set. -/
def HeapSearch.Set (c : HeapSearch n P) (queue : List (Fin n)) (t : Fin n) : Prop :=
  c.g_all_threads_ready = true ∨ t ∈ queue

instance (c : HeapSearch n P) (queue : List (Fin n)) (t : Fin n) : Decidable (c.Set queue t) :=
  inferInstanceAs (Decidable (_ ∨ _))

/-- The directory entry that belongs to `t`, when the threads in `queue` are in the thread queue. -/
def HeapSearch.holds (c : HeapSearch n P) (queue : List (Fin n)) (t : Fin n) : Option P :=
  (c.thread t).role.pointer (if c.Set queue t then c.dirToHandle t else none)

structure Represents (c : HeapSearch n P) (s : Search n) (l : List P) : Prop where
  control : c.control = s.control
  failed : c.g_failed_threads = BitVec.ofNat 32 s.g_failed_threads
  dirs : HoldsDirs c.g_dir_queue l s.g_dir_queue
  threads : Linked c.g_thread_queue s.g_thread_queue
  id : ∀ t, t ∈ s.g_thread_queue ∨ (c.thread t).role.hasEntry = true →
    (c.g_thread_queue.node t).data.thread_id = BitVec.ofNat 64 t
  fresh : ∀ t, (c.thread t).role = .fresh → ¬c.Set s.g_thread_queue t
  view : ∀ t, s.thread t = (c.thread t).view c.data
  handed : ∀ t, (c.thread t).role = .idle → c.Set s.g_thread_queue t →
    (c.dirToHandle t).map c.data = s.dir_to_handle t
  queued : ∀ p ∈ l, c.allocated p = true
  held : ∀ t p, c.holds s.g_thread_queue t = some p → c.allocated p = true ∧ p ∉ l
  unique : ∀ t u p, c.holds s.g_thread_queue t = some p → c.holds s.g_thread_queue u = some p → t = u

namespace Represents

variable {c c' : HeapSearch n P} {s s' : Search n} {l : List P} {t : Fin n}

theorem searching (R : Represents c s l) : c.g_is_search = s.g_is_search :=
  congrArg Control.g_is_search R.control

theorem ready (R : Represents c s l) : c.g_all_threads_ready = s.g_all_threads_ready :=
  congrArg Control.g_all_threads_ready R.control

theorem searchMutex (R : Represents c s l) : c.search_mutex = s.search_mutex :=
  congrArg Control.search_mutex R.control

theorem finishMutex (R : Represents c s l) : c.finish_mutex = s.finish_mutex :=
  congrArg Control.finish_mutex R.control

theorem queueMutex (R : Represents c s l) : c.queue_mutex = s.queue_mutex :=
  congrArg Control.queue_mutex R.control

theorem main (R : Represents c s l) : c.main = s.main := congrArg Control.main R.control

/-- The directory entry that a thread works on is its own. -/
theorem holds_works (c : HeapSearch n P) (queue : List (Fin n)) {p : P}
    (hrole : (c.thread t).role = .works p) : c.holds queue t = some p := by
  rw [HeapSearch.holds, hrole]
  rfl

/-! ## Steps that do not touch the memory -/

/-- Flags, mutexes, the counters, `main` and the trace change alike. -/
theorem withControl (R : Represents c s l) (hcontrol : c'.control = s'.control)
    (hfailed : c'.g_failed_threads = BitVec.ofNat 32 s'.g_failed_threads)
    (hheap : c'.toHeap = c.toHeap)
    (hset : ∀ t, c'.Set s.g_thread_queue t ↔ c.Set s.g_thread_queue t)
    (hthread : c'.thread = c.thread)
    (hqueues : s'.g_dir_queue = s.g_dir_queue ∧ s'.g_thread_queue = s.g_thread_queue ∧
      s'.dir_to_handle = s.dir_to_handle ∧ s'.thread = s.thread) : Represents c' s' l := by
  obtain ⟨hdirs, hthreads, hdir, hthread'⟩ := hqueues
  have hholds : ∀ t, c'.holds s'.g_thread_queue t = c.holds s.g_thread_queue t := by
    intro t
    rw [hthreads]
    simp only [HeapSearch.holds, hset, hthread, hheap]
  refine ⟨hcontrol, hfailed, ?_, ?_, fun t ht => ?_, fun t ht => ?_, fun t => ?_, fun t ht hs => ?_,
    fun p hp => ?_, fun t p hp => ?_, fun t u p ht hu => ?_⟩
  · rw [hheap, hdirs]
    exact R.dirs
  · rw [hheap, hthreads]
    exact R.threads
  · rw [hthread, hthreads] at ht
    rw [hheap]
    exact R.id t ht
  · rw [hthreads, hset]
    exact R.fresh t (hthread ▸ ht)
  · rw [hthread', hthread, hheap]
    exact R.view t
  · rw [hheap, hdir]
    exact R.handed t (hthread ▸ ht) ((hset t).1 (hthreads ▸ hs))
  · rw [hheap]
    exact R.queued p hp
  · rw [hheap]
    exact R.held t p ((hholds t).symm.trans hp)
  · exact R.unique t u p ((hholds t).symm.trans ht) ((hholds u).symm.trans hu)

/-- All threads go to points with the same meaning of their pointers, or fail. -/
theorem withThreads (R : Represents c s l) {thread : Fin n → HeapPc P}
    (hrole : ∀ t, (thread t).role = (c.thread t).role ∨ (thread t).role = .failing) :
    Represents { c with thread := thread } { s with thread := fun t => (thread t).view c.data } l := by
  have hholds : ∀ t p, ({ c with thread := thread } : HeapSearch n P).holds s.g_thread_queue t =
      some p → c.holds s.g_thread_queue t = some p := by
    intro t p hp
    have hp : (thread t).role.pointer _ = some p := hp
    rcases hrole t with h | h
    · rw [h] at hp
      exact hp
    · rw [h] at hp
      cases hp
  refine ⟨R.control, R.failed, R.dirs, R.threads, fun t ht => R.id t ?_, fun t ht => R.fresh t ?_,
    fun _ => rfl, fun t ht hs => R.handed t ?_ hs, R.queued, fun t p hp => R.held t p (hholds t p hp),
    fun t u p ht hu => R.unique t u p (hholds t p ht) (hholds u p hu)⟩
  · rcases ht with ht | ht
    · exact .inl ht
    · right
      have ht : (thread t).role.hasEntry = true := ht
      rcases hrole t with h | h
      · exact h ▸ ht
      · rw [h] at ht
        cases ht
  · have ht : (thread t).role = .fresh := ht
    rcases hrole t with h | h
    · exact h.symm.trans ht
    · cases h.symm.trans ht
  · have ht : (thread t).role = .idle := ht
    rcases hrole t with h | h
    · exact h.symm.trans ht
    · cases h.symm.trans ht

/-- `t` goes to a point with the same meaning of its pointers, or fails. -/
theorem goto (R : Represents c s l) (pc : HeapPc P)
    (hrole : pc.role = (c.thread t).role ∨ pc.role = .failing) :
    Represents (c.goto t pc) (s.goto t (pc.view c.data)) l := by
  have hthread : (fun u => (Function.update c.thread t pc u).view c.data) =
      Function.update s.thread t (pc.view c.data) := by
    funext u
    rcases eq_or_ne u t with rfl | hu
    · rw [Function.update_self, Function.update_self]
    · rw [Function.update_of_ne hu, Function.update_of_ne hu, R.view]
  have hrole : ∀ u, (Function.update c.thread t pc u).role = (c.thread u).role ∨
      (Function.update c.thread t pc u).role = .failing := by
    intro u
    rcases eq_or_ne u t with rfl | hu
    · rw [Function.update_self]
      exact hrole
    · rw [Function.update_of_ne hu]
      exact .inl rfl
  have h := R.withThreads hrole
  rw [hthread] at h
  exact h

theorem signalThread (R : Represents c s l) (u : Fin n) :
    Represents (c.signalThread u) (s.signalThread u) l := by
  have h := R.goto (t := u) (c.thread u).signalled (.inl (HeapPc.role_signalled _))
  rw [HeapPc.view_signalled, ← R.view] at h
  exact h

/-! ## Steps of one thread that touch the memory -/

/-- What a step keeps of the other threads and of the entries that belong to them. -/
structure Others (c c' : HeapSearch n P) (s s' : Search n) (l' : List P) (t : Fin n) : Prop where
  thread : ∀ u, u ≠ t → c'.thread u = c.thread u
  view : ∀ u, u ≠ t → s'.thread u = s.thread u
  entry : ∀ u, u ≠ t → (c'.g_thread_queue.node u).data = (c.g_thread_queue.node u).data
  dir : ∀ u, u ≠ t → s'.dir_to_handle u = s.dir_to_handle u
  set : ∀ u, u ≠ t → (u ∈ s'.g_thread_queue ↔ u ∈ s.g_thread_queue)
  kept : ∀ u p, u ≠ t → c.holds s.g_thread_queue u = some p →
    c'.allocated p = true ∧ c'.data p = c.data p ∧ p ∉ l'

/-- What a step makes of `t`. -/
structure Itself (c' : HeapSearch n P) (s' : Search n) (t : Fin n) : Prop where
  id : (c'.g_thread_queue.node t).data.thread_id = BitVec.ofNat 64 t
  fresh : (c'.thread t).role ≠ .fresh
  view : s'.thread t = (c'.thread t).view c'.data
  handed : (c'.thread t).role = .idle → c'.Set s'.g_thread_queue t →
    (c'.dirToHandle t).map c'.data = s'.dir_to_handle t

theorem changeOne (R : Represents c s l) {l' : List P} (hcontrol : c'.control = s'.control)
    (hfailed : c'.g_failed_threads = BitVec.ofNat 32 s'.g_failed_threads)
    (hready : c'.g_all_threads_ready = c.g_all_threads_ready)
    (hdirs : HoldsDirs c'.g_dir_queue l' s'.g_dir_queue)
    (hthreads : Linked c'.g_thread_queue s'.g_thread_queue)
    (hqueued : ∀ p ∈ l', c'.allocated p = true) (O : Others c c' s s' l' t) (I : Itself c' s' t)
    (hheld : ∀ p, c'.holds s'.g_thread_queue t = some p → c'.allocated p = true ∧ p ∉ l' ∧
      ∀ u, u ≠ t → c.holds s.g_thread_queue u ≠ some p) : Represents c' s' l' := by
  have hset : ∀ u, u ≠ t → (c'.Set s'.g_thread_queue u ↔ c.Set s.g_thread_queue u) := by
    intro u hu
    rw [HeapSearch.Set, HeapSearch.Set, hready, O.set u hu]
  have hdir : ∀ u, u ≠ t → c'.dirToHandle u = c.dirToHandle u := by
    intro u hu
    rw [Heap.dirToHandle, Heap.dirToHandle, O.entry u hu]
  have hholds : ∀ u, u ≠ t → c'.holds s'.g_thread_queue u = c.holds s.g_thread_queue u := by
    intro u hu
    simp only [HeapSearch.holds, O.thread u hu, hset u hu, hdir u hu]
  refine ⟨hcontrol, hfailed, hdirs, hthreads, fun u hu => ?_, fun u hu => ?_, fun u => ?_,
    fun u hu hs => ?_, hqueued, fun u p hp => ?_, fun u v p hu hv => ?_⟩
  · rcases eq_or_ne u t with rfl | hne
    · exact I.id
    · rw [O.entry u hne]
      rw [O.thread u hne, O.set u hne] at hu
      exact R.id u hu
  · rcases eq_or_ne u t with rfl | hne
    · exact absurd hu I.fresh
    · rw [hset u hne]
      exact R.fresh u (O.thread u hne ▸ hu)
  · rcases eq_or_ne u t with rfl | hne
    · exact I.view
    · rw [O.view u hne, O.thread u hne, R.view]
      refine (HeapPc.view_congr fun p hrole => ?_).symm
      exact (O.kept u p hne (holds_works c _ hrole)).2.1
  · rcases eq_or_ne u t with rfl | hne
    · exact I.handed hu hs
    · have hrole : (c.thread u).role = .idle := O.thread u hne ▸ hu
      have hs := (hset u hne).1 hs
      rw [hdir u hne, O.dir u hne, ← R.handed u hrole hs]
      cases hown : c.dirToHandle u with
      | none => rfl
      | some p =>
        have hp : c.holds s.g_thread_queue u = some p := by
          rw [HeapSearch.holds, hrole, if_pos hs, hown]
          rfl
        rw [Option.map_some, Option.map_some, (O.kept u p hne hp).2.1]
  · rcases eq_or_ne u t with rfl | hne
    · exact ⟨(hheld p hp).1, (hheld p hp).2.1⟩
    · have hkept := O.kept u p hne ((hholds u hne).symm.trans hp)
      exact ⟨hkept.1, hkept.2.2⟩
  · rcases eq_or_ne u t with rfl | hut
    · rcases eq_or_ne v u with rfl | hvu
      · rfl
      · exact absurd ((hholds v hvu).symm.trans hv) ((hheld p hu).2.2 v hvu)
    · rcases eq_or_ne v t with rfl | hvt
      · exact absurd ((hholds u hut).symm.trans hu) ((hheld p hv).2.2 u hut)
      · exact R.unique u v p ((hholds u hut).symm.trans hu) ((hholds v hvt).symm.trans hv)

/-- The entries that belong to the other threads, when only an entry of `t` changes. -/
theorem kept (R : Represents c s l) {u : Fin n} {p : P} (hp : c.holds s.g_thread_queue u = some p) :
    c.allocated p = true ∧ c.data p = c.data p ∧ p ∉ l :=
  ⟨(R.held u p hp).1, rfl, (R.held u p hp).2⟩

/-- `t` gets its `thread_entry`. -/
theorem setThreadId (R : Represents c s l) (hrole : (c.thread t).role = .fresh) :
    Represents ({ c with toHeap := c.toHeap.setThreadId t }.goto t .lockQueue) (s.goto t .lockQueue)
      l := by
  let f : ThreadEntry P → ThreadEntry P := fun entry => { entry with thread_id := BitVec.ofNat 64 t }
  have hnode : ∀ u, u ≠ t →
      ((c.g_thread_queue.modify t f).node u).data = (c.g_thread_queue.node u).data := fun u hu => by
    rw [Store.modify_of_ne _ _ hu]
  have hset : ¬c.Set s.g_thread_queue t := R.fresh t hrole
  refine R.changeOne R.control R.failed rfl R.dirs (R.threads.modify t f) R.queued ?_ ?_ ?_ (t := t)
  · exact ⟨fun u hu => Function.update_of_ne hu .., fun u hu => Search.goto_of_ne _ _ hu, hnode,
      fun _ _ => rfl, fun _ _ => Iff.rfl, fun u p _ hp => R.kept hp⟩
  · refine ⟨?_, ?_, ?_, fun _ hs => absurd hs hset⟩
    · show ((c.g_thread_queue.modify t f).node t).data.thread_id = _
      rw [Store.modify_self]
    · show (Function.update c.thread t .lockQueue t).role ≠ .fresh
      rw [Function.update_self]
      simp [HeapPc.role]
    · rw [Search.goto_self]
      show _ = (Function.update c.thread t .lockQueue t).view _
      rw [Function.update_self]
      rfl
  · intro p hp
    have hp : (Function.update c.thread t .lockQueue t).role.pointer
      (if c.Set s.g_thread_queue t then _ else none) = some p := hp
    rw [Function.update_self, if_neg hset] at hp
    cases hp

/-! ## The thread queue -/

theorem length_le (R : Represents c s l) : s.g_thread_queue.length ≤ n := by
  have hle := R.threads.nodup.length_le_card
  rwa [Fintype.card_fin] at hle

/-- `becomeIdle` puts a thread into the queue, unless it is there. -/
theorem becomeIdle (R : Represents c s l) (hn : n < 2 ^ 31) (hrole : (c.thread t).role = .idle) :
    ∃ queue, becomeIdle (n + 1) t c.g_thread_queue = some queue ∧
      Represents { c with g_thread_queue := queue } (s.threadEnqueue t) l := by
  have hle := R.length_le
  have hid : (c.g_thread_queue.node t).data.thread_id = BitVec.ofNat 64 t :=
    R.id t (.inr (by rw [hrole]; rfl))
  have hfind : isThreadInQueue (n + 1) (BitVec.ofNat 64 t) c.g_thread_queue =
      some (decide (t ∈ s.g_thread_queue)) := by
    rw [isThreadInQueue_spec R.threads _ (Nat.lt_succ_of_le hle), Option.some.injEq,
      decide_eq_decide]
    constructor
    · rintro ⟨u, hu, heq⟩
      rw [R.id u (.inl hu), ofNat_eq_iff (by omega) (by omega)] at heq
      exact Fin.ext heq ▸ hu
    · intro ht
      exact ⟨t, ht, hid⟩
  rw [Pfind.becomeIdle, hfind]
  by_cases ht : t ∈ s.g_thread_queue
  · rw [decide_eq_true ht, Search.threadEnqueue, if_pos ht]
    exact ⟨c.g_thread_queue, rfl, R⟩
  · rw [decide_eq_false ht, Search.threadEnqueue, if_neg ht]
    obtain ⟨queue, hqueue, L, hnew, hold⟩ := enqueue_spec R.threads (by omega)
      (fun entry => { entry with dir_to_handle := none }) ht
    refine ⟨queue, hqueue, R.changeOne R.control R.failed rfl R.dirs L R.queued ?_ ?_ ?_ (t := t)⟩
    · refine ⟨fun _ _ => rfl, fun _ _ => rfl, fun u hu => hold u hu,
        fun u hu => Function.update_of_ne hu .., fun u hu => ?_, fun u p _ hp => R.kept hp⟩
      exact List.mem_cons.trans (or_iff_right hu)
    · refine ⟨?_, ?_, R.view t, fun _ _ => ?_⟩
      · rw [hnew]
        exact hid
      · rw [hrole]
        simp
      · show Option.map _ (queue.node t).data.dir_to_handle = Function.update s.dir_to_handle t none t
        rw [hnew, Function.update_self]
        rfl
    · intro p hp
      have hp : (c.thread t).role.pointer (if _ then (queue.node t).data.dir_to_handle else none) =
        some p := hp
      rw [hrole, hnew] at hp
      split at hp <;> cases hp

/-- A thread that is in the queue has its `thread_entry`. -/
theorem not_fresh (R : Represents c s l) {u : Fin n} (hu : u ∈ s.g_thread_queue) :
    (c.thread u).role ≠ .fresh :=
  fun hrole => R.fresh u hrole (.inr hu)

/-- The thread at the tail leaves the queue. -/
theorem dequeueThread (R : Represents c s l) (hn : n < 2 ^ 31) {thread : Fin n}
    {queue : List (Fin n)} (hqueue : s.g_thread_queue = queue ++ [thread]) :
    ∃ store, threadDequeue c.g_thread_queue = some (some thread, store) ∧
      (∀ u, (store.node u).data = (c.g_thread_queue.node u).data) ∧
      Represents { c with g_thread_queue := store } { s with g_thread_queue := queue } l := by
  have hle := R.length_le
  have L := R.threads
  have hmem : thread ∈ s.g_thread_queue := by
    rw [hqueue]
    simp
  rw [hqueue] at L hle
  obtain ⟨store, hstore, L', hold⟩ := dequeue_spec L (by omega)
  have hsub : ∀ u, u ∈ queue → u ∈ s.g_thread_queue := fun u hu => by
    rw [hqueue]
    exact List.mem_append_left _ hu
  -- what still belongs to the thread belonged to it before
  have hholds : ∀ p, ({ c with g_thread_queue := store } : HeapSearch n P).holds queue thread =
      some p → c.holds s.g_thread_queue thread = some p := by
    intro p hp
    have hdir : (store.node thread).data.dir_to_handle = c.dirToHandle thread := by
      rw [hold]
      rfl
    have hp : (c.thread thread).role.pointer (if c.Set queue thread then
      (store.node thread).data.dir_to_handle else none) = some p := hp
    rw [HeapSearch.holds, if_pos (.inr hmem)]
    rw [hdir] at hp
    cases hrole : (c.thread thread).role <;> rw [hrole] at hp
    · cases hp
    · split at hp
      · exact hp
      · cases hp
    · exact hp
    · cases hp
  refine ⟨store, hstore, hold, R.changeOne R.control R.failed rfl R.dirs L' R.queued ?_ ?_ ?_
    (t := thread)⟩
  · refine ⟨fun _ _ => rfl, fun _ _ => rfl, fun u _ => hold u, fun _ _ => rfl, fun u hu => ?_,
      fun u p _ hp => R.kept hp⟩
    show u ∈ queue ↔ u ∈ s.g_thread_queue
    rw [hqueue]
    simp [hu]
  · refine ⟨?_, R.not_fresh hmem, R.view thread, fun hrole _ => ?_⟩
    · rw [hold]
      exact R.id thread (.inl hmem)
    · show Option.map _ (store.node thread).data.dir_to_handle = _
      rw [hold]
      exact R.handed thread hrole (.inr hmem)
  · intro p hp
    have hp := hholds p hp
    refine ⟨(R.held thread p hp).1, (R.held thread p hp).2, fun u hu hpu => ?_⟩
    exact hu (R.unique u thread p hpu hp)

/-- `queue_cv[thread->thread_id]` is the one of the thread. -/
theorem queueCv_eq (hn : n < 2 ^ 31) {m : Heap n P} {u : Fin n}
    (hid : (m.g_thread_queue.node u).data.thread_id = BitVec.ofNat 64 u) : m.queueCv u = some u := by
  have hlt := u.isLt
  have hnat : (BitVec.ofNat 64 u.val).toNat = u.val := by
    rw [BitVec.toNat_ofNat, Nat.mod_eq_of_lt (by omega)]
  rw [Heap.queueCv]
  simp only [hid, hnat]
  rw [dif_pos hlt]

/-! ## The directory entries -/

/-- `t` takes the directory that it was handed. -/
theorem takeOwn (R : Represents c s l) (hrole : (c.thread t).role = .idle)
    (hset : c.Set s.g_thread_queue t) {p : P} (hp : c.dirToHandle t = some p) :
    s.dir_to_handle t = some (c.data p) ∧
      Represents (c.goto t (.openDir p)) (s.goto t (.openDir (c.data p))) l := by
  have hdir := R.handed t hrole hset
  rw [hp] at hdir
  have hold : c.holds s.g_thread_queue t = some p := by
    rw [HeapSearch.holds, hrole, if_pos hset, hp]
    rfl
  have hpc : (c.goto t (.openDir p)).thread t = .openDir p := Function.update_self ..
  refine ⟨hdir.symm, R.changeOne R.control R.failed rfl R.dirs R.threads R.queued ?_ ?_ ?_ (t := t)⟩
  · exact ⟨fun u hu => Function.update_of_ne hu .., fun u hu => Search.goto_of_ne _ _ hu,
      fun _ _ => rfl, fun _ _ => rfl, fun _ _ => Iff.rfl, fun u q _ hq => R.kept hq⟩
  · refine ⟨R.id t (.inr (by rw [hrole]; rfl)), ?_, ?_, fun hidle _ => ?_⟩
    · rw [hpc]
      simp [HeapPc.role]
    · rw [Search.goto_self, hpc]
      rfl
    · rw [hpc] at hidle
      cases hidle
  · intro q hq
    rw [holds_works (t := t) _ _ (show _ = Role.works p by rw [hpc]; rfl)] at hq
    cases hq
    exact ⟨(R.held t p hold).1, (R.held t p hold).2, fun u hu hpu => hu (R.unique u t p hpu hold)⟩

theorem new_not_mem (R : Represents c s l) {new_dir : P} (hnew : c.allocated new_dir ≠ true) :
    new_dir ∉ l :=
  fun h => hnew (R.queued _ h)

/-- A new entry is no entry that is in use. -/
theorem ne_new (R : Represents c s l) {new_dir : P} (hnew : c.allocated new_dir ≠ true) {u : Fin n}
    {q : P} (hq : c.holds s.g_thread_queue u = some q) : q ≠ new_dir :=
  fun h => hnew (h ▸ (R.held u q hq).1)

section

variable [DecidableEq P]

/-- `t` is done with its directory. -/
theorem closeDir (R : Represents c s l) {p : P} (hrole : (c.thread t).role = .works p)
    (e : Event n) :
    Represents ({ c with toHeap := c.toHeap.closeDir t p, trace := e :: c.trace }.goto t .lockQueue)
      ({ s with
        dir_to_handle := Function.update s.dir_to_handle t none
        trace := e :: s.trace }.goto t .lockQueue) l := by
  let f : ThreadEntry P → ThreadEntry P := fun entry => { entry with dir_to_handle := none }
  have hnode : ∀ u, u ≠ t →
      ((c.g_thread_queue.modify t f).node u).data = (c.g_thread_queue.node u).data := fun u hu => by
    rw [Store.modify_of_ne _ _ hu]
  have hself : ((c.g_thread_queue.modify t f).node t).data = f (c.g_thread_queue.node t).data :=
    Store.modify_self ..
  have hp : c.holds s.g_thread_queue t = some p := holds_works c _ hrole
  have hother : ∀ q, q ≠ p → Function.update c.allocated p false q = c.allocated q :=
    fun q hq => Function.update_of_ne hq ..
  have hcontrol : ({ c with trace := e :: c.trace } : HeapSearch n P).control =
      ({ s with trace := e :: s.trace } : Search n).control :=
    congrArg (fun k : Control n => { k with trace := e :: k.trace }) R.control
  refine R.changeOne hcontrol R.failed rfl R.dirs (R.threads.modify t f) ?_ ?_ ?_ ?_ (t := t)
  · intro q hq
    have hne : q ≠ p := fun h => (R.held t p hp).2 (h ▸ hq)
    exact (hother q hne).trans (R.queued q hq)
  · refine ⟨fun u hu => Function.update_of_ne hu .., fun u hu => Search.goto_of_ne _ _ hu, hnode,
      fun u hu => Function.update_of_ne hu .., fun _ _ => Iff.rfl, fun u q hu hq => ?_⟩
    have hne : q ≠ p := fun h => hu (R.unique u t p (h ▸ hq) hp)
    exact ⟨(hother q hne).trans (R.held u q hq).1, rfl, (R.held u q hq).2⟩
  · refine ⟨?_, ?_, ?_, fun _ _ => ?_⟩
    · show ((c.g_thread_queue.modify t f).node t).data.thread_id = _
      rw [hself]
      exact R.id t (.inr (by rw [hrole]; rfl))
    · show (Function.update c.thread t .lockQueue t).role ≠ .fresh
      rw [Function.update_self]
      simp [HeapPc.role]
    · rw [Search.goto_self]
      show _ = (Function.update c.thread t .lockQueue t).view _
      rw [Function.update_self]
      rfl
    · show Option.map _ ((c.g_thread_queue.modify t f).node t).data.dir_to_handle =
        Function.update s.dir_to_handle t none t
      rw [hself, Function.update_self]
      rfl
  · intro q hq
    have hq : (Function.update c.thread t .lockQueue t).role.pointer (if c.Set s.g_thread_queue t then
      ((c.g_thread_queue.modify t f).node t).data.dir_to_handle else none) = some q := hq
    rw [Function.update_self, hself] at hq
    simp [HeapPc.role, Role.pointer, f] at hq

/-- `t` takes the directory at the tail of the queue. -/
theorem takeNext (R : Represents c s l) (hrole : (c.thread t).role = .idle) {d : DirQueueEntry}
    {queue : List DirQueueEntry} (hqueue : s.g_dir_queue = queue ++ [d]) :
    ∃ p store l', dirDequeue c.g_dir_queue = some (some p, store) ∧
      Represents ({ c with g_dir_queue := store }.goto t (.openDir p))
        ({ s with g_dir_queue := queue }.goto t (.openDir d)) l' := by
  have hdata := R.dirs.data
  rw [hqueue] at hdata
  obtain ⟨l', last, rfl, hl', hlast⟩ := List.map_eq_append_iff.1 hdata
  obtain ⟨p, rfl, hp⟩ := List.map_eq_singleton_iff.1 hlast
  obtain ⟨store, hstore, L, hold⟩ := dequeue_spec R.dirs.linked R.dirs.room
  have hroom := R.dirs.room
  rw [List.length_append] at hroom
  have hpl : p ∉ l' := fun h =>
    (List.nodup_append.1 R.dirs.linked.nodup).2.2 p h p (List.mem_singleton_self p) rfl
  have hD : HoldsDirs store l' queue := by
    refine ⟨L, by omega, ?_⟩
    rw [← hl']
    exact List.map_congr_left fun q _ => hold q
  have hpc : (({ c with g_dir_queue := store } : HeapSearch n P).goto t (.openDir p)).thread t =
      .openDir p := Function.update_self ..
  refine ⟨p, store, l', hstore, R.changeOne R.control R.failed rfl hD R.threads ?_ ?_ ?_ ?_ (t := t)⟩
  · exact fun q hq => R.queued q (List.mem_append_left _ hq)
  · refine ⟨fun u hu => Function.update_of_ne hu .., fun u hu => Search.goto_of_ne _ _ hu,
      fun _ _ => rfl, fun _ _ => rfl, fun _ _ => Iff.rfl, fun u q _ hq => ?_⟩
    refine ⟨(R.held u q hq).1, hold q, fun hmem => ?_⟩
    exact (R.held u q hq).2 (List.mem_append_left _ hmem)
  · refine ⟨R.id t (.inr (by rw [hrole]; rfl)), ?_, ?_, fun hidle _ => ?_⟩
    · rw [hpc]
      simp [HeapPc.role]
    · rw [Search.goto_self, hpc]
      show ThreadPc.openDir d = .openDir (store.node p).data
      rw [hold, hp]
    · rw [hpc] at hidle
      cases hidle
  · intro q hq
    rw [holds_works (t := t) _ _ (show _ = Role.works p by rw [hpc]; rfl)] at hq
    cases hq
    refine ⟨R.queued p (List.mem_append_right _ (List.mem_singleton_self p)), hpl, fun u _ hpu => ?_⟩
    exact (R.held u p hpu).2 (List.mem_append_right _ (List.mem_singleton_self p))

/-- A thread that was taken out of the queue is handed a new entry. -/
theorem handOver (R : Represents c s l) {new_dir : P} (hnew : c.allocated new_dir ≠ true)
    (child : DirQueueEntry) {u : Fin n}
    (hid : (c.g_thread_queue.node u).data.thread_id = BitVec.ofNat 64 u)
    (hfresh : (c.thread u).role ≠ .fresh) :
    Represents { c with
        allocated := Function.update c.allocated new_dir true
        g_dir_queue := c.g_dir_queue.modify new_dir fun _ => child
        g_thread_queue := setDirToHandle u new_dir c.g_thread_queue }
      { s with dir_to_handle := Function.update s.dir_to_handle u (some child) } l := by
  have hnl := R.new_not_mem hnew
  have hdata : ∀ q, q ≠ new_dir → ((c.g_dir_queue.modify new_dir fun _ => child).node q).data =
      c.data q := fun q hq => by
    rw [Store.modify_of_ne _ _ hq]
    rfl
  have hallocated : ∀ q, q ≠ new_dir → Function.update c.allocated new_dir true q = c.allocated q :=
    fun q hq => Function.update_of_ne hq ..
  let f : ThreadEntry P → ThreadEntry P := fun entry => { entry with dir_to_handle := some new_dir }
  have hmodify : setDirToHandle u new_dir c.g_thread_queue = c.g_thread_queue.modify u f := rfl
  have hD : HoldsDirs (c.g_dir_queue.modify new_dir fun _ => child) l s.g_dir_queue := by
    refine ⟨R.dirs.linked.modify _ _, R.dirs.room, ?_⟩
    rw [← R.dirs.data]
    exact List.map_congr_left fun q hq => hdata q fun h => hnl (h ▸ hq)
  rw [hmodify]
  refine R.changeOne R.control R.failed rfl hD (R.threads.modify u f) ?_ ?_ ?_ ?_ (t := u)
  · intro q hq
    exact (hallocated q fun h => hnl (h ▸ hq)).trans (R.queued q hq)
  · refine ⟨fun _ _ => rfl, fun _ _ => rfl, fun v hv => ?_, fun v hv => Function.update_of_ne hv ..,
      fun _ _ => Iff.rfl, fun v q _ hq => ?_⟩
    · show ((c.g_thread_queue.modify u f).node v).data = _
      rw [Store.modify_of_ne _ _ hv]
    · have hne := R.ne_new hnew hq
      exact ⟨(hallocated q hne).trans (R.held v q hq).1, hdata q hne, (R.held v q hq).2⟩
  · refine ⟨?_, hfresh, ?_, fun _ _ => ?_⟩
    · show ((c.g_thread_queue.modify u f).node u).data.thread_id = _
      rw [Store.modify_self]
      exact hid
    · show s.thread u = (c.thread u).view _
      rw [R.view u]
      refine (HeapPc.view_congr fun q hrole => ?_).symm
      exact hdata q (R.ne_new hnew (holds_works c _ hrole))
    · show Option.map _ ((c.g_thread_queue.modify u f).node u).data.dir_to_handle =
        Function.update s.dir_to_handle u (some child) u
      rw [Store.modify_self, Function.update_self]
      show some ((c.g_dir_queue.modify new_dir fun _ => child).node new_dir).data = some child
      rw [Store.modify_self]
  · intro q hq
    have hq : (c.thread u).role.pointer (if c.Set s.g_thread_queue u then
      ((c.g_thread_queue.modify u f).node u).data.dir_to_handle else none) = some q := hq
    rw [Store.modify_self] at hq
    cases hrole : (c.thread u).role <;> rw [hrole] at hq
    · cases hq
    · split at hq
      · cases hq
        refine ⟨Function.update_self .., hnl, fun v _ hv => ?_⟩
        exact R.ne_new hnew hv rfl
      · cases hq
    · have hold : c.holds s.g_thread_queue u = some q := by
        rw [holds_works c _ hrole]
        exact hq
      refine ⟨(hallocated q (R.ne_new hnew hold)).trans (R.held u q hold).1, (R.held u q hold).2, ?_⟩
      exact fun v hv hqv => hv (R.unique v u q hqv hold)
    · cases hq

/-- A directory is put into the queue on a new entry; `t` is the thread that does it. -/
theorem enqueueDir [Fintype P] (R : Represents c s l) (hcard : Fintype.card P < 2 ^ 32)
    {new_dir : P} (hnew : c.allocated new_dir ≠ true) (child : DirQueueEntry) {p : P}
    (hrole : (c.thread t).role = .works p) :
    ∃ store, dirEnqueue child.dir_name child.path_name new_dir c.g_dir_queue = some store ∧
      Represents { c with
        g_dir_queue := store
        allocated := Function.update c.allocated new_dir true }
        { s with g_dir_queue := child :: s.g_dir_queue } (new_dir :: l) := by
  have hnl := R.new_not_mem hnew
  have hnodup := List.nodup_cons.2 ⟨hnl, R.dirs.linked.nodup⟩
  have hroom : (new_dir :: l).length < 2 ^ 32 := Nat.lt_of_le_of_lt hnodup.length_le_card hcard
  obtain ⟨store, hstore, L, hself, hold⟩ := enqueue_spec R.dirs.linked R.dirs.room
    (fun _ => (⟨child.path_name, child.dir_name⟩ : DirQueueEntry)) hnl
  have hallocated : ∀ q, q ≠ new_dir → Function.update c.allocated new_dir true q = c.allocated q :=
    fun q hq => Function.update_of_ne hq ..
  have hD : HoldsDirs store (new_dir :: l) (child :: s.g_dir_queue) := by
    refine ⟨L, hroom, ?_⟩
    rw [List.map_cons, hself, ← R.dirs.data]
    refine congrArg (child :: ·) (List.map_congr_left fun q hq => ?_)
    exact hold q fun h => hnl (h ▸ hq)
  have hnotMem : ∀ u q, c.holds s.g_thread_queue u = some q → q ∉ new_dir :: l := by
    intro u q hq hmem
    rcases List.mem_cons.1 hmem with h | h
    · exact R.ne_new hnew hq h
    · exact (R.held u q hq).2 h
  refine ⟨store, hstore, R.changeOne R.control R.failed rfl hD R.threads ?_ ?_ ?_ ?_ (t := t)⟩
  · intro q hq
    rcases List.mem_cons.1 hq with rfl | hq
    · exact Function.update_self ..
    · exact (hallocated q fun h => hnl (h ▸ hq)).trans (R.queued q hq)
  · refine ⟨fun _ _ => rfl, fun _ _ => rfl, fun _ _ => rfl, fun _ _ => rfl, fun _ _ => Iff.rfl,
      fun u q _ hq => ?_⟩
    have hne := R.ne_new hnew hq
    exact ⟨(hallocated q hne).trans (R.held u q hq).1, hold q hne, hnotMem u q hq⟩
  · refine ⟨R.id t (.inr (by rw [hrole]; rfl)), ?_, ?_, fun hidle _ => ?_⟩
    · rw [hrole]
      simp
    · show s.thread t = (c.thread t).view _
      rw [R.view t]
      refine (HeapPc.view_congr fun q hq => ?_).symm
      exact hold q (R.ne_new hnew (holds_works c _ hq))
    · cases hrole.symm.trans hidle
  · intro q hq
    have hq : c.holds s.g_thread_queue t = some q := hq
    refine ⟨(hallocated q (R.ne_new hnew hq)).trans (R.held t q hq).1, hnotMem t q hq, ?_⟩
    exact fun u hu hqu => hu (R.unique u t q hqu hq)

end

end Represents

end OSCourse.Pfind
