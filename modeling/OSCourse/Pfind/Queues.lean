import OSCourse.Lib.LinkedQueue
import OSCourse.Pfind.Threads

/-!
# The two queues of `pfind.c` on the heap

* `dirEnqueue`, `dirDequeue`, `threadEnqueue`, `threadDequeue`, `isThreadInQueue` — the functions of
  the source, on nodes at the addresses `P`.  `count` is an `unsigned int`.
* `DirStep`, `ThreadStep` — the queues in use: directories are put in on fresh nodes, each thread
  puts in its own node, which it and others change while it is not in the queue.
* `queues_are_fifo` — both are FIFO queues, the one of the directories as long as it has fewer than
  `2 ^ 32` of them.
* `HoldsDirs`, `HoldsThreads` — the heap holds the queues that `Search` has as lists; the operations
  of `Search` are what the functions do to the heap.
-/

set_option autoImplicit false

namespace OSCourse.Pfind

open Transition LinkedQueue

variable {P : Type}

/-- `thread_queue_entry_t`, without its links; a directory is known by the address of its entry. -/
structure ThreadEntry (P : Type) where
  thread_id : BitVec 64
  dir_to_handle : Option P
  deriving DecidableEq, Repr

abbrev DirQueue (P : Type) := Store 32 P DirQueueEntry

/-- The queue of `n` threads; the entry of a thread is at an address of its own. -/
abbrev ThreadQueue (n : Nat) (P : Type) := Store 32 (Fin n) (ThreadEntry P)

/-- `dir_enqueue`, on the node that `malloc` returned.  The new head is what it returns. -/
def dirEnqueue [DecidableEq P] (dir_name : Name) (path_name : Path) (new_entry : P) :
    DirQueue P → Option (DirQueue P) :=
  enqueue (fun _ => ⟨path_name, dir_name⟩) new_entry

/-- `dir_dequeue`. -/
def dirDequeue [DecidableEq P] : DirQueue P → Option (Option P × DirQueue P) := LinkedQueue.dequeue

variable {n : Nat}

/-- `thread_enqueue`, on a node that is not NULL.  The new head is what it returns. -/
def threadEnqueue (new_entry : Fin n) : ThreadQueue n P → Option (ThreadQueue n P) :=
  enqueue (fun entry => { entry with dir_to_handle := none }) new_entry

/-- `thread_dequeue`. -/
def threadDequeue : ThreadQueue n P → Option (Option (Fin n) × ThreadQueue n P) :=
  LinkedQueue.dequeue

/-- `is_thread_in_queue`; `none` when the fuel is used up before. -/
def isThreadInQueue (fuel : Nat) (t_id : BitVec 64) (g_thread_queue : ThreadQueue n P) :
    Option Bool :=
  scan g_thread_queue.node (fun tmp => tmp.thread_id == t_id) fuel g_thread_queue.queue.head

/-! ## The queues in use -/

inductive DirStep [DecidableEq P] (t : InUse 32 P DirQueueEntry) : Op P → InUse 32 P DirQueueEntry → Prop
  | enqueue {dir_name : Name} {path_name : Path} {new_entry : P} {s' : DirQueue P} :
      new_entry ∉ t.queued → dirEnqueue dir_name path_name new_entry t.store = some s' →
      DirStep t (.enqueue new_entry) ⟨s', new_entry :: t.queued⟩
  | dequeue {removed_entry : Option P} {s' : DirQueue P} : t.queued ≠ [] →
      dirDequeue t.store = some (removed_entry, s') →
      DirStep t (.dequeue removed_entry) ⟨s', t.queued.filter fun p => some p ≠ removed_entry⟩
  /-- `free`, and whatever the memory is used for until the next `malloc` -/
  | other {p : P} {x : Node P DirQueueEntry} : p ∉ t.queued → DirStep t (.other p)
      { t with store := { t.store with node := Function.update t.store.node p x } }

inductive ThreadStep (t : InUse 32 (Fin n) (ThreadEntry P)) :
    Op (Fin n) → InUse 32 (Fin n) (ThreadEntry P) → Prop
  | enqueue {new_entry : Fin n} {s' : ThreadQueue n P} : new_entry ∉ t.queued →
      threadEnqueue new_entry t.store = some s' →
      ThreadStep t (.enqueue new_entry) ⟨s', new_entry :: t.queued⟩
  | dequeue {removed_entry : Option (Fin n)} {s' : ThreadQueue n P} : t.queued ≠ [] →
      threadDequeue t.store = some (removed_entry, s') →
      ThreadStep t (.dequeue removed_entry) ⟨s', t.queued.filter fun p => some p ≠ removed_entry⟩
  /-- the entry is set up, or gets a directory -/
  | other {p : Fin n} {x : Node (Fin n) (ThreadEntry P)} : p ∉ t.queued → ThreadStep t (.other p)
      { t with store := { t.store with node := Function.update t.store.node p x } }

theorem DirStep.queueStep [DecidableEq P] {t t' : InUse 32 P DirQueueEntry} {op : Op P} (hs : DirStep t op t') :
    QueueStep t op t' := by
  cases hs with
  | enqueue hp hs => exact .enqueue hp hs
  | dequeue hne hs => exact .dequeue hne hs
  | other hp => exact .other hp

theorem ThreadStep.queueStep {t t' : InUse 32 (Fin n) (ThreadEntry P)} {op : Op (Fin n)}
    (hs : ThreadStep t op t') : QueueStep t op t' := by
  cases hs with
  | enqueue hp hs => exact .enqueue hp hs
  | dequeue hne hs => exact .dequeue hne hs
  | other hp => exact .other hp

/-! ## FIFO order -/

theorem dirInv_run [DecidableEq P] {node : P → Node P DirQueueEntry} {h : List (Op P)} {t : InUse 32 P DirQueueEntry}
    (hr : Run DirStep (InUse.start node) h t)
    (hroom : Run.EachStep DirStep (InUse.start node : InUse 32 P DirQueueEntry) HasRoom h) :
    QueueInv h t :=
  queueInv_run (fun _ _ _ hs => hs.queueStep) hr hroom

/-- `g_threads_num` is an `int`, so the counter has room for all threads. -/
theorem threadInv_run {node : Fin n → Node (Fin n) (ThreadEntry P)} {h : List (Op (Fin n))}
    {t : InUse 32 (Fin n) (ThreadEntry P)} (hn : n < 2 ^ 31)
    (hr : Run ThreadStep (InUse.start node) h t) : QueueInv h t :=
  queueInv_run_of_card (by rw [Fintype.card_fin]; omega) (hr.mono fun _ _ _ hs => hs.queueStep)

/-- `is_thread_in_queue` ends, and finds what is in the queue. -/
theorem isThreadInQueue_spec {s : ThreadQueue n P} {l : List (Fin n)} (L : Linked s l)
    (t_id : BitVec 64) {fuel : Nat} (hfuel : l.length < fuel) :
    isThreadInQueue fuel t_id s = some (decide (∃ p ∈ l, (s.node p).data.thread_id = t_id)) := by
  have hscan := scan_spec L.next (fun tmp => tmp.thread_id == t_id) hfuel
  rw [isThreadInQueue, hscan, Option.some.injEq, Bool.eq_iff_iff]
  simp

/-- **The queues are FIFO queues.**  The one of the directories is, as long as it has less than
`2 ^ 32` of them. -/
theorem queues_are_fifo [DecidableEq P] {dirNode : P → Node P DirQueueEntry} {dirOps : List (Op P)}
    {dirs : InUse 32 P DirQueueEntry} {threadNode : Fin n → Node (Fin n) (ThreadEntry P)}
    {threadOps : List (Op (Fin n))} {threads : InUse 32 (Fin n) (ThreadEntry P)}
    (hdirs : Run DirStep (InUse.start dirNode) dirOps dirs)
    (hroom : Run.EachStep DirStep (InUse.start dirNode : InUse 32 P DirQueueEntry) HasRoom dirOps)
    (hn : n < 2 ^ 31) (hthreads : Run ThreadStep (InUse.start threadNode) threadOps threads) :
    (Fifo dirOps dirs ∧ Usable dirs) ∧ (Fifo threadOps threads ∧ Usable threads) ∧
      ∀ t_id fuel, threads.queued.length < fuel → isThreadInQueue fuel t_id threads.store =
        some (decide (∃ p ∈ threads.queued, (threads.store.node p).data.thread_id = t_id)) := by
  have I := dirInv_run hdirs hroom
  have J := threadInv_run hn hthreads
  refine ⟨⟨I.fifo, I.usable⟩, ⟨J.fifo, J.usable⟩, ?_⟩
  intro t_id fuel hfuel
  exact isThreadInQueue_spec J.linked t_id hfuel

/-- Two directories and two threads: a thread that was taken out puts itself back with the links it
has from before. -/
theorem queues_are_fifo_reused :
    ∃ (dirs : InUse 32 Nat DirQueueEntry) (threads : InUse 32 (Fin 2) (ThreadEntry Nat)),
      dirs.queued = [9] ∧ threads.queued = [0, 1] ∧
      Fifo [.dequeue (some 7), .enqueue 9, .enqueue 7] dirs ∧
      Fifo [.enqueue 0, .dequeue (some 0), .enqueue 1, .enqueue 0] threads ∧
      isThreadInQueue 3 1 threads.store = some true := by
  let node : Nat → Node Nat DirQueueEntry := fun _ => ⟨⟨[], []⟩, none, none⟩
  let entry : Fin 2 → Node (Fin 2) (ThreadEntry Nat) :=
    fun t => ⟨⟨BitVec.ofNat 64 t.val, none⟩, none, none⟩
  obtain ⟨dirs, hdirs, hd⟩ : ∃ dirs, Run DirStep (InUse.start node)
      [.dequeue (some 7), .enqueue 9, .enqueue 7] dirs ∧ dirs.queued = [9] := by
    refine ⟨_, ((Run.nil.step (.enqueue ?_ (show dirEnqueue [97] [97] 7 _ = some _ from rfl))).step
      (.enqueue ?_ (show dirEnqueue [98] [97, 47, 98] 9 _ = some _ from rfl))).step (.dequeue ?_ rfl), rfl⟩
    all_goals decide
  obtain ⟨threads, hthreads, ht, hid⟩ : ∃ threads, Run ThreadStep (InUse.start entry)
      [.enqueue 0, .dequeue (some 0), .enqueue 1, .enqueue 0] threads ∧ threads.queued = [0, 1] ∧
      (threads.store.node 1).data.thread_id = 1 := by
    refine ⟨_, (((Run.nil.step (.enqueue ?_ rfl)).step (.enqueue ?_ rfl)).step
      (.dequeue ?_ rfl)).step (.enqueue ?_ (Option.some_get ?_).symm), ?_, ?_⟩
    all_goals decide
  obtain ⟨⟨hdirFifo, -⟩, ⟨hthreadFifo, -⟩, hfind⟩ := queues_are_fifo hdirs
    (hasRoom_of_length (fun _ _ _ hs => hs.queueStep) node (by decide)) (by decide) hthreads
  refine ⟨dirs, threads, hd, ht, hdirFifo, hthreadFifo, ?_⟩
  rw [hfind 1 3 (by rw [ht]; decide), ht]
  simp [hid]

/-! ## The lists that the queues are -/

/-- The nodes `l` hold the entries `g_dir_queue`. -/
structure HoldsDirs (s : DirQueue P) (l : List P) (g_dir_queue : List DirQueueEntry) : Prop where
  linked : Linked s l
  room : l.length < 2 ^ 32
  data : l.map (fun p => (s.node p).data) = g_dir_queue

theorem HoldsDirs.isEmpty {s : DirQueue P} {l : List P} {g_dir_queue : List DirQueueEntry}
    (H : HoldsDirs s l g_dir_queue) : s.queue.count = 0 ↔ g_dir_queue = [] := by
  rw [H.linked.count_eq_zero H.room, ← H.data, List.map_eq_nil_iff]

theorem HoldsDirs.enqueue [DecidableEq P] {s : DirQueue P} {l : List P}
    {g_dir_queue : List DirQueueEntry} (H : HoldsDirs s l g_dir_queue) (child : DirQueueEntry) {new_entry : P} (hfresh : new_entry ∉ l)
    (hroom : l.length + 1 < 2 ^ 32) :
    ∃ s', dirEnqueue child.dir_name child.path_name new_entry s = some s' ∧
      HoldsDirs s' (new_entry :: l) (child :: g_dir_queue) := by
  obtain ⟨s', hs', L', hnew, hold⟩ :=
    enqueue_spec H.linked H.room (fun _ => ⟨child.path_name, child.dir_name⟩) hfresh
  refine ⟨s', hs', L', hroom, ?_⟩
  rw [List.map_cons, hnew, ← H.data, List.map_congr_left]
  intro p hp
  exact hold p fun h => hfresh (h ▸ hp)

theorem HoldsDirs.dequeue [DecidableEq P] {s : DirQueue P} {l : List P}
    {g_dir_queue queue : List DirQueueEntry} {d : DirQueueEntry} (H : HoldsDirs s l g_dir_queue) (hd : dequeue g_dir_queue = some (d, queue)) :
    ∃ p l' s', dirDequeue s = some (some p, s') ∧ (s'.node p).data = d ∧ HoldsDirs s' l' queue := by
  have hdata := H.data
  rw [dequeue_eq_some hd] at hdata
  obtain ⟨l', last, rfl, hl', hlast⟩ := List.map_eq_append_iff.1 hdata
  obtain ⟨p, rfl, hp⟩ := List.map_eq_singleton_iff.1 hlast
  obtain ⟨s', hs', L', hold⟩ := dequeue_spec H.linked H.room
  have hroom := H.room
  rw [List.length_append] at hroom
  refine ⟨p, l', s', hs', (hold p).trans hp, L', by omega, ?_⟩
  rw [← hl']
  exact List.map_congr_left fun q _ => hold q

/-- The heap holds the queue of the threads, each with its id and the directory it was given. -/
structure HoldsThreads (s : ThreadQueue n P) (dir : P → DirQueueEntry) (search : Search n) :
    Prop where
  linked : Linked s search.g_thread_queue
  id (t : Fin n) : (s.node t).data.thread_id = BitVec.ofNat 64 t
  dirs (t : Fin n) : (s.node t).data.dir_to_handle.map dir = search.dir_to_handle t

/-- What a thread does to become idle: it puts its entry into the queue, unless it is there. -/
def becomeIdle (fuel : Nat) (t_id : Fin n) (s : ThreadQueue n P) : Option (ThreadQueue n P) :=
  match isThreadInQueue fuel (BitVec.ofNat 64 t_id) s with
  | none => none
  | some true => some s
  | some false => threadEnqueue t_id s

variable {s s' : ThreadQueue n P} {dir : P → DirQueueEntry} {search : Search n} {t : Fin n}

theorem HoldsThreads.length_le (H : HoldsThreads s dir search) :
    search.g_thread_queue.length ≤ n := by
  have hle := H.linked.nodup.length_le_card
  rwa [Fintype.card_fin] at hle

theorem HoldsThreads.search_eq (H : HoldsThreads s dir search) (hn : n < 2 ^ 31) (t_id : Fin n)
    {fuel : Nat} (hfuel : n < fuel) : isThreadInQueue fuel (BitVec.ofNat 64 t_id) s =
      some (decide (t_id ∈ search.g_thread_queue)) := by
  rw [isThreadInQueue_spec H.linked _ (Nat.lt_of_le_of_lt H.length_le hfuel), Option.some.injEq,
    decide_eq_decide]
  constructor
  · rintro ⟨p, hp, hid⟩
    rw [H.id p, ofNat_eq_iff (by omega) (by omega)] at hid
    exact Fin.ext hid ▸ hp
  · intro ht
    exact ⟨t_id, ht, H.id t_id⟩

theorem HoldsThreads.idle (H : HoldsThreads s dir search) (hn : n < 2 ^ 31) (t : Fin n)
    {fuel : Nat} (hfuel : n < fuel) :
    ∃ s', becomeIdle fuel t s = some s' ∧ HoldsThreads s' dir (search.threadEnqueue t) := by
  rw [becomeIdle, H.search_eq hn t hfuel]
  by_cases ht : t ∈ search.g_thread_queue
  · rw [decide_eq_true ht, Search.threadEnqueue, if_pos ht]
    exact ⟨s, rfl, H⟩
  · rw [decide_eq_false ht, Search.threadEnqueue, if_neg ht]
    have hroom : search.g_thread_queue.length < 2 ^ 32 := by
      have hle := H.length_le
      omega
    obtain ⟨s', hs', L', hnew, hold⟩ :=
      enqueue_spec H.linked hroom (fun entry => { entry with dir_to_handle := none }) ht
    refine ⟨s', hs', L', ?_, ?_⟩
    · intro u
      rcases eq_or_ne u t with rfl | hu
      · rw [hnew]
        exact H.id u
      · rw [hold u hu]
        exact H.id u
    · intro u
      show _ = Function.update search.dir_to_handle t none u
      rcases eq_or_ne u t with rfl | hu
      · rw [hnew, Function.update_self]
        rfl
      · rw [hold u hu, Function.update_of_ne hu]
        exact H.dirs u

theorem HoldsThreads.dequeue (H : HoldsThreads s dir search) (hn : n < 2 ^ 31) {thread : Fin n}
    {queue : List (Fin n)} (hd : dequeue search.g_thread_queue = some (thread, queue)) :
    ∃ s', threadDequeue s = some (some thread, s') ∧
      HoldsThreads s' dir { search with g_thread_queue := queue } := by
  have L := H.linked
  have hle := H.length_le
  rw [dequeue_eq_some hd] at L hle
  obtain ⟨s', hs', L', hold⟩ := dequeue_spec L (by omega)
  refine ⟨s', hs', L', ?_, ?_⟩
  · intro u
    rw [hold u]
    exact H.id u
  · intro u
    rw [hold u]
    exact H.dirs u

/-- `thread->dir_to_handle = new_dir`, of a thread that is not in the queue. -/
def setDirToHandle (thread : Fin n) (new_dir : P) (s : ThreadQueue n P) : ThreadQueue n P :=
  { s with node := Function.update s.node thread { s.node thread with
      data := { (s.node thread).data with dir_to_handle := some new_dir } } }

theorem HoldsThreads.give (H : HoldsThreads s dir search)
    (ht : t ∉ search.g_thread_queue) (new_dir : P) :
    HoldsThreads (setDirToHandle t new_dir s) dir { search with
      dir_to_handle := Function.update search.dir_to_handle t (some (dir new_dir)) } := by
  refine ⟨H.linked.other ht _, ?_, ?_⟩
  · intro u
    rcases eq_or_ne u t with rfl | hu
    · simpa [setDirToHandle] using H.id u
    · simpa [setDirToHandle, hu] using H.id u
  · intro u
    rcases eq_or_ne u t with rfl | hu
    · simp [setDirToHandle]
    · simpa [setDirToHandle, hu] using H.dirs u

/-! ## The counter wraps -/

/-- A node for every directory, `k` of them. -/
def freshEnqueues : Nat → List (Op Nat)
  | 0 => []
  | k + 1 => .enqueue k :: freshEnqueues k

/-- A queue takes as many nodes as its counter has values. -/
theorem freshEnqueues_run (node : Nat → Node Nat DirQueueEntry) {k : Nat} (hk : k ≤ 2 ^ 32) :
    ∃ t, Run DirStep (InUse.start node) (freshEnqueues k) t ∧ Linked t.store t.queued ∧
      t.queued.length = k ∧ ∀ p ∈ t.queued, p < k := by
  induction k with
  | zero => exact ⟨_, .nil, linked_empty node, rfl, by simp [InUse.start]⟩
  | succ k ih =>
    obtain ⟨t, hr, L, hlen, hlt⟩ := ih (Nat.le_of_succ_le hk)
    have hfresh : k ∉ t.queued := fun h => Nat.lt_irrefl k (hlt k h)
    obtain ⟨s', hs', L', -⟩ := enqueue_spec L (hlen.symm ▸ hk) (fun _ => ⟨[], []⟩) hfresh
    refine ⟨_, hr.step (.enqueue hfresh hs'), L', by rw [List.length_cons, hlen], ?_⟩
    intro p hp
    rcases List.mem_cons.1 hp with rfl | hp
    · exact Nat.lt_succ_self p
    · exact Nat.lt_succ_of_lt (hlt p hp)

/-- With `2 ^ 32` directories, the queue counts none. -/
theorem dir_count_wraps :
    ∃ t : InUse 32 Nat DirQueueEntry,
      Run DirStep (InUse.start fun _ => ⟨⟨[], []⟩, none, none⟩) (freshEnqueues (2 ^ 32)) t ∧
        t.queued.length = 2 ^ 32 ∧ t.store.queue.count = 0 ∧ t.store.queue.head ≠ none ∧
        ¬Fifo (freshEnqueues (2 ^ 32)) t := by
  obtain ⟨t, hr, L, hlen, -⟩ := freshEnqueues_run (fun _ => ⟨⟨[], []⟩, none, none⟩) (Nat.le_refl (2 ^ 32))
  have hcount : t.store.queue.count = 0 := by
    rw [L.count, hlen]
    decide
  have hhead : t.store.queue.head ≠ none := by
    rw [Ne, L.head_eq_none, ← List.length_eq_zero_iff, hlen]
    decide
  exact ⟨t, hr, hlen, hcount, hhead, fun F => hhead (F.head.2 hcount)⟩

end OSCourse.Pfind
