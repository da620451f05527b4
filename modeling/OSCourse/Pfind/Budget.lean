import OSCourse.Lib.Mutex
import OSCourse.Pfind.Moves

/-!
# Budgets that no step exceeds

The weights of `Weights` add up to the same in runs that keep the discipline of the queues.  Without
it, a directory can get lost: a call fails, or a thread that woke without a signal is handed a
directory while it works on another.  A budget is natural weights of which a step may lose some.

* `Budget` — what a directory may still cost at each place, with the laws by which it pays for what
  comes of it.
* `Budget.total_step` — **no step, whatever fails or wakes, makes the total grow**.
* `Budget.total_run` — all that was paid in a run is at most what the root directory had.
-/

set_option autoImplicit false

namespace OSCourse.Pfind

open Mutex Transition

/-- What is paid for one name. -/
def Visit.cost {n : Nat} (event : Event n → ℕ) (pending : DirQueueEntry → ℕ) : Visit → ℕ
  | .skip => 0
  | .found path => event (.found path)
  | .denied path => event (.denied path)
  | .give child => event (.given child) + pending child

structure Budget (fs : FileSys) (g_search_term : List UInt8) (n : Nat) where
  /-- of a directory that waits in the queue or for its thread -/
  pending : DirQueueEntry → ℕ
  /-- of a directory in the hands of a thread, by the names still to read -/
  iterating : DirQueueEntry → List Name → ℕ
  event : Event n → ℕ
  opened : ∀ d, iterating d (fs.readdir d.path_name) ≤ pending d
  visited : ∀ d d_name names, (visit fs g_search_term d d_name).cost event pending +
    iterating d names ≤ iterating d (d_name :: names)
  closed : ∀ t d, event (.iterated t d) ≤ iterating d []
  failed : ∀ d, event (.failedOn d) = 0

namespace Budget

variable {n : Nat} {fs : FileSys} {g_search_term : List UInt8} (B : Budget fs g_search_term n)

/-- What a thread has at a program point, with its `dir_to_handle`. -/
def thread (dir_to_handle : Option DirQueueEntry) : ThreadPc → ℕ
  | .openDir d => B.pending d
  | .iterate d names => B.iterating d names
  | .lockGive d child names | .give d child names =>
    B.event (.given child) + B.pending child + B.iterating d names
  | .lockFail _ | .fail _ | .failed _ => 0
  | .start | .testStart | .waitStart | .wakeStart | .malloc | .lockQueue | .testSleep | .lockFinish
  | .enqueue | .barrier | .sleep | .wake | .testSearch | .take | .exited =>
    (dir_to_handle.map B.pending).getD 0

/-- What has been paid. -/
def paid (s : Search n) : ℕ := (s.trace.map B.event).sum

/-- What has been paid and what is left. -/
def total (s : Search n) : ℕ :=
  B.paid s + (s.g_dir_queue.map B.pending).sum + ∑ t, B.thread (s.dir_to_handle t) (s.thread t)

/-- What a step of `t` can change. -/
def share (s : Search n) (t : Fin n) : ℕ :=
  B.paid s + (s.g_dir_queue.map B.pending).sum + B.thread (s.dir_to_handle t) (s.thread t)

theorem thread_signalled (dir : Option DirQueueEntry) (pc : ThreadPc) :
    B.thread dir pc.signalled = B.thread dir pc := by
  cases pc <;> rfl

theorem thread_broadcast (dir : Option DirQueueEntry) (pc : ThreadPc) :
    B.thread dir pc.broadcast = B.thread dir pc := by
  cases pc <;> rfl

/-- What a thread has grows by at most the directory that it is handed. -/
theorem thread_given (dir : Option DirQueueEntry) (child : DirQueueEntry) (pc : ThreadPc) :
    B.thread (some child) pc ≤ B.thread dir pc + B.pending child := by
  have hchild : ((some child).map B.pending).getD 0 = B.pending child := rfl
  cases pc <;> simp only [thread, hchild] <;> omega

/-- A thread that drops its directory loses what it had for it. -/
theorem thread_dropped (dir : Option DirQueueEntry) (pc : ThreadPc) :
    B.thread none pc ≤ B.thread dir pc := by
  have hnone : ((none : Option DirQueueEntry).map B.pending).getD 0 = 0 := rfl
  cases pc <;> simp only [thread, hnone] <;> omega

variable {B} {s s' : Search n} {t : Fin n}

theorem total_change
    (hsame : ∀ u, u ≠ t → B.thread (s'.dir_to_handle u) (s'.thread u) =
      B.thread (s.dir_to_handle u) (s.thread u)) :
    B.total s' + B.share s t = B.total s + B.share s' t := by
  have hsum : (∑ u, B.thread (s'.dir_to_handle u) (s'.thread u)) +
      B.thread (s.dir_to_handle t) (s.thread t) =
      (∑ u, B.thread (s.dir_to_handle u) (s.thread u)) +
        B.thread (s'.dir_to_handle t) (s'.thread t) := sum_change hsame
  unfold Budget.total Budget.share
  omega

/-- A step of `t` to `pc` that leaves what the other threads have as it is. -/
theorem total_goto {pc : ThreadPc} (hthread : s'.thread = s.thread)
    (hdir : ∀ u, u ≠ t → s'.dir_to_handle u = s.dir_to_handle u)
    (hshare : B.paid s' + (s'.g_dir_queue.map B.pending).sum + B.thread (s'.dir_to_handle t) pc ≤
      B.share s t) : B.total (s'.goto t pc) ≤ B.total s := by
  have h : B.total (s'.goto t pc) + B.share s t = B.total s + B.share (s'.goto t pc) t := by
    refine total_change fun u hu => ?_
    rw [show (s'.goto t pc).thread u = s'.thread u from Function.update_of_ne hu .., hthread]
    exact congrArg (fun dir => B.thread dir (s.thread u)) (hdir u hu)
  have hself : B.share (s'.goto t pc) t ≤ B.share s t := by
    have hpc : (s'.goto t pc).thread t = pc := Function.update_self ..
    rw [share, hpc]
    exact hshare
  omega

/-- A step of `t` that leaves all but its program point as it is. -/
theorem total_move {pc pc' : ThreadPc} (hpc : s.thread t = pc) (hthread : s'.thread = s.thread)
    (htrace : s'.trace = s.trace) (hdirs : s'.g_dir_queue = s.g_dir_queue)
    (hdir : s'.dir_to_handle = s.dir_to_handle)
    (hw : B.thread (s.dir_to_handle t) pc' ≤ B.thread (s.dir_to_handle t) pc) :
    B.total (s'.goto t pc') ≤ B.total s := by
  refine total_goto hthread (fun u _ => congrFun hdir u) ?_
  rw [paid, htrace, hdirs, hdir, share, paid, hpc]
  omega

theorem total_signalThread (s : Search n) (u : Fin n) : B.total (s.signalThread u) ≤ B.total s :=
  total_move rfl rfl rfl rfl rfl (Nat.le_of_eq (B.thread_signalled _ _))

/-! ## The steps of a thread -/

theorem total_enqueue (hpc : s.thread t = .enqueue) :
    B.total ({ (s.threadEnqueue t).signalMain with finish_mutex := none }.goto t .barrier) ≤
      B.total s := by
  by_cases hidle : t ∈ s.g_thread_queue
  · rw [Search.threadEnqueue, if_pos hidle]
    exact total_move hpc rfl rfl rfl rfl (Nat.le_refl _)
  · rw [Search.threadEnqueue, if_neg hidle]
    refine total_goto rfl (fun u hu => Function.update_of_ne hu ..) ?_
    show B.paid s + (s.g_dir_queue.map B.pending).sum +
      B.thread (Function.update s.dir_to_handle t none t) .barrier ≤ _
    rw [Function.update_self, share, hpc]
    have hdrop := B.thread_dropped (s.dir_to_handle t) .barrier
    have hsame : B.thread (s.dir_to_handle t) .barrier = B.thread (s.dir_to_handle t) .enqueue := rfl
    omega

theorem total_passBarrier (hpc : s.thread t = .barrier) (hs : s.passBarrier t = some s') :
    B.total s' ≤ B.total s := by
  cases barrierMove hs with
  | launch u queue _ _ _ _ =>
    have hsignal : B.total (Search.signalThread { s with
        g_all_threads_ready := true
        g_thread_queue := queue
        queue_mutex := none } u) ≤ B.total s := total_signalThread ..
    have hbarrier : Function.update s.thread u (s.thread u).signalled t = .barrier := by
      rcases eq_or_ne t u with rfl | hu
      · rw [Function.update_self, hpc]
        rfl
      · rw [Function.update_of_ne hu, hpc]
    have hsame : B.thread (s.dir_to_handle t) .sleep ≤ B.thread (s.dir_to_handle t) .barrier :=
      Nat.le_refl _
    exact Nat.le_trans (total_move hbarrier rfl rfl rfl rfl hsame) hsignal
  | alone _ _ _ _ _ _ => exact total_move hpc rfl rfl rfl rfl (Nat.le_refl _)
  | sleep _ => exact total_move hpc rfl rfl rfl rfl (Nat.le_refl _)

/-- A directory comes into the queue or to a thread, whatever that thread does. -/
theorem total_giveDir (s : Search n) (child : DirQueueEntry) : B.total (s.giveDir child) ≤
    B.total s + (B.event (.given child) + B.pending child) := by
  rcases giveDir_cases s child with ⟨u, queue, -, heq⟩ | ⟨-, heq⟩
  · rw [heq]
    apply Nat.le_trans (total_signalThread ..)
    let s₁ : Search n := { s with
      trace := .given child :: s.trace
      g_thread_queue := queue
      dir_to_handle := Function.update s.dir_to_handle u (some child) }
    have h : B.total s₁ + B.share s u = B.total s + B.share s₁ u :=
      total_change fun v hv =>
        congrArg (fun dir => B.thread dir (s.thread v)) (Function.update_of_ne hv ..)
    have hshare : B.share s₁ u ≤ B.share s u + (B.event (.given child) + B.pending child) := by
      have hgiven := B.thread_given (s.dir_to_handle u) child (s.thread u)
      simp only [s₁, share, paid, List.map_cons, List.sum_cons, Function.update_self]
      omega
    show B.total s₁ ≤ _
    omega
  · rw [heq, total, total, paid, paid]
    simp only [List.map_cons, List.sum_cons]
    omega

theorem total_give {d child : DirQueueEntry} {names : List Name}
    (hpc : s.thread t = .give d child names) :
    B.total ({ s.giveDir child with queue_mutex := none }.goto t (.iterate d names)) ≤
      B.total s := by
  have hgiven : B.total (s.giveDir child) ≤
      B.total s + (B.event (.given child) + B.pending child) := total_giveDir s child
  -- a signal does not move a thread that does not sleep
  have hthread : (s.giveDir child).thread t = .give d child names := by
    rcases giveDir_cases s child with ⟨u, queue, -, heq⟩ | ⟨-, heq⟩
    · rw [heq]
      show Function.update s.thread u (s.thread u).signalled t = _
      rcases eq_or_ne t u with rfl | hu
      · rw [Function.update_self, hpc]
        rfl
      · rw [Function.update_of_ne hu, hpc]
    · rw [heq]
      exact hpc
  let s₁ : Search n := { s.giveDir child with queue_mutex := none }
  have h : B.total (s₁.goto t (.iterate d names)) + B.share (s.giveDir child) t =
      B.total (s.giveDir child) + B.share (s₁.goto t (.iterate d names)) t := by
    refine total_change fun u hu => ?_
    rw [show (s₁.goto t (.iterate d names)).thread u = s₁.thread u from Function.update_of_ne hu ..]
    rfl
  have hshare : B.share (s.giveDir child) t = B.share (s₁.goto t (.iterate d names)) t +
      (B.event (.given child) + B.pending child) := by
    have hpc' : (s₁.goto t (.iterate d names)).thread t = .iterate d names := Function.update_self ..
    rw [share, share, hthread, hpc']
    show B.paid (s.giveDir child) + ((s.giveDir child).g_dir_queue.map B.pending).sum +
        (B.event (.given child) + B.pending child + B.iterating d names) =
      B.paid (s.giveDir child) + ((s.giveDir child).g_dir_queue.map B.pending).sum +
        B.iterating d names + (B.event (.given child) + B.pending child)
    omega
  show B.total (s₁.goto t (.iterate d names)) ≤ _
  omega

/-- `t` prints a line. -/
theorem total_print {d : DirQueueEntry} {d_name : Name} {names : List Name}
    (hpc : s.thread t = .iterate d (d_name :: names)) (files : BitVec 32) (e : Event n)
    (hvisited : B.event e + B.iterating d names ≤ B.iterating d (d_name :: names)) :
    B.total ({ s with g_files_found := files, trace := e :: s.trace }.goto t (.iterate d names)) ≤
      B.total s := by
  refine total_goto rfl (fun _ _ => rfl) ?_
  rw [share, hpc]
  simp only [paid, List.map_cons, List.sum_cons, thread]
  omega

theorem total_threadNext (hs : s.threadNext fs g_search_term t = some s') :
    B.total s' ≤ B.total s := by
  cases threadMove hs with
  | lockSearch hpc _ | wakeStart hpc _ | started hpc _ | waitStart hpc _ | malloc hpc
  | lockQueue hpc _ | wake hpc _ | idle hpc _ | busy hpc _ | lockFinish hpc _ | search hpc _
  | exit hpc _ | lockGive hpc _ | lockFail hpc _ | fail hpc =>
    exact total_move hpc rfl rfl rfl rfl (Nat.le_refl _)
  | enqueue hpc => exact total_enqueue hpc
  | barrier hpc hs => exact total_passBarrier hpc hs
  | takeOwn hpc hdir =>
    refine total_move hpc rfl rfl rfl rfl ?_
    rw [hdir]
    exact Nat.le_refl _
  | @takeNext d queue hpc hdir hqueue =>
    refine total_goto rfl (fun _ _ => rfl) ?_
    rw [share, hpc, hdir, hqueue]
    simp only [paid, List.map_append, List.map_cons, List.map_nil, List.sum_append,
      List.sum_singleton, thread]
    omega
  | openDir hpc => exact total_move hpc rfl rfl rfl rfl (B.opened _)
  | @closeDir d hpc =>
    refine total_goto rfl (fun u hu => Function.update_of_ne hu ..) ?_
    have hclosed := B.closed t d
    rw [share, hpc]
    simp only [paid, List.map_cons, List.sum_cons, Function.update_self, thread, Option.map_none,
      Option.getD_none]
    omega
  | @skip d d_name names hpc hvisit =>
    have hvisited := B.visited d d_name names
    rw [hvisit] at hvisited
    apply total_move hpc rfl rfl rfl rfl
    exact (Nat.le_add_left ..).trans hvisited
  | @found d d_name names path hpc hvisit =>
    have hvisited := B.visited d d_name names
    rw [hvisit] at hvisited
    exact total_print hpc _ _ hvisited
  | @denied d d_name names path hpc hvisit =>
    have hvisited := B.visited d d_name names
    rw [hvisit] at hvisited
    exact total_print hpc s.g_files_found _ hvisited
  | @folder d child d_name names hpc hvisit =>
    have hvisited := B.visited d d_name names
    rw [hvisit] at hvisited
    exact total_move hpc rfl rfl rfl rfl hvisited
  | give hpc => exact total_give hpc

/-- What a thread had for its directory is lost with it. -/
theorem total_threadFault {f : Fault} (hs : s.threadFault t f = some s') :
    B.total s' ≤ B.total s := by
  have hgiveUp : ∀ (d : DirQueueEntry) (queue : Bool),
      B.total ({ s with trace := .failedOn d :: s.trace }.goto t (.lockFail queue)) ≤ B.total s := by
    intro d queue
    refine total_goto rfl (fun _ _ => rfl) ?_
    have hfailed := B.failed d
    rw [share]
    simp only [paid, List.map_cons, List.sum_cons, thread]
    omega
  cases faultMove hs with
  | malloc hpc => exact total_move hpc rfl rfl rfl rfl (Nat.zero_le _)
  | openDir _ => exact hgiveUp _ false
  | stat _ _ => exact hgiveUp _ false
  | give _ _ => exact hgiveUp _ true

/-! ## All steps -/

theorem total_mainNext (hs : s.mainNext = some s') : B.total s' ≤ B.total s := by
  have F := mainFrame hs
  apply Nat.le_of_eq
  unfold total paid
  rw [F.trace, F.dirs, F.dir]
  congr 1
  refine Finset.sum_congr rfl fun u _ => ?_
  rcases F.thread with h | h | h
  · rw [h]
  · rw [h, B.thread_broadcast]
  · rw [h, B.thread_signalled]

/-- **No step makes the total grow.** -/
theorem total_step {a : Action n} (hs : SearchStep fs g_search_term s a s') :
    B.total s' ≤ B.total s := by
  cases a with
  | main => exact total_mainNext hs
  | thread t => exact total_threadNext hs
  | fault t f => exact total_threadFault hs
  | mainSpurious =>
    obtain ⟨-, rfl⟩ := mainSpurious_cases hs
    exact Nat.le_refl _
  | threadSpurious t =>
    rcases threadSpurious_cases hs with ⟨hpc, rfl⟩ | ⟨hpc, rfl⟩
    · exact total_move hpc rfl rfl rfl rfl (Nat.le_refl _)
    · exact total_move hpc rfl rfl rfl rfl (Nat.le_refl _)

/-- **What is paid in a run is at most what the root directory had.** -/
theorem total_run {root : Path} {h : List (Action n)}
    (hr : Run (SearchStep fs g_search_term) (Search.init n root) h s) :
    B.paid s ≤ B.event (.given ⟨root, root⟩) + B.pending ⟨root, root⟩ := by
  have htotal : B.total s ≤ B.event (.given ⟨root, root⟩) + B.pending ⟨root, root⟩ := by
    refine hr.invariant (P := fun s => B.total s ≤ _) ?_ fun s a s' hle hs => (total_step hs).trans hle
    simp [total, paid, Search.init, thread]
  unfold total at htotal
  omega

end Budget

end OSCourse.Pfind
