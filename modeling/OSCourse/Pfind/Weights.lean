import OSCourse.Pfind.Invariant

/-!
# Weights that no step changes

A directory is in the queue, handed to a thread, in a thread's hands or finished, and what a thread
finds in it is in the trace.  Weights of all these places that agree along the way of a directory
add up to the same number in every state of a run.

* `Weights` — the weights, with the laws by which they agree.
* `Weights.total` — the sum over the trace, the directory queue and the threads.
* `total_threadNext`, `total_fileSystem`, `total_mainNext` — **no step changes the sum**.
-/

set_option autoImplicit false

namespace OSCourse.Pfind

open Mutex Transition

/-- The weight of what is done for one name, next to that of the names that remain. -/
def Visit.weight {n : Nat} (event : Event n → ℤ) (pending : DirQueueEntry → ℤ) : Visit → ℤ
  | .skip => 0
  | .found path => event (.found path)
  | .denied path => event (.denied path)
  | .give child => event (.given child) + pending child

structure Weights (fs : FileSys) (g_search_term : List UInt8) (n : Nat) where
  /-- a directory that waits in the queue or for its thread -/
  pending : DirQueueEntry → ℤ
  /-- a directory in the hands of a thread, by the names still to read -/
  iterating : DirQueueEntry → List Name → ℤ
  event : Event n → ℤ
  opened : ∀ d, iterating d (fs.readdir d.path_name) = pending d
  visited : ∀ d d_name names, iterating d (d_name :: names) =
    (visit fs g_search_term d d_name).weight event pending + iterating d names
  closed : ∀ t d, event (.iterated t d) = iterating d []

variable {n : Nat} {fs : FileSys} {g_search_term : List UInt8} (W : Weights fs g_search_term n)

/-- The weight of a thread at a program point, with its `dir_to_handle`. -/
def Weights.thread (dir_to_handle : Option DirQueueEntry) : ThreadPc → ℤ
  | .openDir d => W.pending d
  | .iterate d names => W.iterating d names
  | .lockGive d child names | .give d child names =>
    W.event (.given child) + W.pending child + W.iterating d names
  | .lockFail _ | .fail _ | .failed _ => 0
  | .start | .testStart | .waitStart | .wakeStart | .malloc | .lockQueue | .testSleep | .lockFinish
  | .enqueue | .barrier | .sleep | .wake | .testSearch | .take | .exited =>
    (dir_to_handle.map W.pending).getD 0

def Weights.total (s : Search n) : ℤ :=
  (s.trace.map W.event).sum + (s.g_dir_queue.map W.pending).sum +
    ∑ t, W.thread (s.dir_to_handle t) (s.thread t)

theorem Weights.thread_signalled (dir : Option DirQueueEntry) (pc : ThreadPc) :
    W.thread dir pc.signalled = W.thread dir pc := by
  cases pc <;> rfl

theorem Weights.thread_broadcast (dir : Option DirQueueEntry) (pc : ThreadPc) :
    W.thread dir pc.broadcast = W.thread dir pc := by
  cases pc <;> rfl

variable {W} {s s' : Search n} {t : Fin n} {root : DirQueueEntry}

/-- What a step of `t` can change. -/
def Weights.share (W : Weights fs g_search_term n) (s : Search n) (t : Fin n) : ℤ :=
  (s.trace.map W.event).sum + (s.g_dir_queue.map W.pending).sum +
    W.thread (s.dir_to_handle t) (s.thread t)

theorem Weights.total_change
    (hsame : ∀ u, u ≠ t → W.thread (s'.dir_to_handle u) (s'.thread u) =
      W.thread (s.dir_to_handle u) (s.thread u)) :
    W.total s' + W.share s t = W.total s + W.share s' t := by
  have hsum : (∑ u, W.thread (s'.dir_to_handle u) (s'.thread u)) +
      W.thread (s.dir_to_handle t) (s.thread t) =
      (∑ u, W.thread (s.dir_to_handle u) (s.thread u)) +
        W.thread (s'.dir_to_handle t) (s'.thread t) := sum_change hsame
  unfold Weights.total Weights.share
  omega

/-- A step of `t` to `pc`, which leaves the weights of the other threads as they are. -/
theorem Weights.total_goto {pc : ThreadPc} (hthread : s'.thread = s.thread)
    (hdir : ∀ u, u ≠ t → s'.dir_to_handle u = s.dir_to_handle u)
    (hshare : (s'.trace.map W.event).sum + (s'.g_dir_queue.map W.pending).sum +
      W.thread (s'.dir_to_handle t) pc = W.share s t) : W.total (s'.goto t pc) = W.total s := by
  have h : W.total (s'.goto t pc) + W.share s t = W.total s + W.share (s'.goto t pc) t := by
    refine Weights.total_change fun u hu => ?_
    rw [Search.goto_of_ne _ _ hu, hthread]
    exact congrArg (fun dir => W.thread dir (s.thread u)) (hdir u hu)
  have hself : W.share (s'.goto t pc) t = W.share s t := by
    rw [← hshare, Weights.share, Search.goto_self]; rfl
  omega

/-- A step of `t` that leaves all but its program point as it is. -/
theorem Weights.total_move {pc pc' : ThreadPc} (hpc : s.thread t = pc)
    (hthread : s'.thread = s.thread) (htrace : s'.trace = s.trace)
    (hdirs : s'.g_dir_queue = s.g_dir_queue) (hdir : s'.dir_to_handle = s.dir_to_handle)
    (hw : W.thread (s.dir_to_handle t) pc' = W.thread (s.dir_to_handle t) pc) :
    W.total (s'.goto t pc') = W.total s := by
  refine Weights.total_goto hthread (fun u _ => congrFun hdir u) ?_
  rw [htrace, hdirs, hdir, hw, ← hpc]; rfl

theorem total_signalThread (s : Search n) (u : Fin n) : W.total (s.signalThread u) = W.total s :=
  Weights.total_move rfl rfl rfl rfl rfl (W.thread_signalled _ _)

/-! ## The steps of a thread -/

theorem total_enqueue (I : Inv root s) (hpc : s.thread t = .enqueue) :
    W.total ({ (s.threadEnqueue t).signalMain with finish_mutex := none }.goto t .barrier) =
      W.total s := by
  have hA := I.allowed t
  rw [hpc] at hA
  obtain ⟨-, hidle, hdir, -⟩ := hA
  have hidle : t ∉ s.g_thread_queue := hidle
  have hdir : s.dir_to_handle t = none := hdir
  rw [Search.threadEnqueue, if_neg hidle]
  refine Weights.total_move hpc rfl rfl rfl ?_ rfl
  show Function.update s.dir_to_handle t none = s.dir_to_handle
  rw [← hdir]; exact Function.update_eq_self ..

theorem total_passBarrier (hpc : s.thread t = .barrier) (hs : s.passBarrier t = some s') :
    W.total s' = W.total s := by
  cases barrierMove hs with
  | launch u queue _ _ _ _ =>
    have hsignal : W.total (Search.signalThread { s with
        g_all_threads_ready := true
        g_thread_queue := queue
        queue_mutex := none } u) = W.total s :=
      total_signalThread ..
    rw [← hsignal]
    refine Weights.total_move (show _ = ThreadPc.barrier from ?_) rfl rfl rfl rfl rfl
    by_cases hut : t = u
    · subst hut
      rw [Search.signalThread, Search.goto_self]
      show (s.thread t).signalled = .barrier
      rw [hpc]; rfl
    · rw [Search.signalThread, Search.goto_of_ne _ _ hut]; exact hpc
  | alone _ _ _ _ _ _ => exact Weights.total_move hpc rfl rfl rfl rfl rfl
  | sleep _ => exact Weights.total_move hpc rfl rfl rfl rfl rfl

/-- The weight of a directory goes from the hands of `t` to the idle thread `u`. -/
theorem total_handOver {d child : DirQueueEntry} {names : List Name}
    (hpc : s.thread t = .give d child names) {u : Fin n} (hut : u ≠ t) (hu : s.thread u = .sleep)
    (hdir : s.dir_to_handle u = none) (queue : List (Fin n)) :
    W.total ({ Search.signalThread { s with
      g_thread_queue := queue
      dir_to_handle := Function.update s.dir_to_handle u (some child)
      trace := .given child :: s.trace } u with queue_mutex := none }.goto t (.iterate d names)) =
      W.total s := by
  rw [Search.signalThread_eq (u := u) (by exact hu)]
  generalize hs' : Search.goto _ t (.iterate d names) = s'
  let s₁ : Search n := { s with
    dir_to_handle := Function.update s.dir_to_handle u (some child)
    trace := .given child :: s.trace }
  have htaken : W.total s₁ = W.total s + W.event (.given child) + W.pending child := by
    have h : W.total s₁ + W.share s u = W.total s + W.share s₁ u :=
      Weights.total_change fun v hv =>
        congrArg (fun dir => W.thread dir (s.thread v)) (Function.update_of_ne hv ..)
    have hshare : W.share s₁ u = W.share s u + W.event (.given child) + W.pending child := by
      simp [s₁, Weights.share, hu, hdir, Weights.thread]
      omega
    omega
  have hwoken : W.total (s₁.goto u .wake) = W.total s₁ :=
    Weights.total_move (show _ = ThreadPc.sleep from hu) rfl rfl rfl rfl rfl
  have hgiven : W.total s' + W.share (s₁.goto u .wake) t =
      W.total (s₁.goto u .wake) + W.share s' t := by
    subst hs'
    exact Weights.total_change fun v hv => by rw [Search.goto_of_ne _ _ hv]; rfl
  have hshare : W.share (s₁.goto u .wake) t =
      W.share s' t + W.event (.given child) + W.pending child := by
    have ht : (s₁.goto u .wake).thread t = .give d child names :=
      (Search.goto_of_ne _ _ hut.symm).trans hpc
    subst hs'
    rw [Weights.share, Weights.share, ht, Search.goto_self]
    show (s₁.trace.map W.event).sum + (s.g_dir_queue.map W.pending).sum +
        (W.event (.given child) + W.pending child + W.iterating d names) =
      (s₁.trace.map W.event).sum + (s.g_dir_queue.map W.pending).sum + W.iterating d names +
        W.event (.given child) + W.pending child
    omega
  omega

theorem total_give (I : Inv root s) (L : Locks s) {d child : DirQueueEntry} {names : List Name}
    (hpc : s.thread t = .give d child names) :
    W.total ({ s.giveDir child with queue_mutex := none }.goto t (.iterate d names)) =
      W.total s := by
  have hA := I.allowed t
  rw [hpc] at hA
  obtain ⟨hphase, hidle, -⟩ := hA
  rcases giveDir_cases s child with ⟨u, queue, hqueue, heq⟩ | ⟨-, heq⟩
  · have huq : u ∈ s.g_thread_queue := by rw [hqueue]; simp
    have hut : u ≠ t := fun h => hidle (h ▸ huq)
    have hsleep := I.asleep L hphase (t := t) (by rw [hpc]; rfl) huq hut
    rw [heq]
    exact total_handOver hpc hut hsleep (I.idle_cases hphase huq).2 queue
  · rw [heq]
    refine Weights.total_goto rfl (fun _ _ => rfl) ?_
    rw [Weights.share, hpc]
    show ((.given child :: s.trace).map W.event).sum +
      ((child :: s.g_dir_queue).map W.pending).sum + W.iterating d names = _
    simp only [List.map_cons, List.sum_cons, Weights.thread]
    omega

/-- `t` prints a line. -/
theorem total_print {d : DirQueueEntry} {d_name : Name} {names : List Name}
    (hpc : s.thread t = .iterate d (d_name :: names)) (files : BitVec 32) (e : Event n)
    (hvisited : W.iterating d (d_name :: names) = W.event e + W.iterating d names) :
    W.total ({ s with g_files_found := files, trace := e :: s.trace }.goto t (.iterate d names)) =
      W.total s := by
  refine Weights.total_goto rfl (fun _ _ => rfl) ?_
  rw [Weights.share, hpc]
  show ((e :: s.trace).map W.event).sum + (s.g_dir_queue.map W.pending).sum + W.iterating d names =
    (s.trace.map W.event).sum + (s.g_dir_queue.map W.pending).sum + W.iterating d (d_name :: names)
  rw [hvisited, List.map_cons, List.sum_cons]
  omega

theorem total_threadNext (I : Inv root s) (L : Locks s)
    (hs : s.threadNext fs g_search_term t = some s') : W.total s' = W.total s := by
  cases threadMove hs with
  | lockSearch hpc _ | wakeStart hpc _ | started hpc _ | waitStart hpc _ | malloc hpc
  | lockQueue hpc _ | wake hpc _ | idle hpc _ | busy hpc _ | lockFinish hpc _ | search hpc _
  | exit hpc _ | lockGive hpc _ | lockFail hpc _ | fail hpc =>
    exact Weights.total_move hpc rfl rfl rfl rfl rfl
  | enqueue hpc => exact total_enqueue I hpc
  | barrier hpc hs => exact total_passBarrier hpc hs
  | takeOwn hpc hdir =>
    refine Weights.total_move hpc rfl rfl rfl rfl ?_
    rw [hdir]; rfl
  | @takeNext d queue hpc hdir hqueue =>
    refine Weights.total_goto rfl (fun _ _ => rfl) ?_
    rw [Weights.share, hpc, hdir, hqueue]
    show (s.trace.map W.event).sum + (queue.map W.pending).sum + W.pending d =
      (s.trace.map W.event).sum + ((queue ++ [d]).map W.pending).sum + 0
    simp only [List.map_append, List.map_cons, List.map_nil, List.sum_append, List.sum_singleton]
    omega
  | openDir hpc => exact Weights.total_move hpc rfl rfl rfl rfl (W.opened _)
  | @closeDir d hpc =>
    refine Weights.total_goto rfl (fun u hu => Function.update_of_ne hu ..) ?_
    rw [Weights.share, hpc]
    show ((.iterated t d :: s.trace).map W.event).sum + (s.g_dir_queue.map W.pending).sum +
      W.thread (Function.update s.dir_to_handle t none t) .lockQueue = _
    rw [Function.update_self, List.map_cons, List.sum_cons, W.closed]
    show W.iterating d [] + (s.trace.map W.event).sum + (s.g_dir_queue.map W.pending).sum + 0 =
      (s.trace.map W.event).sum + (s.g_dir_queue.map W.pending).sum + W.iterating d []
    omega
  | @skip d d_name names hpc hvisit =>
    have hvisited := W.visited d d_name names
    rw [hvisit] at hvisited
    refine Weights.total_move hpc rfl rfl rfl rfl ?_
    exact (hvisited.trans (Int.zero_add _)).symm
  | @found d d_name names path hpc hvisit =>
    have hvisited := W.visited d d_name names
    rw [hvisit] at hvisited
    exact total_print hpc _ _ hvisited
  | @denied d d_name names path hpc hvisit =>
    have hvisited := W.visited d d_name names
    rw [hvisit] at hvisited
    exact total_print hpc s.g_files_found _ hvisited
  | @folder d child d_name names hpc hvisit =>
    have hvisited := W.visited d d_name names
    rw [hvisit] at hvisited
    exact Weights.total_move hpc rfl rfl rfl rfl hvisited.symm
  | give hpc => exact total_give I L hpc

/-- A directory on which its thread fails is given up, at its weight. -/
theorem total_threadFault {f : Fault} (I : Inv root s) (hf : f ≠ .dirEntry)
    (hfailed : ∀ d names, W.event (.failedOn d) = W.iterating d names)
    (hs : s.threadFault t f = some s') : W.total s' = W.total s := by
  have hgiveUp : ∀ {pc : ThreadPc} (d : DirQueueEntry), s.thread t = pc →
      W.thread (s.dir_to_handle t) pc = W.event (.failedOn d) →
      W.total ({ s with trace := .failedOn d :: s.trace }.goto t (.lockFail false)) = W.total s := by
    intro pc d hpc hw
    refine Weights.total_goto rfl (fun _ _ => rfl) ?_
    rw [Weights.share, hpc, hw]
    show ((.failedOn d :: s.trace).map W.event).sum + (s.g_dir_queue.map W.pending).sum + 0 = _
    rw [List.map_cons, List.sum_cons]
    omega
  cases faultMove hs with
  | malloc hpc =>
    have hA := I.allowed t
    rw [hpc] at hA
    have hdir : s.dir_to_handle t = none := hA.2.2.2
    refine Weights.total_move hpc rfl rfl rfl rfl ?_
    rw [hdir]; rfl
  | @openDir d hpc => exact hgiveUp d hpc ((W.opened d).symm.trans (hfailed d _).symm)
  | @stat d _ _ hpc _ => exact hgiveUp d hpc (hfailed d _).symm
  | give _ _ => exact absurd rfl hf

/-! ## The steps of `main` -/

theorem total_mainNext (hs : s.mainNext = some s') : W.total s' = W.total s := by
  have F := mainFrame hs
  unfold Weights.total
  rw [F.trace, F.dirs, F.dir]
  congr 1
  refine Finset.sum_congr rfl fun u _ => ?_
  rcases F.thread with h | h | h
  · rw [h]
  · rw [h, W.thread_broadcast]
  · rw [h, W.thread_signalled]

/-! ## Runs -/

def Action.isFault : Action n → Bool
  | .fault .. => true
  | _ => false

theorem total_step {a : Action n} (I : Inv root s) (L : Locks s) (ha : a.Orderly)
    (hfailed : a.isFault = true → ∀ d names, W.event (.failedOn d) = W.iterating d names)
    (hs : SearchStep fs g_search_term s a s') : W.total s' = W.total s := by
  cases a with
  | main => exact total_mainNext hs
  | thread t => exact total_threadNext I L hs
  | fault t f => exact total_threadFault I ha (hfailed rfl) hs
  | mainSpurious => exact absurd ha id
  | threadSpurious t => exact absurd ha id

theorem total_init (n : Nat) (W : Weights fs g_search_term n) (root : Path) :
    W.total (Search.init n root) = W.event (.given ⟨root, root⟩) + W.pending ⟨root, root⟩ := by
  simp [Weights.total, Search.init, Weights.thread]

/-- **All along a run the weights add up to those of the root directory.** -/
theorem total_run {root : Path} {h : List (Action n)} (hn : 0 < n)
    (hr : Run (SearchStep fs g_search_term) (Search.init n root) h s) (ha : ∀ a ∈ h, a.Orderly)
    (hfailed : ∀ a ∈ h, a.isFault = true → ∀ d names, W.event (.failedOn d) = W.iterating d names) :
    W.total s = W.event (.given ⟨root, root⟩) + W.pending ⟨root, root⟩ := by
  have hrun : Good root s ∧
      W.total s = W.event (.given ⟨root, root⟩) + W.pending ⟨root, root⟩ := by
    refine hr.invariantOn (P := fun s : Search n => Good root s ∧
        W.total s = W.event (.given ⟨root, root⟩) + W.pending ⟨root, root⟩)
      (Q := fun _ (a : Action n) => a.Orderly ∧
        (a.isFault = true → ∀ d names, W.event (.failedOn d) = W.iterating d names))
      ⟨good_init hn root, total_init n W root⟩ (fun s a s' hs ha hstep => ?_)
      (Run.eachStep_of_forall fun a hmem => ⟨ha a hmem, hfailed a hmem⟩)
    exact ⟨good_step hs.1 ha.1 hstep,
      (total_step hs.1.inv hs.1.locks ha.1 ha.2 hstep).trans hs.2⟩
  exact hrun.2

/-! ## After the wait loop -/

/-- `main` has left its wait loop. -/
def Search.Over (s : Search n) : Prop := s.main.phase = .stopping ∨ s.main.phase = .stopped

/-- When `main` has left its wait loop, a thread that has not failed is idle. -/
theorem Inv.over_idle (I : Inv root s) (hover : s.Over) (ht : (s.thread t).isFailed = false) :
    t ∈ s.g_thread_queue ∧ s.g_all_threads_ready = true ∧ s.dir_to_handle t = none :=
  (I.allowed t).over hover ht

/-- When `main` has left its wait loop and some thread has not failed, the directory queue is
empty. -/
theorem Inv.over_empty (I : Inv root s) (hover : s.Over) (ht : (s.thread t).isFailed = false) :
    s.g_dir_queue = [] := by
  obtain ⟨hidle, hready, -⟩ := I.over_idle hover ht
  by_contra hdirs
  -- the thread that the barrier woke would still be on its way to the root directory
  obtain ⟨u, hu⟩ := I.launch hready hdirs (List.ne_nil_of_mem hidle)
  have hfailed : (s.thread u).isFailed = false := by
    have hpoint := hu.point
    cases hpc : s.thread u <;> rw [hpc] at hpoint <;> first | rfl | cases hpoint
  exact hu.working (I.over_idle hover hfailed).1

theorem total_over (I : Inv root s) (hover : s.Over) (ht : (s.thread t).isFailed = false) :
    W.total s = (s.trace.map W.event).sum := by
  have hthreads : ∀ u, W.thread (s.dir_to_handle u) (s.thread u) = 0 := by
    intro u
    cases hfailed : (s.thread u).isFailed with
    | true => cases hpc : s.thread u <;> rw [hpc] at hfailed <;> first | rfl | cases hfailed
    | false =>
      obtain ⟨hidle, -, hdir⟩ := I.over_idle hover hfailed
      have hA := I.allowed u
      have hidle : (s.view u).idle := hidle
      rw [hdir]
      cases hpc : s.thread u <;> rw [hpc] at hA <;> first | rfl | exact absurd hidle hA.2.1
  rw [Weights.total, I.over_empty hover ht, Finset.sum_eq_zero fun u _ => hthreads u]
  simp

/-! ## The directories that are given, iterated and failed on -/

def Event.given? : Event n → Option DirQueueEntry
  | .given d => some d
  | _ => none

def Event.iterated? : Event n → Option DirQueueEntry
  | .iterated _ d => some d
  | _ => none

def Event.failedOn? : Event n → Option DirQueueEntry
  | .failedOn d => some d
  | _ => none

/-- The directories put into the queue or handed to a thread. -/
def Search.given (s : Search n) : List DirQueueEntry := s.trace.filterMap Event.given?

/-- The directories iterated to their end. -/
def Search.iterated (s : Search n) : List DirQueueEntry := s.trace.filterMap Event.iterated?

/-- The directories on which their thread failed. -/
def Search.failedOn (s : Search n) : List DirQueueEntry := s.trace.filterMap Event.failedOn?

/-- The weights that count the directories with `p`; those failed on are worth `c`. -/
def ledger (fs : FileSys) (g_search_term : List UInt8) (n : Nat) (p : DirQueueEntry → Bool) (c : ℤ) :
    Weights fs g_search_term n where
  pending d := if p d then 1 else 0
  iterating d _ := if p d then 1 else 0
  event
    | .given d => if p d then -1 else 0
    | .iterated _ d => if p d then 1 else 0
    | .failedOn d => if p d then c else 0
    | .found _ | .denied _ => 0
  opened _ := rfl
  visited d d_name names := by
    cases visit fs g_search_term d d_name with
    | give child => cases hc : p child <;> simp [Visit.weight, hc]
    | _ => exact (Int.zero_add _).symm
  closed _ _ := rfl

theorem ledger_sum (p : DirQueueEntry → Bool) (c : ℤ) (trace : List (Event n)) :
    (trace.map (ledger fs g_search_term n p c).event).sum =
      ((trace.filterMap Event.iterated?).countP p : ℤ) +
        c * (trace.filterMap Event.failedOn?).countP p - (trace.filterMap Event.given?).countP p := by
  induction trace with
  | nil => simp
  | cons e trace ih =>
    rw [List.map_cons, List.sum_cons, ih]
    cases e with
    | found _ | denied _ => exact Int.zero_add _
    | given d | iterated t d | failedOn d =>
      simp only [ledger, Event.given?, Event.iterated?, Event.failedOn?, List.filterMap_cons,
        List.countP_cons]
      cases p d
      · simp
      · simp only [if_true, Nat.cast_add, Nat.cast_one]
        ring

/-- After the wait loop, what was given has been iterated or failed on. -/
theorem given_countP {root : Path} {h : List (Action n)} (hn : 0 < n)
    (hr : Run (SearchStep fs g_search_term) (Search.init n root) h s) (ha : ∀ a ∈ h, a.Orderly)
    (hover : s.Over) (ht : (s.thread t).isFailed = false) (p : DirQueueEntry → Bool) (c : ℤ)
    (hc : c = 1 ∨ ∀ a ∈ h, a.isFault = false) :
    (s.given.countP p : ℤ) = s.iterated.countP p + c * s.failedOn.countP p := by
  have G := good_run hn hr ha
  have hzero := total_run (W := ledger fs g_search_term n p c) hn hr ha fun a hmem hfault d _ => by
    rcases hc with rfl | hnone
    · rfl
    · rw [hnone a hmem] at hfault; cases hfault
  rw [total_over G.inv hover ht, ledger_sum] at hzero
  have hroot : (ledger fs g_search_term n p c).event (.given ⟨root, root⟩) +
      (ledger fs g_search_term n p c).pending ⟨root, root⟩ = 0 := by
    simp only [ledger]
    split <;> rfl
  rw [hroot] at hzero
  show ((s.trace.filterMap Event.given?).countP p : ℤ) =
    (s.trace.filterMap Event.iterated?).countP p + c * (s.trace.filterMap Event.failedOn?).countP p
  omega

end OSCourse.Pfind
