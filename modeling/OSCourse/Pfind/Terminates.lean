import OSCourse.Lib.Halting
import OSCourse.Pfind.Held
import OSCourse.Pfind.Listing

/-!
# The search ends

Where directories cannot lie below each other without end, the search takes finitely many steps:
those of the threads that wait or fail, of `main`, and those for each name in each directory.

* `work` — the steps that a directory is good for, down to a given depth.
* `ThreadPc.load`, `MainPc.load` — the steps that a party has before it, until it waits or ends.
* `Search.rank` — what is left to do; a signal to a party that waits is paid by who gives it.
* `search_halts` — **without spurious returns of `pthread_cond_wait` every step lowers the rank**.
-/

set_option autoImplicit false

namespace OSCourse.Pfind

open Mutex Transition

variable {n : Nat} (fs : FileSys) (height : Path → Nat)

/-! ## What is left to do -/

/-- The steps that a directory is good for, when those that are `k` levels below it hold nothing. -/
def work : Nat → Path → Nat
  | 0, _ => 11
  | k + 1, dir => 11 + ((fs.readdir dir).map fun name => 12 + work k (newPathname dir name)).sum

def dirWork (dir : Path) : Nat := work fs (height dir + 1) dir

/-- The steps for the names that remain, and back to `lock(queue_mutex)`. -/
def readWork (dir : Path) (names : List Name) : Nat :=
  10 + (names.map fun name => 12 + work fs (height dir) (newPathname dir name)).sum

def handedWork (dir_to_handle : Option DirQueueEntry) : Nat :=
  (dir_to_handle.map fun d => dirWork fs height d.path_name).getD 0

/-- The steps of a thread until it waits or ends; its `dir_to_handle` comes on top until it has opened
a directory. -/
def ThreadPc.load (dir_to_handle : Option DirQueueEntry) : ThreadPc → Nat
  | .start | .wakeStart => 12 + handedWork fs height dir_to_handle
  | .testStart => 11 + handedWork fs height dir_to_handle
  | .malloc => 10 + handedWork fs height dir_to_handle
  | .lockQueue | .wake => 9 + handedWork fs height dir_to_handle
  | .testSleep => 8 + handedWork fs height dir_to_handle
  | .lockFinish => 7 + handedWork fs height dir_to_handle
  | .enqueue => 6 + handedWork fs height dir_to_handle
  | .testSearch => 2 + handedWork fs height dir_to_handle
  | .barrier | .take => 1 + handedWork fs height dir_to_handle
  | .waitStart | .sleep | .exited => handedWork fs height dir_to_handle
  | .openDir d => dirWork fs height d.path_name
  | .iterate d names => readWork fs height d.path_name names
  | .lockGive d child names =>
    readWork fs height d.path_name names + dirWork fs height child.path_name + 11
  | .give d child names =>
    readWork fs height d.path_name names + dirWork fs height child.path_name + 10
  | .lockFail _ => 6
  | .fail _ => 5
  | .failed _ => 0

/-- The steps of `main` until it waits or ends, with what its signals to `n` threads cost. -/
def MainPc.load (n : Nat) : MainPc → Nat
  | .lockSearch => 22 * n + 10
  | .raise => 22 * n + 9
  | .lockFinish | .waking => 10 * n + 8
  | .readDirs => 10 * n + 7
  | .readCounts => 10 * n + 6
  | .readFailed => 10 * n + 5
  | .waiting | .stopSearch => 10 * n + 4
  | .lockQueue => 10 * n + 3
  | .signalAll => 10 * n + 2
  | .join i => n - i + 1
  | .done => 0

def queueWork (g_dir_queue : List DirQueueEntry) : Nat :=
  (g_dir_queue.map fun d => dirWork fs height d.path_name).sum

/-- The signal of the start barrier. -/
def barrierWork (g_all_threads_ready : Bool) : Nat := if g_all_threads_ready then 0 else 9

/-- What a step of `t` can change. -/
def Search.share (s : Search n) (t : Fin n) : Nat :=
  queueWork fs height s.g_dir_queue + (s.thread t).load fs height (s.dir_to_handle t) +
    barrierWork s.g_all_threads_ready + s.main.load n

/-- What is left to do. -/
def Search.rank (s : Search n) : Nat :=
  queueWork fs height s.g_dir_queue + ∑ t, (s.thread t).load fs height (s.dir_to_handle t) +
    barrierWork s.g_all_threads_ready + s.main.load n

/-! ## The work of a directory -/

theorem work_le_succ (k : Nat) (dir : Path) : work fs k dir ≤ work fs (k + 1) dir := by
  induction k generalizing dir with
  | zero => exact Nat.le_add_right ..
  | succ k ih =>
    rw [work, work]
    refine Nat.add_le_add_left (List.sum_le_sum fun name _ => ?_) 11
    exact Nat.add_le_add_left (ih (newPathname dir name)) 12

theorem work_mono {k l : Nat} (h : k ≤ l) (dir : Path) : work fs k dir ≤ work fs l dir := by
  induction h with
  | refl => exact Nat.le_refl _
  | step _ ih => exact ih.trans (work_le_succ fs _ dir)

theorem dirWork_eq (dir : Path) : dirWork fs height dir = readWork fs height dir (fs.readdir dir) + 1 := by
  rw [dirWork, work, readWork]
  omega

theorem readWork_cons (dir : Path) (name : Name) (names : List Name) :
    readWork fs height dir (name :: names) =
      readWork fs height dir names + work fs (height dir) (newPathname dir name) + 12 := by
  rw [readWork, readWork, List.map_cons, List.sum_cons]
  omega

/-- A directory that lies lower is worth what is reserved for its name. -/
theorem dirWork_le {dir : Path} {name : Name} (hlower : height (newPathname dir name) < height dir) :
    dirWork fs height (newPathname dir name) ≤ work fs (height dir) (newPathname dir name) :=
  work_mono fs hlower _

variable {fs height} {g_search_term : List UInt8} {s s' : Search n} {t : Fin n}

/-! ## Signals -/

theorem ThreadPc.load_signalled (dir : Option DirQueueEntry) (pc : ThreadPc) :
    pc.signalled.load fs height dir ≤ pc.load fs height dir + 9 := by
  cases pc <;> simp only [ThreadPc.signalled, ThreadPc.load] <;> omega

theorem ThreadPc.load_broadcast (dir : Option DirQueueEntry) (pc : ThreadPc) :
    pc.broadcast.load fs height dir ≤ pc.load fs height dir + 12 := by
  cases pc <;> simp only [ThreadPc.broadcast, ThreadPc.load] <;> omega

theorem MainPc.load_signalled (pc : MainPc) : pc.signalled.load n ≤ pc.load n + 4 := by
  cases pc <;> simp only [MainPc.signalled, MainPc.load] <;> omega

/-- A directory that a thread is given is on top of what it has to do. -/
theorem ThreadPc.load_given (dir : Option DirQueueEntry) (child : DirQueueEntry) (pc : ThreadPc) :
    pc.load fs height (some child) ≤ pc.load fs height dir + dirWork fs height child.path_name := by
  have hchild : handedWork fs height (some child) = dirWork fs height child.path_name := rfl
  cases pc <;> simp only [ThreadPc.load, hchild] <;> omega

/-! ## The steps of a thread -/

theorem rank_change (hsame : ∀ u, u ≠ t → (s'.thread u).load fs height (s'.dir_to_handle u) =
      (s.thread u).load fs height (s.dir_to_handle u)) :
    s'.rank fs height + s.share fs height t = s.rank fs height + s'.share fs height t := by
  have hsum : (∑ u, (s'.thread u).load fs height (s'.dir_to_handle u)) +
      (s.thread t).load fs height (s.dir_to_handle t) =
      (∑ u, (s.thread u).load fs height (s.dir_to_handle u)) +
        (s'.thread t).load fs height (s'.dir_to_handle t) := sum_change hsame
  unfold Search.rank Search.share
  omega

/-- A step of `t` to `pc` that leaves the other threads as they are. -/
theorem rank_goto {pc : ThreadPc} (hthread : s'.thread = s.thread)
    (hdir : ∀ u, u ≠ t → s'.dir_to_handle u = s.dir_to_handle u)
    (hshare : queueWork fs height s'.g_dir_queue +
      pc.load fs height (s'.dir_to_handle t) + barrierWork s'.g_all_threads_ready +
      s'.main.load n < s.share fs height t) : (s'.goto t pc).rank fs height < s.rank fs height := by
  have h : (s'.goto t pc).rank fs height + s.share fs height t =
      s.rank fs height + (s'.goto t pc).share fs height t := by
    refine rank_change fun u hu => ?_
    rw [Search.goto_of_ne _ _ hu, hthread]
    exact congrArg (fun dir => (s.thread u).load fs height dir) (hdir u hu)
  have hself : (s'.goto t pc).share fs height t < s.share fs height t := by
    rw [Search.share, Search.goto_self]
    exact hshare
  omega

/-- A step of `t` that leaves all but its program point as it is. -/
theorem rank_move {pc pc' : ThreadPc} (hpc : s.thread t = pc) (hthread : s'.thread = s.thread)
    (hdirs : s'.g_dir_queue = s.g_dir_queue) (hdir : s'.dir_to_handle = s.dir_to_handle)
    (hready : s'.g_all_threads_ready = s.g_all_threads_ready) (hmain : s'.main = s.main)
    (hload : ∀ dir, pc'.load fs height dir < pc.load fs height dir) :
    (s'.goto t pc').rank fs height < s.rank fs height := by
  refine rank_goto hthread (fun u _ => congrFun hdir u) ?_
  have hlt := hload (s.dir_to_handle t)
  rw [hdirs, hdir, hready, hmain, Search.share, hpc]
  omega

theorem rank_signalThread (s : Search n) (u : Fin n) :
    (s.signalThread u).rank fs height ≤ s.rank fs height + 9 := by
  have h : (s.signalThread u).rank fs height + s.share fs height u =
      s.rank fs height + (s.signalThread u).share fs height u :=
    rank_change fun v hv => by
      rw [Search.signalThread, Search.goto_of_ne _ _ hv]
      rfl
  have hself : (s.signalThread u).share fs height u ≤ s.share fs height u + 9 := by
    have hle : (s.thread u).signalled.load fs height (s.dir_to_handle u) ≤
        (s.thread u).load fs height (s.dir_to_handle u) + 9 := ThreadPc.load_signalled ..
    rw [Search.share, Search.signalThread, Search.goto_self, Search.share]
    show queueWork fs height s.g_dir_queue +
      (s.thread u).signalled.load fs height (s.dir_to_handle u) +
      barrierWork s.g_all_threads_ready + s.main.load n ≤ _
    omega
  omega

theorem rank_enqueue (hpc : s.thread t = .enqueue) :
    ({ (s.threadEnqueue t).signalMain with finish_mutex := none }.goto t .barrier).rank fs height <
      s.rank fs height := by
  have hmain : s.main.signalled.load n ≤ s.main.load n + 4 := MainPc.load_signalled ..
  unfold Search.threadEnqueue
  split
  · refine rank_goto rfl (fun _ _ => rfl) ?_
    rw [Search.share, hpc]
    show queueWork fs height s.g_dir_queue +
      (1 + handedWork fs height (s.dir_to_handle t)) + barrierWork s.g_all_threads_ready +
      s.main.signalled.load n < _
    simp only [ThreadPc.load]
    omega
  · refine rank_goto rfl (fun u hu => Function.update_of_ne hu ..) ?_
    rw [Search.share, hpc]
    show queueWork fs height s.g_dir_queue +
      ThreadPc.barrier.load fs height (Function.update s.dir_to_handle t none t) +
      barrierWork s.g_all_threads_ready + s.main.signalled.load n < _
    rw [Function.update_self]
    show queueWork fs height s.g_dir_queue + (1 + 0) +
      barrierWork s.g_all_threads_ready + s.main.signalled.load n < _
    simp only [ThreadPc.load]
    omega

theorem rank_passBarrier (hpc : s.thread t = .barrier) (hs : s.passBarrier t = some s') :
    s'.rank fs height < s.rank fs height := by
  cases barrierMove hs with
  | launch u queue hready _ _ _ =>
    -- the flag pays for the signal
    let s₁ : Search n := { s with
      g_all_threads_ready := true
      g_thread_queue := queue
      queue_mutex := none }
    have hpaid : s₁.rank fs height + 9 = s.rank fs height := by
      show queueWork fs height s.g_dir_queue +
        ∑ t, (s.thread t).load fs height (s.dir_to_handle t) + 0 + s.main.load n + 9 = _
      rw [Search.rank, hready]
      show _ = queueWork fs height s.g_dir_queue +
        ∑ t, (s.thread t).load fs height (s.dir_to_handle t) + 9 + s.main.load n
      omega
    have hwoken : (s₁.signalThread u).rank fs height ≤ s₁.rank fs height + 9 :=
      rank_signalThread s₁ u
    have hbarrier : (s₁.signalThread u).thread t = .barrier := by
      rcases eq_or_ne t u with rfl | hut
      · rw [Search.signalThread, Search.goto_self]
        show (s.thread t).signalled = .barrier
        rw [hpc]
        rfl
      · rw [Search.signalThread, Search.goto_of_ne _ _ hut]
        exact hpc
    refine Nat.lt_of_lt_of_le (rank_move hbarrier rfl rfl rfl rfl rfl fun dir => ?_)
      (hwoken.trans (Nat.le_of_eq hpaid))
    simp only [ThreadPc.load]
    omega
  | alone _ _ hready _ _ _ =>
    refine rank_goto rfl (fun _ _ => rfl) ?_
    rw [Search.share, hpc, hready]
    show queueWork fs height s.g_dir_queue + (8 + handedWork fs height (s.dir_to_handle t)) + 0 +
      s.main.load n < queueWork fs height s.g_dir_queue +
        (1 + handedWork fs height (s.dir_to_handle t)) + 9 + s.main.load n
    omega
  | sleep _ =>
    refine rank_move hpc rfl rfl rfl rfl rfl fun dir => ?_
    simp only [ThreadPc.load]
    omega

/-- The work of a directory goes from the hands of `t` to the queue or to an idle thread. -/
theorem rank_giveDir (s : Search n) (child : DirQueueEntry) :
    (s.giveDir child).rank fs height ≤ s.rank fs height + dirWork fs height child.path_name + 9 := by
  rcases giveDir_cases s child with ⟨u, queue, -, heq⟩ | ⟨-, heq⟩
  · let s₁ : Search n := { s with
      trace := .given child :: s.trace
      g_thread_queue := queue
      dir_to_handle := Function.update s.dir_to_handle u (some child) }
    have hgiven : s₁.rank fs height + s.share fs height u =
        s.rank fs height + s₁.share fs height u :=
      rank_change fun v hv =>
        congrArg (fun dir => (s.thread v).load fs height dir) (Function.update_of_ne hv ..)
    have hload : (s.thread u).load fs height (some child) ≤
        (s.thread u).load fs height (s.dir_to_handle u) + dirWork fs height child.path_name :=
      ThreadPc.load_given ..
    have hshare : s₁.share fs height u ≤ s.share fs height u + dirWork fs height child.path_name := by
      show queueWork fs height s.g_dir_queue +
        (s.thread u).load fs height (Function.update s.dir_to_handle u (some child) u) +
        barrierWork s.g_all_threads_ready + s.main.load n ≤ _
      rw [Function.update_self, Search.share]
      omega
    have hwoken : (s₁.signalThread u).rank fs height ≤ s₁.rank fs height + 9 :=
      rank_signalThread s₁ u
    rw [heq]
    show (s₁.signalThread u).rank fs height ≤ _
    omega
  · rw [heq]
    show queueWork fs height (child :: s.g_dir_queue) +
      ∑ t, (s.thread t).load fs height (s.dir_to_handle t) + barrierWork s.g_all_threads_ready +
      s.main.load n ≤ _
    rw [queueWork, List.map_cons, List.sum_cons, Search.rank, queueWork]
    omega

/-- What `giveDir` leaves of a thread that does not sleep. -/
theorem giveDir_thread (child : DirQueueEntry) (hawake : (s.thread t).signalled = s.thread t) :
    (s.giveDir child).thread t = s.thread t := by
  rcases giveDir_cases s child with ⟨u, queue, -, heq⟩ | ⟨-, heq⟩
  · rw [heq]
    rcases eq_or_ne t u with rfl | hut
    · rw [Search.signalThread, Search.goto_self]
      exact hawake
    · rw [Search.signalThread, Search.goto_of_ne _ _ hut]
  · rw [heq]

theorem rank_give {d child : DirQueueEntry} {names : List Name}
    (hpc : s.thread t = .give d child names) :
    ({ s.giveDir child with queue_mutex := none }.goto t (.iterate d names)).rank fs height <
      s.rank fs height := by
  have hgiven : (s.giveDir child).rank fs height ≤
      s.rank fs height + dirWork fs height child.path_name + 9 := rank_giveDir s child
  have hthread : (s.giveDir child).thread t = .give d child names :=
    (giveDir_thread child (by rw [hpc]; rfl)).trans hpc
  generalize hs' : Search.goto _ t (.iterate d names) = s'
  have hchange : s'.rank fs height + (s.giveDir child).share fs height t =
      (s.giveDir child).rank fs height + s'.share fs height t := by
    subst hs'
    exact rank_change fun u hu => by
      rw [Search.goto_of_ne _ _ hu]
      rfl
  have hshare : (s.giveDir child).share fs height t =
      s'.share fs height t + dirWork fs height child.path_name + 10 := by
    subst hs'
    rw [Search.share, Search.share, Search.goto_self, hthread]
    show queueWork fs height (s.giveDir child).g_dir_queue +
        (readWork fs height d.path_name names + dirWork fs height child.path_name + 10) +
        barrierWork (s.giveDir child).g_all_threads_ready + (s.giveDir child).main.load n =
      queueWork fs height (s.giveDir child).g_dir_queue + readWork fs height d.path_name names +
        barrierWork (s.giveDir child).g_all_threads_ready + (s.giveDir child).main.load n +
        dirWork fs height child.path_name + 10
    omega
  omega

/-- Every name is read in the directory that lists it. -/
def listedMarks (fs : FileSys) (g_search_term : List UInt8) : Marks fs g_search_term where
  held _ := True
  opened _ := True
  read _ _ := True
  gives _ _ _ _ _ _ := trivial

/-- A name that is given on lies lower. -/
def Descends (fs : FileSys) (height : Path → Nat) : Prop :=
  ∀ dir path, SubFolder fs dir path → height path < height dir

/-- A directory that is taken from the queue is in the hands of its thread. -/
theorem rank_takeNext {d : DirQueueEntry} {queue : List DirQueueEntry} (hpc : s.thread t = .take)
    (hdir : s.dir_to_handle t = none) (hqueue : s.g_dir_queue = queue ++ [d]) :
    ({ s with g_dir_queue := queue, queue_mutex := none }.goto t (.openDir d)).rank fs height <
      s.rank fs height := by
  have hwork : queueWork fs height s.g_dir_queue =
      queueWork fs height queue + dirWork fs height d.path_name := by
    rw [hqueue, queueWork, List.map_append, List.sum_append]
    rfl
  refine rank_goto rfl (fun _ _ => rfl) ?_
  rw [Search.share, hpc, hdir, hwork]
  show queueWork fs height queue + dirWork fs height d.path_name +
      barrierWork s.g_all_threads_ready + s.main.load n <
    queueWork fs height queue + dirWork fs height d.path_name + (1 + 0) +
      barrierWork s.g_all_threads_ready + s.main.load n
  omega

theorem rank_closeDir {d : DirQueueEntry} (hpc : s.thread t = .iterate d []) :
    ({ s with
      dir_to_handle := Function.update s.dir_to_handle t none
      trace := .iterated t d :: s.trace }.goto t .lockQueue).rank fs height < s.rank fs height := by
  refine rank_goto rfl (fun u hu => Function.update_of_ne hu ..) ?_
  rw [Search.share, hpc]
  show queueWork fs height s.g_dir_queue +
      ThreadPc.lockQueue.load fs height (Function.update s.dir_to_handle t none t) +
      barrierWork s.g_all_threads_ready + s.main.load n <
    queueWork fs height s.g_dir_queue + (10 + 0) + barrierWork s.g_all_threads_ready +
      s.main.load n
  rw [Function.update_self]
  show queueWork fs height s.g_dir_queue + (9 + 0) + barrierWork s.g_all_threads_ready +
    s.main.load n < _
  omega

theorem rank_threadNext (hlower : Descends fs height) (H : Held (listedMarks fs g_search_term) s)
    (hs : s.threadNext fs g_search_term t = some s') : s'.rank fs height < s.rank fs height := by
  -- the name that is read pays for what is done with it
  have hread (d : DirQueueEntry) (d_name : Name) (names : List Name) :
      readWork fs height d.path_name names + 12 ≤ readWork fs height d.path_name (d_name :: names) := by
    rw [readWork_cons]
    omega
  cases threadMove hs with
  | lockSearch hpc _ | wakeStart hpc _ | started hpc _ | malloc hpc | lockQueue hpc _ | wake hpc _
  | idle hpc _ | busy hpc _ | lockFinish hpc _ | search hpc _ =>
    exact rank_move hpc rfl rfl rfl rfl rfl fun dir => Nat.add_lt_add_right (by decide) _
  | waitStart hpc _ | exit hpc _ =>
    exact rank_move hpc rfl rfl rfl rfl rfl fun dir => Nat.lt_add_of_pos_left (by decide)
  | enqueue hpc => exact rank_enqueue hpc
  | barrier hpc hs => exact rank_passBarrier hpc hs
  | @takeOwn d hpc hdir =>
    refine rank_goto rfl (fun _ _ => rfl) ?_
    rw [Search.share, hpc, hdir]
    show queueWork fs height s.g_dir_queue + dirWork fs height d.path_name +
        barrierWork s.g_all_threads_ready + s.main.load n <
      queueWork fs height s.g_dir_queue + (1 + dirWork fs height d.path_name) +
        barrierWork s.g_all_threads_ready + s.main.load n
    omega
  | takeNext hpc hdir hqueue => exact rank_takeNext hpc hdir hqueue
  | @openDir d hpc =>
    refine rank_move hpc rfl rfl rfl rfl rfl fun dir => ?_
    show readWork fs height d.path_name (fs.readdir d.path_name) < dirWork fs height d.path_name
    rw [dirWork_eq]
    exact Nat.lt_succ_self _
  | closeDir hpc => exact rank_closeDir hpc
  | @skip d d_name names hpc _ | @found d d_name names _ hpc _ | @denied d d_name names _ hpc _ =>
    have hless := hread d d_name names
    exact rank_move hpc rfl rfl rfl rfl rfl fun dir => by simp only [ThreadPc.load]; omega
  | @folder d child d_name names hpc hvisit =>
    have hK : (listedMarks fs g_search_term).Known (.iterate d (d_name :: names)) := hpc ▸ H.known t
    have hK : (listedMarks fs g_search_term).ReadTo d (d_name :: names) := hK
    obtain ⟨hdot, hstat, rfl⟩ := visit_give hvisit
    have hbelow := hlower _ _ ⟨d_name, ⟨hK.mem, hdot, rfl⟩, hstat⟩
    have hreserved := dirWork_le fs height hbelow
    refine rank_move hpc rfl rfl rfl rfl rfl fun dir => ?_
    simp only [ThreadPc.load, readWork_cons]
    omega
  | lockGive hpc _ | lockFail hpc _ =>
    exact rank_move hpc rfl rfl rfl rfl rfl fun dir => by simp only [ThreadPc.load]; omega
  | give hpc => exact rank_give hpc
  | fail hpc =>
    refine rank_goto rfl (fun _ _ => rfl) ?_
    have hmain : s.main.signalled.load n ≤ s.main.load n + 4 := MainPc.load_signalled ..
    rw [Search.share, hpc]
    show queueWork fs height s.g_dir_queue + 0 + barrierWork s.g_all_threads_ready +
        s.main.signalled.load n <
      queueWork fs height s.g_dir_queue + 5 + barrierWork s.g_all_threads_ready + s.main.load n
    omega

/-- A thread that fails gives up its directory. -/
theorem rank_threadFault {f : Fault} (hs : s.threadFault t f = some s') :
    s'.rank fs height < s.rank fs height := by
  have hopen (dir : Path) : 11 ≤ dirWork fs height dir := by
    rw [dirWork_eq, readWork]
    omega
  have hread (dir : Path) (names : List Name) : 10 ≤ readWork fs height dir names := Nat.le_add_right ..
  cases faultMove hs with
  | malloc hpc =>
    exact rank_move hpc rfl rfl rfl rfl rfl fun dir => by simp only [ThreadPc.load]; omega
  | @openDir d hpc =>
    refine rank_move hpc rfl rfl rfl rfl rfl fun dir => ?_
    have := hopen d.path_name
    simp only [ThreadPc.load]
    omega
  | stat hpc _ =>
    refine rank_move hpc rfl rfl rfl rfl rfl fun dir => ?_
    exact Nat.lt_of_lt_of_le (by decide : 6 < 10) (hread _ _)
  | @give d _ names hpc _ =>
    refine rank_move hpc rfl rfl rfl rfl rfl fun dir => ?_
    have := hread d.path_name names
    simp only [ThreadPc.load]
    omega

/-! ## The steps of `main` -/

/-- `main` goes to `pc` and pays for what that does to the threads. -/
theorem rank_mainStep (cost : Nat) (hdirs : s'.g_dir_queue = s.g_dir_queue)
    (hready : s'.g_all_threads_ready = s.g_all_threads_ready)
    (hload : ∀ t, (s'.thread t).load fs height (s'.dir_to_handle t) ≤
      (s.thread t).load fs height (s.dir_to_handle t) + cost)
    (hmain : s'.main.load n + cost * n < s.main.load n) :
    s'.rank fs height < s.rank fs height := by
  have hsum : ∑ t, (s'.thread t).load fs height (s'.dir_to_handle t) ≤
      (∑ t, (s.thread t).load fs height (s.dir_to_handle t)) + cost * n := by
    refine (Finset.sum_le_sum fun t _ => hload t).trans (Nat.le_of_eq ?_)
    rw [Finset.sum_add_distrib, Finset.sum_const, Finset.card_univ, Fintype.card_fin, nsmul_eq_mul,
      Nat.mul_comm]
    rfl
  rw [Search.rank, Search.rank, hdirs, hready]
  omega

theorem rank_mainNext (hs : s.mainNext = some s') : s'.rank fs height < s.rank fs height := by
  have hquiet {s' : Search n} (hthread : s'.thread = s.thread) (hdir : s'.dir_to_handle = s.dir_to_handle)
      (t : Fin n) : (s'.thread t).load fs height (s'.dir_to_handle t) ≤
      (s.thread t).load fs height (s.dir_to_handle t) + 0 := by
    rw [hthread, hdir]
    exact Nat.le_refl _
  cases mainMove hs with
  | raise hpc =>
    refine rank_mainStep 12 rfl rfl (fun t => ThreadPc.load_broadcast ..) ?_
    simp only [hpc, MainPc.load]
    omega
  | signalAll hpc =>
    refine rank_mainStep 9 rfl rfl (fun t => ThreadPc.load_signalled ..) ?_
    simp only [hpc, MainPc.load]
    omega
  | lockSearch hpc _ | lockFinish hpc _ | wake hpc _ | noDirs hpc _ | dirs hpc _ | allIdle hpc _
  | someBusy hpc _ | wait hpc _ | allFailed hpc _ | stopSearch hpc | lockQueue hpc _ | join _ hpc _
  | joined hpc _ =>
    refine rank_mainStep 0 rfl rfl (hquiet rfl rfl) ?_
    simp only [hpc, MainPc.load]
    omega

/-! ## All runs -/

def Action.isSpurious : Action n → Bool
  | .mainSpurious | .threadSpurious _ => true
  | _ => false

/-- **Without spurious returns of `pthread_cond_wait` the search ends**, whatever fails and however
the threads take turns. -/
theorem search_halts (n : Nat) (root : Path) (hlower : Descends fs height) :
    Halts (fun s a s' => SearchStep fs g_search_term s a s' ∧ a.isSpurious = false)
      (Search.init n root) := by
  refine Halts.of_rank (P := Held (listedMarks fs g_search_term)) (Search.rank fs height) ?_
    (held_init trivial)
  rintro s a s' H ⟨hs, hwaits⟩
  refine ⟨held_step H (fun _ _ _ => trivial) (fun _ _ _ _ _ => trivial) hs, ?_⟩
  cases a with
  | main => exact rank_mainNext hs
  | thread t => exact rank_threadNext hlower H hs
  | fault t f => exact rank_threadFault hs
  | mainSpurious => cases hwaits
  | threadSpurious t => cases hwaits

end OSCourse.Pfind
