import OSCourse.Pfind.Invariant
import OSCourse.Pfind.Wakeups

/-!
# What holds at the points of a thread, whatever happens

The discipline of the queues fails with a wait that returns without a signal.  A thread that takes a
directory still finds one, and the failed threads are still counted.

* `HasDir` — the search is on its way, and a directory is there for the thread.
* `Points` — it is so where a thread is about to take one; `points_step` — every step keeps that.
-/

set_option autoImplicit false

namespace OSCourse.Pfind

open Mutex Transition

variable {n : Nat} {fs : FileSys} {g_search_term : List UInt8} {root : Path} {s s' : Search n}
  {t : Fin n}

/-- All threads have been ready, and there is a directory for `t`. -/
def HasDir (s : Search n) (t : Fin n) : Prop :=
  s.g_all_threads_ready = true ∧ (s.dir_to_handle t ≠ none ∨ s.g_dir_queue ≠ [])

structure Points (s : Search n) : Prop where
  before : s.main.phase = .before → s.g_is_search = false ∧ ∀ t, (s.thread t).starting = true
  search : ∀ t, s.thread t = .testSearch → s.g_is_search = true → HasDir s t
  take : ∀ t, s.thread t = .take → HasDir s t
  failed : s.g_failed_threads = s.failedThreads.card

theorem points_init (n : Nat) (root : Path) : Points (Search.init n root) where
  before _ := ⟨rfl, fun _ => rfl⟩
  search t h := by cases h
  take t h := by cases h
  failed := by simp [Search.init, Search.failedThreads, ThreadPc.isFailed]

theorem ThreadPc.isFailed_signalled (pc : ThreadPc) : pc.signalled.isFailed = pc.isFailed := by
  cases pc <;> rfl

theorem ThreadPc.isFailed_broadcast (pc : ThreadPc) : pc.broadcast.isFailed = pc.isFailed := by
  cases pc <;> rfl

theorem ThreadPc.starting_signalled (pc : ThreadPc) : pc.signalled.starting = pc.starting := by
  cases pc <;> rfl

/-- What a step of `t` leaves as it is: all of it, or what is guarded by `queue_mutex` if `t` holds
that. -/
structure Leaves (s s' : Search n) (t : Fin n) : Prop where
  searching : s'.g_is_search = s.g_is_search
  phase : s'.main.phase = s.main.phase
  thread : ∀ u, s'.thread u = s.thread u ∨ s'.thread u = (s.thread u).signalled
  failed : s'.g_failed_threads = s.g_failed_threads
  dirs : (s.thread t).holdsQueue = true ∨ s'.g_all_threads_ready = s.g_all_threads_ready ∧
    s'.g_dir_queue = s.g_dir_queue ∧ ∀ u, u ≠ t → s'.dir_to_handle u = s.dir_to_handle u

theorem Leaves.refl (s : Search n) (t : Fin n) : Leaves s s t :=
  ⟨rfl, rfl, fun _ => .inl rfl, rfl, .inr ⟨rfl, rfl, fun _ _ => rfl⟩⟩

/-- A directory that is there for another thread at a point under `queue_mutex` stays there. -/
theorem Leaves.hasDir (F : Leaves s s' t) (L : Locks s) {u : Fin n} (hu : u ≠ t)
    (hqueue : (s.thread u).holdsQueue = true) (hdir : HasDir s u) : HasDir s' u := by
  rcases F.dirs with ht | ⟨hready, hdirs, hothers⟩
  · have hu' : s.holdsQueue (.thread u) = true := hqueue
    have ht' : s.holdsQueue (.thread t) = true := ht
    exact absurd (Proc.thread.inj (L.queue.unique hu' ht')) hu
  · rw [HasDir, hready, hdirs, hothers u hu]
    exact hdir

/-- A step of `t` to `pc`. -/
theorem Points.goto (P : Points s) (L : Locks s) (F : Leaves s s' t) {pc : ThreadPc}
    (hstart : s.main.phase = .before → pc.starting = true)
    (hsearch : pc = .testSearch → s.g_is_search = true → HasDir s' t)
    (htake : pc = .take → HasDir s' t) (hfailed : pc.isFailed = (s.thread t).isFailed) :
    Points (s'.goto t pc) := by
  have hself : (s'.goto t pc).thread t = pc := Search.goto_self ..
  have hothers : ∀ u, u ≠ t → (s'.goto t pc).thread u = s'.thread u :=
    fun u hu => Search.goto_of_ne s' pc hu
  have hcase : ∀ u, u ≠ t → ∀ {pc' : ThreadPc}, pc' ≠ .wake → (s'.goto t pc).thread u = pc' →
      s.thread u = pc' := by
    intro u hu pc' hne hpc'
    rw [hothers u hu] at hpc'
    rcases F.thread u with h | h
    · exact h.symm.trans hpc'
    · rw [h] at hpc'
      cases hold : s.thread u <;> rw [hold] at hpc' <;>
        first | exact hpc' | exact absurd hpc'.symm hne
  refine ⟨fun hphase => ?_, fun u hu hs => ?_, fun u hu => ?_, ?_⟩
  · have hbefore : s.main.phase = .before := F.phase.symm.trans hphase
    obtain ⟨hs, hall⟩ := P.before hbefore
    refine ⟨F.searching.trans hs, fun u => ?_⟩
    rcases eq_or_ne u t with rfl | hne
    · rw [hself]
      exact hstart hbefore
    · rw [hothers u hne]
      rcases F.thread u with h | h
      · rw [h]
        exact hall u
      · rw [h, ThreadPc.starting_signalled]
        exact hall u
  · have hsearching : s.g_is_search = true := F.searching.symm.trans hs
    rcases eq_or_ne u t with rfl | hne
    · exact hsearch (hself.symm.trans hu) hsearching
    · have hu := hcase u hne (by simp) hu
      exact F.hasDir L hne (by rw [hu]; rfl) (P.search u hu hsearching)
  · rcases eq_or_ne u t with rfl | hne
    · exact htake (hself.symm.trans hu)
    · have hu := hcase u hne (by simp) hu
      exact F.hasDir L hne (by rw [hu]; rfl) (P.take u hu)
  · show s'.g_failed_threads = _
    rw [F.failed, P.failed]
    refine congrArg Finset.card (failedThreads_congr fun u => ?_).symm
    rcases eq_or_ne u t with rfl | hne
    · rw [hself, hfailed]
    · rw [hothers u hne]
      rcases F.thread u with h | h
      · rw [h]
      · rw [h, ThreadPc.isFailed_signalled]

/-- A step of `t` away from the points of `Points`. -/
theorem Points.move (P : Points s) (L : Locks s) (F : Leaves s s' t) {pc pc' : ThreadPc}
    (hpc : s.thread t = pc) (hnot : pc.starting = true → pc'.starting = true)
    (hsearch : pc' ≠ .testSearch ∧ pc' ≠ .take) (hfailed : pc'.isFailed = pc.isFailed) :
    Points (s'.goto t pc') := by
  refine P.goto L F (fun hphase => hnot ?_) (fun h => absurd h hsearch.1)
    (fun h => absurd h hsearch.2) (hpc ▸ hfailed)
  rw [← hpc]
  exact (P.before hphase).2 t

/-! ## The steps of a thread -/

theorem leaves_signal (s : Search n) (hqueue : (s.thread t).holdsQueue = true) (ready : Bool)
    (threads : List (Fin n)) (dir : Fin n → Option DirQueueEntry) (mutex : Option (Proc n))
    (trace : List (Event n)) (u : Fin n) :
    Leaves s (Search.signalThread { s with
      g_all_threads_ready := ready
      g_thread_queue := threads
      dir_to_handle := dir
      queue_mutex := mutex
      trace := trace } u) t := by
  refine ⟨rfl, rfl, fun v => ?_, rfl, .inl hqueue⟩
  rcases eq_or_ne v u with rfl | hv
  · exact .inr (Search.goto_self ..)
  · exact .inl (Search.goto_of_ne _ _ hv)

theorem points_passBarrier (P : Points s) (L : Locks s) (hpc : s.thread t = .barrier)
    (hs : s.passBarrier t = some s') : Points s' := by
  cases barrierMove hs with
  | launch u queue _ _ _ _ =>
    exact P.move L (leaves_signal s (by rw [hpc]; rfl) true queue s.dir_to_handle none s.trace u) hpc
      id (by simp) rfl
  | alone u queue _ _ _ _ =>
    have F : Leaves s { s with g_all_threads_ready := true, g_thread_queue := queue } t :=
      ⟨rfl, rfl, fun _ => .inl rfl, rfl, .inl (by rw [hpc]; rfl)⟩
    exact P.move L F hpc id (by simp) rfl
  | sleep _ =>
    have F : Leaves s { s with queue_mutex := none } t :=
      ⟨rfl, rfl, fun _ => .inl rfl, rfl, .inr ⟨rfl, rfl, fun _ _ => rfl⟩⟩
    exact P.move L F hpc id (by simp) rfl

theorem points_give (P : Points s) (L : Locks s) {d child : DirQueueEntry} {names : List Name}
    (hpc : s.thread t = .give d child names) :
    Points ({ s.giveDir child with queue_mutex := none }.goto t (.iterate d names)) := by
  have hqueue : (s.thread t).holdsQueue = true := by rw [hpc]; rfl
  rcases giveDir_cases s child with ⟨u, queue, -, heq⟩ | ⟨-, heq⟩
  · rw [heq]
    exact P.move L (leaves_signal s hqueue s.g_all_threads_ready queue
      (Function.update s.dir_to_handle u (some child)) none (.given child :: s.trace) u) hpc id
      (by simp) rfl
  · rw [heq]
    have F : Leaves s { s with
        trace := .given child :: s.trace
        g_dir_queue := child :: s.g_dir_queue
        queue_mutex := none } t := ⟨rfl, rfl, fun _ => .inl rfl, rfl, .inl hqueue⟩
    exact P.move L F hpc id (by simp) rfl

/-- A thread that does not sleep has found a directory, or the search is over. -/
theorem hasDir_of_awake (hs : s.g_is_search = true) (hawake : shouldThreadSleep s t ≠ true) :
    HasDir s t := by
  rw [shouldThreadSleep, if_pos hs] at hawake
  simp only [ne_eq, Bool.or_eq_true, Bool.not_eq_true', Bool.and_eq_true, not_or, not_and] at hawake
  obtain ⟨hready, hdir⟩ := hawake
  refine ⟨Bool.of_not_eq_false hready, ?_⟩
  by_cases hnone : s.dir_to_handle t = none
  · right
    intro hnil
    exact hdir (by rw [hnil]; rfl) (by rw [hnone]; rfl)
  · exact .inl hnone

theorem points_threadNext (P : Points s) (L : Locks s)
    (hs : s.threadNext fs g_search_term t = some s') : Points s' := by
  have hsame : ∀ {s' : Search n}, s'.g_is_search = s.g_is_search → s'.main = s.main →
      s'.thread = s.thread → s'.g_failed_threads = s.g_failed_threads →
      s'.g_all_threads_ready = s.g_all_threads_ready → s'.g_dir_queue = s.g_dir_queue →
      (∀ u, u ≠ t → s'.dir_to_handle u = s.dir_to_handle u) → Leaves s s' t := by
    intro s' hsearching hmain hthread hfailed hready hdirs hdir
    exact ⟨hsearching, congrArg MainPc.phase hmain, fun u => .inl (congrFun hthread u), hfailed,
      .inr ⟨hready, hdirs, hdir⟩⟩
  have hrest {search finish queue : Option (Proc n)} {files : BitVec 32} {trace : List (Event n)} :
      Leaves s { s with
        search_mutex := search
        finish_mutex := finish
        queue_mutex := queue
        g_files_found := files
        trace := trace } t := hsame rfl rfl rfl rfl rfl rfl fun _ _ => rfl
  cases threadMove hs with
  | lockSearch hpc _ | wakeStart hpc _ | waitStart hpc _ => exact P.move L hrest hpc id (by simp) rfl
  | started hpc hsearching =>
    refine P.goto L hrest (fun hphase => ?_) (by simp) (by simp) (by rw [hpc]; rfl)
    exact absurd ((P.before hphase).1.symm.trans hsearching) Bool.false_ne_true
  | lockQueue hpc _ | wake hpc _ | lockFinish hpc _ | exit hpc _ | openDir hpc | skip hpc _
  | found hpc _ | denied hpc _ | folder hpc _ | lockGive hpc _ | lockFail hpc _ | malloc hpc
  | takeOwn hpc _ =>
    refine P.goto L hrest (fun hphase => ?_) (by simp) (by simp) (by rw [hpc]; rfl)
    have hstart := (P.before hphase).2 t
    rw [hpc] at hstart
    cases hstart
  | idle hpc _ => exact P.move L hrest hpc (by simp [ThreadPc.starting]) (by simp) rfl
  | busy hpc hawake =>
    refine P.goto L hrest (fun hphase => ?_) (fun _ hsearching => hasDir_of_awake hsearching hawake)
      (by simp) (by rw [hpc]; rfl)
    have hstart := (P.before hphase).2 t
    rw [hpc] at hstart
    cases hstart
  | search hpc hsearching =>
    refine P.goto L hrest (fun hphase => ?_) (by simp) (fun _ => P.search t hpc hsearching)
      (by rw [hpc]; rfl)
    have hstart := (P.before hphase).2 t
    rw [hpc] at hstart
    cases hstart
  | enqueue hpc =>
    have F : Leaves s { (s.threadEnqueue t).signalMain with finish_mutex := none } t := by
      have hqueue : (s.thread t).holdsQueue = true := by rw [hpc]; rfl
      unfold Search.threadEnqueue
      split
      · exact ⟨rfl, MainPc.phase_signalled _, fun _ => .inl rfl, rfl, .inl hqueue⟩
      · exact ⟨rfl, MainPc.phase_signalled _, fun _ => .inl rfl, rfl, .inl hqueue⟩
    exact P.move L F hpc id (by simp) rfl
  | barrier hpc hs => exact points_passBarrier P L hpc hs
  | @takeNext d queue hpc _ hqueue =>
    have F : Leaves s { s with g_dir_queue := queue, queue_mutex := none } t :=
      ⟨rfl, rfl, fun _ => .inl rfl, rfl, .inl (by rw [hpc]; rfl)⟩
    exact P.move L F hpc id (by simp) rfl
  | @closeDir d hpc =>
    have F : Leaves s { s with
        dir_to_handle := Function.update s.dir_to_handle t none
        trace := .iterated t d :: s.trace } t :=
      hsame rfl rfl rfl rfl rfl rfl fun u hu => Function.update_of_ne hu ..
    exact P.move L F hpc id (by simp) rfl
  | give hpc => exact points_give P L hpc
  | @fail queue hpc =>
    have hnot : ∀ u, u ≠ t → ∀ (pc : ThreadPc),
        (Search.goto { Search.signalMain { s with g_failed_threads := s.g_failed_threads + 1 } with
          finish_mutex := none } t (.failed queue)).thread u = pc → s.thread u = pc :=
      fun u hu pc h => (Search.goto_of_ne _ _ hu).symm.trans h
    refine ⟨fun hphase => ?_, fun u hu hsearching => ?_, fun u hu => ?_, ?_⟩
    · have hphase : s.main.phase = .before := (MainPc.phase_signalled _).symm.trans hphase
      have hstart := (P.before hphase).2 t
      rw [hpc] at hstart
      cases hstart
    · rcases eq_or_ne u t with rfl | hne
      · rw [Search.goto_self] at hu
        cases hu
      · exact P.search u (hnot u hne _ hu) hsearching
    · rcases eq_or_ne u t with rfl | hne
      · rw [Search.goto_self] at hu
        cases hu
      · exact P.take u (hnot u hne _ hu)
    · show s.g_failed_threads + 1 = _
      rw [P.failed]
      refine (card_change (t := t) (fun u hu => ?_) ?_ ?_).symm
      · rw [Search.goto_of_ne _ _ hu]
        rfl
      · rw [hpc]
        simp [ThreadPc.isFailed]
      · rw [Search.goto_self]
        rfl

/-! ## All steps -/

theorem points_threadFault {f : Fault} (P : Points s) (L : Locks s)
    (hs : s.threadFault t f = some s') : Points s' := by
  have hrest {trace : List (Event n)} : Leaves s { s with trace := trace } t :=
    ⟨rfl, rfl, fun _ => .inl rfl, rfl, .inr ⟨rfl, rfl, fun _ _ => rfl⟩⟩
  cases faultMove hs with
  | malloc hpc => exact P.move L (.refl s t) hpc (by simp [ThreadPc.starting]) (by simp) rfl
  | openDir hpc | stat hpc _ | give hpc _ =>
    exact P.move L hrest hpc (by simp [ThreadPc.starting]) (by simp) rfl

theorem points_mainNext (P : Points s) (hs : s.mainNext = some s') : Points s' := by
  have F := mainFrame hs
  have hfailed : ∀ u, (s'.thread u).isFailed = (s.thread u).isFailed := by
    intro u
    rcases F.thread with h | h | h
    · rw [h]
    · rw [h, ThreadPc.isFailed_broadcast]
    · rw [h, ThreadPc.isFailed_signalled]
  have hcase : ∀ u {pc : ThreadPc}, pc ≠ .wake → pc ≠ .wakeStart → s'.thread u = pc →
      s.thread u = pc := by
    intro u pc hwake hstart hpc
    rcases F.thread with h | h | h
    · exact (h u).symm.trans hpc
    · rw [h u] at hpc
      cases hold : s.thread u <;> rw [hold] at hpc <;>
        first | exact hpc | exact absurd hpc.symm hstart
    · rw [h u] at hpc
      cases hold : s.thread u <;> rw [hold] at hpc <;>
        first | exact hpc | exact absurd hpc.symm hwake
  have hdir : ∀ u, HasDir s u → HasDir s' u := fun u h => by
    rw [HasDir, F.ready, F.dir, F.dirs]
    exact h
  have hcount : s'.g_failed_threads = s'.failedThreads.card := by
    have hsame : s'.g_failed_threads = s.g_failed_threads := by cases mainMove hs <;> rfl
    rw [hsame, P.failed, failedThreads_congr hfailed]
  refine ⟨fun hphase => ?_, fun u hu hsearching => ?_, fun u hu => ?_, hcount⟩
  · -- until it raises the flag, `main` has only taken a mutex
    cases mainMove hs with
    | lockSearch hpc _ => exact P.before (by rw [hpc]; rfl)
    | _ => cases hphase
  · have hold := hcase u (by simp) (by simp) hu
    refine hdir u (P.search u hold ?_)
    cases mainMove hs with
    | raise hpc =>
      have hstart := (P.before (by rw [hpc]; rfl)).2 u
      rw [hold] at hstart
      cases hstart
    | stopSearch _ => cases hsearching
    | _ => exact hsearching
  · exact hdir u (P.take u (hcase u (by simp) (by simp) hu))

theorem points_step {a : Action n} (P : Points s) (L : Locks s)
    (hs : SearchStep fs g_search_term s a s') : Points s' := by
  cases a with
  | main => exact points_mainNext P hs
  | thread t => exact points_threadNext P L hs
  | fault t f => exact points_threadFault P L hs
  | mainSpurious =>
    obtain ⟨hpc, rfl⟩ := mainSpurious_cases hs
    refine ⟨fun hphase => ?_, P.search, P.take, P.failed⟩
    cases hphase
  | threadSpurious t =>
    rcases threadSpurious_cases hs with ⟨hpc, rfl⟩ | ⟨hpc, rfl⟩
    · exact P.move L (.refl s t) hpc id (by simp) rfl
    · exact P.move L (.refl s t) hpc (by simp [ThreadPc.starting]) (by simp) rfl

end OSCourse.Pfind
