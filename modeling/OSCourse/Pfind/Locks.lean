import OSCourse.Lib.Mutex
import OSCourse.Pfind.Moves

/-!
# The three mutexes

Each mutex is held by the party that is at a point of the program between its lock and its unlock,
in every run, whatever fails and however often a wait returns without a signal.

* `Locks` — the owners are the parties at such points; `locks_step` and `locks_init`.
-/

set_option autoImplicit false

namespace OSCourse.Pfind

open Mutex Transition

/-! ## The points at which a mutex is held -/

@[simp] def ThreadPc.holdsSearch : ThreadPc → Bool
  | .testStart => true
  | _ => false

@[simp] def ThreadPc.holdsFinish : ThreadPc → Bool
  | .enqueue | .fail _ => true
  | _ => false

@[simp] def ThreadPc.holdsQueue : ThreadPc → Bool
  | .testSleep | .lockFinish | .enqueue | .barrier | .testSearch | .take | .give .. => true
  | .lockFail queue | .fail queue | .failed queue => queue
  | _ => false

@[simp] def MainPc.holdsSearch : MainPc → Bool
  | .raise => true
  | _ => false

@[simp] def MainPc.holdsFinish : MainPc → Bool
  | .readDirs | .readCounts | .readFailed | .stopSearch | .lockQueue | .signalAll => true
  | _ => false

@[simp] def MainPc.holdsQueue : MainPc → Bool
  | .signalAll => true
  | _ => false

variable {n : Nat}

def Search.holdsSearch (s : Search n) : Proc n → Bool
  | .main => s.main.holdsSearch
  | .thread t => (s.thread t).holdsSearch

def Search.holdsFinish (s : Search n) : Proc n → Bool
  | .main => s.main.holdsFinish
  | .thread t => (s.thread t).holdsFinish

def Search.holdsQueue (s : Search n) : Proc n → Bool
  | .main => s.main.holdsQueue
  | .thread t => (s.thread t).holdsQueue

structure Locks (s : Search n) : Prop where
  search : Owns s.search_mutex s.holdsSearch
  finish : Owns s.finish_mutex s.holdsFinish
  queue : Owns s.queue_mutex s.holdsQueue

/-- The mutexes that a thread holds. -/
def ThreadPc.flags (pc : ThreadPc) : Bool × Bool × Bool :=
  (pc.holdsSearch, pc.holdsFinish, pc.holdsQueue)

/-- The mutexes that `main` holds. -/
def MainPc.flags (pc : MainPc) : Bool × Bool × Bool :=
  (pc.holdsSearch, pc.holdsFinish, pc.holdsQueue)

variable {s s' : Search n} {t : Fin n}

/-- A step of `t` to `pc`, in which the other parties keep what they hold. -/
theorem Locks.goto (L : Locks s) {pc : ThreadPc}
    (hthread : ∀ u, (s'.thread u).flags = (s.thread u).flags) (hmain : s'.main.flags = s.main.flags)
    (hsearch : Change (.thread t) s.search_mutex s'.search_mutex (s.thread t).holdsSearch
      pc.holdsSearch)
    (hfinish : Change (.thread t) s.finish_mutex s'.finish_mutex (s.thread t).holdsFinish
      pc.holdsFinish)
    (hqueue : Change (.thread t) s.queue_mutex s'.queue_mutex (s.thread t).holdsQueue
      pc.holdsQueue) : Locks (s'.goto t pc) := by
  have hflags : ∀ q, q ≠ Proc.thread t → (s'.goto t pc).holdsSearch q = s.holdsSearch q ∧
      (s'.goto t pc).holdsFinish q = s.holdsFinish q ∧
      (s'.goto t pc).holdsQueue q = s.holdsQueue q := by
    intro q hq
    cases q with
    | main =>
      simpa [Search.goto, Search.holdsSearch, Search.holdsFinish, Search.holdsQueue,
        MainPc.flags] using hmain
    | thread u =>
      have hu : u ≠ t := fun heq => hq (by rw [heq])
      simpa [Search.goto, Search.holdsSearch, Search.holdsFinish, Search.holdsQueue, hu,
        ThreadPc.flags] using hthread u
  refine ⟨L.search.change ?_ fun q hq => (hflags q hq).1,
    L.finish.change ?_ fun q hq => (hflags q hq).2.1,
    L.queue.change ?_ fun q hq => (hflags q hq).2.2⟩
  · simpa [Search.goto, Search.holdsSearch] using hsearch
  · simpa [Search.goto, Search.holdsFinish] using hfinish
  · simpa [Search.goto, Search.holdsQueue] using hqueue

/-- A step of `t` to `pc` that neither takes a mutex nor gives one back. -/
theorem Locks.move (L : Locks s) {pc : ThreadPc}
    (hthread : ∀ u, (s'.thread u).flags = (s.thread u).flags) (hmain : s'.main.flags = s.main.flags)
    (hmutex : s'.search_mutex = s.search_mutex ∧ s'.finish_mutex = s.finish_mutex ∧
      s'.queue_mutex = s.queue_mutex)
    (hpc : pc.flags = (s.thread t).flags) : Locks (s'.goto t pc) := by
  simp only [ThreadPc.flags, Prod.mk.injEq] at hpc
  exact L.goto hthread hmain (.inl ⟨hmutex.1, hpc.1⟩) (.inl ⟨hmutex.2.1, hpc.2.1⟩)
    (.inl ⟨hmutex.2.2, hpc.2.2⟩)

/-- A step of `main`, in which the threads keep what they hold. -/
theorem Locks.mainStep (L : Locks s) (hthread : ∀ u, (s'.thread u).flags = (s.thread u).flags)
    (hsearch : Change .main s.search_mutex s'.search_mutex s.main.holdsSearch s'.main.holdsSearch)
    (hfinish : Change .main s.finish_mutex s'.finish_mutex s.main.holdsFinish s'.main.holdsFinish)
    (hqueue : Change .main s.queue_mutex s'.queue_mutex s.main.holdsQueue s'.main.holdsQueue) :
    Locks s' := by
  have hflags : ∀ q, q ≠ Proc.main → s'.holdsSearch q = s.holdsSearch q ∧
      s'.holdsFinish q = s.holdsFinish q ∧ s'.holdsQueue q = s.holdsQueue q := by
    intro q hq
    cases q with
    | main => exact absurd rfl hq
    | thread u =>
      simpa [Search.holdsSearch, Search.holdsFinish, Search.holdsQueue, ThreadPc.flags] using
        hthread u
  exact ⟨L.search.change hsearch fun q hq => (hflags q hq).1,
    L.finish.change hfinish fun q hq => (hflags q hq).2.1,
    L.queue.change hqueue fun q hq => (hflags q hq).2.2⟩

/-! ## Signals -/

theorem ThreadPc.flags_signalled (pc : ThreadPc) : pc.signalled.flags = pc.flags := by
  cases pc <;> rfl

theorem ThreadPc.flags_broadcast (pc : ThreadPc) : pc.broadcast.flags = pc.flags := by
  cases pc <;> rfl

theorem MainPc.flags_signalled (pc : MainPc) : pc.signalled.flags = pc.flags := by
  cases pc <;> rfl

theorem flags_signalThread (s : Search n) (t u : Fin n) :
    ((s.signalThread t).thread u).flags = (s.thread u).flags := by
  simp only [Search.signalThread, Search.goto]
  by_cases hu : u = t
  · subst hu; rw [Function.update_self, ThreadPc.flags_signalled]
  · rw [Function.update_of_ne hu]

theorem flags_giveDir (s : Search n) (child : DirQueueEntry) (u : Fin n) :
    ((s.giveDir child).thread u).flags = (s.thread u).flags := by
  rcases giveDir_cases s child with ⟨v, queue, -, heq⟩ | ⟨-, heq⟩
  · rw [heq]
    exact flags_signalThread _ v u
  · rw [heq]

/-- What `giveDir` leaves as it is. -/
theorem giveDir_frame (s : Search n) (child : DirQueueEntry) :
    (s.giveDir child).search_mutex = s.search_mutex ∧
      (s.giveDir child).finish_mutex = s.finish_mutex ∧ (s.giveDir child).main = s.main := by
  rcases giveDir_cases s child with ⟨v, queue, -, heq⟩ | ⟨-, heq⟩
  · rw [heq]
    exact ⟨rfl, rfl, rfl⟩
  · rw [heq]
    exact ⟨rfl, rfl, rfl⟩

/-- What `threadEnqueue` leaves as it is. -/
theorem threadEnqueue_frame (s : Search n) (t : Fin n) :
    (s.threadEnqueue t).search_mutex = s.search_mutex ∧
      (s.threadEnqueue t).queue_mutex = s.queue_mutex ∧
      (s.threadEnqueue t).thread = s.thread ∧ (s.threadEnqueue t).main = s.main := by
  unfold Search.threadEnqueue
  split <;> exact ⟨rfl, rfl, rfl, rfl⟩

/-! ## The steps -/

theorem locks_passBarrier (L : Locks s) (hpc : s.thread t = .barrier)
    (hs : s.passBarrier t = some s') : Locks s' := by
  cases barrierMove hs with
  | launch thread _ _ _ _ _ =>
    exact L.goto (flags_signalThread _ thread) rfl (.same (by simp [hpc])) (.same (by simp [hpc]))
      (.drop (by simp [hpc]) rfl)
  | alone _ _ _ _ _ _ => exact L.move (fun _ => rfl) rfl ⟨rfl, rfl, rfl⟩ (by rw [hpc]; rfl)
  | sleep _ =>
    exact L.goto (fun _ => rfl) rfl (.same (by simp [hpc])) (.same (by simp [hpc]))
      (.drop (by simp [hpc]) rfl)

theorem locks_threadNext {fs : FileSys} {g_search_term : List UInt8} (L : Locks s)
    (hs : s.threadNext fs g_search_term t = some s') : Locks s' := by
  cases threadMove hs with
  | lockSearch hpc hfree | wakeStart hpc hfree =>
    exact L.goto (fun _ => rfl) rfl (.take hfree rfl) (.same (by simp [hpc])) (.same (by simp [hpc]))
  | started hpc _ | waitStart hpc _ =>
    exact L.goto (fun _ => rfl) rfl (.drop (by simp [hpc]) rfl) (.same (by simp [hpc]))
      (.same (by simp [hpc]))
  | lockQueue hpc hfree | wake hpc hfree | lockGive hpc hfree =>
    exact L.goto (fun _ => rfl) rfl (.same (by simp [hpc])) (.same (by simp [hpc])) (.take hfree rfl)
  | lockFinish hpc hfree | lockFail hpc hfree =>
    exact L.goto (fun _ => rfl) rfl (.same (by simp [hpc])) (.take hfree rfl) (.same (by simp [hpc]))
  | enqueue hpc =>
    obtain ⟨hsearch, hqueue, hthread, hmain⟩ := threadEnqueue_frame s t
    refine L.goto (fun u => ?_) ?_ ?_ (.drop (by simp [hpc]) rfl) ?_
    · exact congrArg ThreadPc.flags (congrFun hthread u)
    · exact (MainPc.flags_signalled _).trans (congrArg MainPc.flags hmain)
    · exact .inl ⟨hsearch, by simp [hpc]⟩
    · exact .inl ⟨hqueue, by simp [hpc]⟩
  | barrier hpc hs => exact locks_passBarrier L hpc hs
  | exit hpc _ | takeOwn hpc _ | takeNext hpc _ _ =>
    exact L.goto (fun _ => rfl) rfl (.same (by simp [hpc])) (.same (by simp [hpc]))
      (.drop (by simp [hpc]) rfl)
  | @give _ child _ hpc =>
    obtain ⟨hsearch, hfinish, hmain⟩ := giveDir_frame s child
    exact L.goto (flags_giveDir s child) (congrArg MainPc.flags hmain)
      (.inl ⟨hsearch, by simp [hpc]⟩) (.inl ⟨hfinish, by simp [hpc]⟩) (.drop (by simp [hpc]) rfl)
  | fail hpc =>
    exact L.goto (fun _ => rfl) (MainPc.flags_signalled _) (.same (by simp [hpc]))
      (.drop (by simp [hpc]) rfl) (.same (by simp [hpc]))
  | malloc hpc | idle hpc _ | busy hpc _ | search hpc _ | openDir hpc | closeDir hpc | skip hpc _
  | found hpc _ | denied hpc _ | folder hpc _ =>
    exact L.move (fun _ => rfl) rfl ⟨rfl, rfl, rfl⟩ (by rw [hpc]; rfl)

theorem locks_threadFault {f : Fault} (L : Locks s) (hs : s.threadFault t f = some s') :
    Locks s' := by
  cases faultMove hs with
  | malloc hpc | openDir hpc | stat hpc _ | give hpc _ =>
    exact L.move (fun _ => rfl) rfl ⟨rfl, rfl, rfl⟩ (by rw [hpc]; rfl)

theorem locks_mainNext (L : Locks s) (hs : s.mainNext = some s') : Locks s' := by
  cases mainMove hs with
  | lockSearch hpc hfree =>
    exact L.mainStep (fun _ => rfl) (.take hfree rfl) (.same (by simp [hpc])) (.same (by simp [hpc]))
  | raise hpc =>
    exact L.mainStep (fun _ => ThreadPc.flags_broadcast _) (.drop (by simp [hpc]) rfl)
      (.same (by simp [hpc])) (.same (by simp [hpc]))
  | lockFinish hpc hfree | wake hpc hfree =>
    exact L.mainStep (fun _ => rfl) (.same (by simp [hpc])) (.take hfree rfl) (.same (by simp [hpc]))
  | wait hpc _ =>
    exact L.mainStep (fun _ => rfl) (.same (by simp [hpc])) (.drop (by simp [hpc]) rfl)
      (.same (by simp [hpc]))
  | lockQueue hpc hfree =>
    exact L.mainStep (fun _ => rfl) (.same (by simp [hpc])) (.same (by simp [hpc])) (.take hfree rfl)
  | signalAll hpc =>
    exact L.mainStep (fun _ => ThreadPc.flags_signalled _) (.same (by simp [hpc]))
      (.drop (by simp [hpc]) rfl) (.drop (by simp [hpc]) rfl)
  | noDirs hpc _ | dirs hpc _ | allIdle hpc _ | someBusy hpc _ | allFailed hpc _ | stopSearch hpc
  | join _ hpc _ | joined hpc _ =>
    exact L.mainStep (fun _ => rfl) (.same (by simp [hpc])) (.same (by simp [hpc]))
      (.same (by simp [hpc]))

/-- **Every step keeps the ownership of the mutexes.** -/
theorem locks_step {fs : FileSys} {g_search_term : List UInt8} {a : Action n} (L : Locks s)
    (hs : SearchStep fs g_search_term s a s') : Locks s' := by
  cases a with
  | main => exact locks_mainNext L hs
  | thread t => exact locks_threadNext L hs
  | fault t f => exact locks_threadFault L hs
  | mainSpurious =>
    obtain ⟨hpc, rfl⟩ := mainSpurious_cases hs
    exact L.mainStep (fun _ => rfl) (.same (by simp [hpc])) (.same (by simp [hpc]))
      (.same (by simp [hpc]))
  | threadSpurious t =>
    rcases threadSpurious_cases hs with ⟨hpc, rfl⟩ | ⟨hpc, rfl⟩
    · exact L.move (fun _ => rfl) rfl ⟨rfl, rfl, rfl⟩ (by rw [hpc]; rfl)
    · exact L.move (fun _ => rfl) rfl ⟨rfl, rfl, rfl⟩ (by rw [hpc]; rfl)

theorem locks_init (root : Path) : Locks (Search.init n root) := by
  have hfree : ∀ {holds : Proc n → Bool}, (∀ p, holds p = false) → Owns none holds := by
    intro holds hnone p
    rw [hnone]; simp
  exact ⟨hfree fun p => by cases p <;> rfl, hfree fun p => by cases p <;> rfl,
    hfree fun p => by cases p <;> rfl⟩

end OSCourse.Pfind
