import OSCourse.Pfind.Invariant

/-!
# Nobody gets stuck

* `Search.CanStep`, `Search.Finished`, `Search.Stuck` — some party has a step; all parties are done;
  neither.
* `Search.Uniform` — until the start barrier has been passed, no thread has failed or none has got
  its `thread_entry`.
* `not_stuck` — **under the discipline, a state that is `Uniform` is not stuck**.
-/

set_option autoImplicit false

namespace OSCourse.Pfind

open Mutex Transition

variable {n : Nat} {fs : FileSys} {g_search_term : List UInt8}

def Search.CanStep (fs : FileSys) (g_search_term : List UInt8) (s : Search n) : Prop :=
  (∃ s', s.mainNext = some s') ∨ ∃ t s', s.threadNext fs g_search_term t = some s'

/-- `main` and all threads have finished. -/
def Search.Finished (s : Search n) : Prop := s.main = .done ∧ ∀ t, (s.thread t).terminated = true

def Search.Stuck (fs : FileSys) (g_search_term : List UInt8) (s : Search n) : Prop :=
  ¬s.Finished ∧ ¬s.CanStep fs g_search_term

/-- In `thread_exit_on_error`. -/
def ThreadPc.failing : ThreadPc → Bool
  | .lockFail _ | .fail _ | .failed _ => true
  | _ => false

/-- Before the `malloc` of its `thread_entry`. -/
def ThreadPc.fresh : ThreadPc → Bool
  | .start | .testStart | .waitStart | .wakeStart | .malloc => true
  | _ => false

/-- Until all threads have been idle: none has failed, or none has its `thread_entry`. -/
def Search.Uniform (s : Search n) : Prop :=
  s.g_all_threads_ready = false → (∀ t, (s.thread t).failing = false) ∨
    ∀ t, ((s.thread t).failing || (s.thread t).fresh) = true

/-! ## Who can be blocked, and where -/

/-- The points at which a thread can have no step. -/
def BlockedAt (s : Search n) : ThreadPc → Prop
  | .start | .wakeStart => s.search_mutex ≠ none
  | .lockQueue | .wake | .lockGive .. => s.queue_mutex ≠ none
  | .lockFinish | .lockFail _ => s.finish_mutex ≠ none
  | .waitStart | .sleep | .failed _ | .exited => True
  | .testStart | .malloc | .testSleep | .enqueue | .barrier | .testSearch | .take | .openDir _
  | .iterate .. | .give .. | .fail _ => False

/-- The points at which `main` can have no step. -/
def MainBlockedAt (s : Search n) : MainPc → Prop
  | .lockSearch => s.search_mutex ≠ none
  | .lockFinish | .waking => s.finish_mutex ≠ none
  | .lockQueue => s.queue_mutex ≠ none
  | .join i => ∃ h : i < n, (s.thread ⟨i, h⟩).terminated = false
  | .waiting | .done => True
  | .raise | .readDirs | .readCounts | .readFailed | .stopSearch | .signalAll => False

variable {root : DirQueueEntry} {s : Search n} {t : Fin n}

theorem passBarrier_ne_none (I : Inv root s) (hpc : s.thread t = .barrier) :
    s.passBarrier t ≠ none := by
  obtain ⟨rest, hhead⟩ := I.head t hpc
  unfold Search.passBarrier
  split
  · split
    · rename_i hdeq
      rw [dequeue_eq_none.1 hdeq] at hhead; cases hhead
    · simp only
      split <;> exact nofun
  · exact nofun

theorem blockedAt (I : Inv root s) (hnone : s.threadNext fs g_search_term t = none) :
    BlockedAt s (s.thread t) := by
  unfold Search.threadNext at hnone
  split at hnone
  all_goals
    rename_i hpc
    rw [hpc]
  · split at hnone
    · cases hnone
    · assumption
  · split at hnone
    · cases hnone
    · assumption
  · split at hnone <;> cases hnone
  · cases hnone
  · split at hnone
    · cases hnone
    · assumption
  · split at hnone
    · cases hnone
    · assumption
  · split at hnone <;> cases hnone
  · split at hnone
    · cases hnone
    · assumption
  · cases hnone
  · exact passBarrier_ne_none I hpc hnone
  · split at hnone <;> cases hnone
  · have hA := I.allowed t
    rw [hpc] at hA
    split at hnone
    · cases hnone
    · rename_i hdir
      split at hnone
      · cases hnone
      · rename_i hdeq
        rcases hA.2.2.2 with h | h
        · exact h hdir
        · exact h (dequeue_eq_none.1 hdeq)
  · cases hnone
  · split at hnone
    · cases hnone
    · split at hnone <;> cases hnone
  · split at hnone
    · cases hnone
    · assumption
  · cases hnone
  · split at hnone
    · cases hnone
    · assumption
  · cases hnone
  all_goals trivial

theorem mainBlockedAt (hnone : s.mainNext = none) : MainBlockedAt s s.main := by
  unfold Search.mainNext at hnone
  split at hnone
  all_goals
    rename_i hpc
    rw [hpc]
  · split at hnone
    · cases hnone
    · assumption
  · cases hnone
  · split at hnone
    · cases hnone
    · assumption
  · split at hnone
    · cases hnone
    · assumption
  · split at hnone <;> cases hnone
  · split at hnone <;> cases hnone
  · split at hnone <;> cases hnone
  · cases hnone
  · split at hnone
    · cases hnone
    · assumption
  · cases hnone
  · split at hnone
    · split at hnone
      · cases hnone
      · rename_i i hi hterm
        exact ⟨hi, Bool.eq_false_of_not_eq_true hterm⟩
    · cases hnone
  all_goals trivial

/-! ## The mutexes of a blocked state -/

section

variable (I : Inv root s) (L : Locks s) (hT : ∀ t, BlockedAt s (s.thread t))
  (hM : MainBlockedAt s s.main)

include L hT hM in
theorem search_mutex_free : s.search_mutex = none := by
  apply L.search.eq_none
  intro p hp
  cases p with
  | main =>
    have hp : s.main.holdsSearch = true := hp
    cases hpc : s.main <;> rw [hpc] at hp hM <;> first | exact hM | cases hp
  | thread t =>
    have hp : (s.thread t).holdsSearch = true := hp
    have hB := hT t
    cases hpc : s.thread t <;> rw [hpc] at hp hB <;> first | exact hB | cases hp

include L hT hM in
/-- Only `main` can be blocked with `finish_mutex`, before `lock(queue_mutex)`. -/
theorem finish_mutex_owner (hheld : s.finish_mutex ≠ none) : s.main = .lockQueue := by
  by_contra hmain
  refine hheld (L.finish.eq_none fun p hp => ?_)
  cases p with
  | main =>
    have hp : s.main.holdsFinish = true := hp
    cases hpc : s.main <;> rw [hpc] at hp hM <;>
      first | exact hM | exact hmain hpc | cases hp
  | thread t =>
    have hp : (s.thread t).holdsFinish = true := hp
    have hB := hT t
    cases hpc : s.thread t <;> rw [hpc] at hp hB <;> first | exact hB | cases hp

include I L hT hM in
theorem queue_mutex_free : s.queue_mutex = none := by
  apply L.queue.eq_none
  intro p hp
  cases p with
  | main =>
    have hp : s.main.holdsQueue = true := hp
    cases hpc : s.main <;> rw [hpc] at hp hM <;> first | exact hM | cases hp
  | thread t =>
    have hp : (s.thread t).holdsQueue = true := hp
    have hB := hT t
    have hA := I.allowed t
    -- a thread blocked before `lock(finish_mutex)` is not there in the phase of `main`
    cases hpc : s.thread t <;> rw [hpc] at hp hB hA <;> first | exact hB | cases hp
    · have hphase : s.main.phase = .search := hA.1
      rw [finish_mutex_owner L hT hM hB] at hphase; cases hphase
    · cases hA.2.2
    · cases hA.2

include I L hT hM in
theorem finish_mutex_free : s.finish_mutex = none := by
  by_contra hheld
  have hqueue := queue_mutex_free I L hT hM
  rw [finish_mutex_owner L hT hM hheld] at hM
  exact hM hqueue

/-! ## What a blocked state is like -/

include I L hT hM in
/-- The threads sleep, wait for the start or have terminated. -/
theorem blocked_thread (t : Fin n) : s.thread t = .waitStart ∨ s.thread t = .sleep ∨
    (s.thread t).terminated = true := by
  have hB := hT t
  have hsearch := search_mutex_free L hT hM
  have hfinish := finish_mutex_free I L hT hM
  have hqueue := queue_mutex_free I L hT hM
  cases hpc : s.thread t <;> rw [hpc] at hB <;>
    first | exact absurd hsearch hB | exact absurd hfinish hB | exact absurd hqueue hB |
      exact absurd hB id | simp [ThreadPc.terminated]

include I L hT hM in
/-- While `main` waits, a blocked thread is idle or has failed. -/
theorem blocked_idle_or_failed (hphase : s.main.phase = .search) (t : Fin n) :
    (s.thread t = .sleep ∧ t ∈ s.g_thread_queue) ∨ (s.thread t).isFailed = true := by
  have hA := I.allowed t
  have hview : (s.view t).phase = .search := hphase
  rcases blocked_thread I L hT hM t with hpc | hpc | hterm
  · rw [hpc] at hA
    exact absurd (hview.symm.trans hA.1) nofun
  · rw [hpc] at hA
    exact .inl ⟨hpc, hA.2.1⟩
  · cases hpc : s.thread t <;> rw [hpc] at hterm hA <;> cases hterm
    · exact .inr rfl
    · exact absurd (hview.symm.trans hA.1) nofun

include I L hT hM in
/-- `main` does not wait in a blocked state. -/
theorem not_waiting_of_blocked (hU : s.Uniform) (hmain : s.main = .waiting) : False := by
  have hphase : s.main.phase = .search := by rw [hmain]; rfl
  have hwho := blocked_idle_or_failed I L hT hM hphase
  have hknows := I.main
  unfold MainKnows at hknows
  rw [hmain] at hknows
  obtain ⟨hnot, hfailed⟩ := hknows
  have hcount : s.g_thread_queue.length + s.g_failed_threads = n := by
    rw [I.failed]
    exact card_of_covered I.nodup I.not_failed fun t => (hwho t).imp_left And.right
  have hdirs : s.g_dir_queue ≠ [] := fun hnil => hnot ⟨hnil, hcount⟩
  have hthreads : s.g_thread_queue ≠ [] := by
    intro hnil
    rw [hnil] at hcount
    exact hfailed ((Nat.zero_add _).symm.trans hcount)
  cases hready : s.g_all_threads_ready with
  | true =>
    -- the thread that the barrier woke is on its way to the root directory
    obtain ⟨t, ht⟩ := I.launch hready hdirs hthreads
    have hpoint := ht.point
    rcases hwho t with ⟨-, hidle⟩ | hfail
    · exact ht.working hidle
    · cases hpc : s.thread t <;> rw [hpc] at hpoint hfail <;> cases hpoint <;> cases hfail
  | false =>
    rcases hU hready with hnone | hall
    · -- nobody has failed, and the last thread to become idle is at the barrier
      have hzero : s.g_failed_threads = 0 := by
        rw [I.failed, Finset.card_eq_zero, Search.failedThreads, Finset.filter_eq_empty_iff]
        intro t _ hfail
        have h := hnone t
        cases hpc : s.thread t <;> rw [hpc] at h hfail <;> cases hfail
        cases h
      obtain ⟨t, ht⟩ := I.full hready (by omega)
      have hB := hT t
      rw [ht] at hB; exact hB
    · -- nobody has become idle
      obtain ⟨t, ht⟩ := List.exists_mem_of_ne_nil _ hthreads
      have h := hall t
      rcases hwho t with ⟨hpc, -⟩ | hfail
      · rw [hpc] at h; cases h
      · exact I.not_failed t ht hfail

include I L hT hM in
theorem finished_of_blocked (hU : s.Uniform) : s.Finished := by
  have hsearch := search_mutex_free L hT hM
  have hfinish := finish_mutex_free I L hT hM
  have hqueue := queue_mutex_free I L hT hM
  have hknows := I.main
  unfold MainKnows at hknows
  cases hmain : s.main <;> rw [hmain] at hM hknows <;>
    first | exact absurd hsearch hM | exact absurd hfinish hM | exact absurd hqueue hM |
      exact absurd hM id | skip
  · exact (not_waiting_of_blocked I L hT (hmain ▸ hM) hU hmain).elim
  · obtain ⟨hi, hlive⟩ := hM
    rename_i i
    have hA := I.allowed ⟨i, hi⟩
    have hview : (s.view ⟨i, hi⟩).phase = .stopped := by simp [Search.view, hmain, MainPc.phase]
    rcases blocked_thread I L hT (hmain ▸ ⟨hi, hlive⟩) ⟨i, hi⟩ with hpc | hpc | hterm
    · rw [hpc] at hA
      cases hview.symm.trans hA.1
    · rw [hpc] at hA
      rcases hA.1 with h | ⟨h, -⟩ <;> cases hview.symm.trans h
    · exact absurd (hlive.symm.trans hterm) Bool.false_ne_true
  · exact ⟨hmain, hknows⟩

end

/-- **A uniform state in which the discipline holds is not stuck.** -/
theorem not_stuck (I : Inv root s) (L : Locks s) (hU : s.Uniform) :
    ¬s.Stuck fs g_search_term := by
  rintro ⟨hlive, hno⟩
  refine hlive (finished_of_blocked I L (fun t => ?_) ?_ hU)
  · refine blockedAt I (show s.threadNext fs g_search_term t = none from ?_)
    by_contra hsome
    obtain ⟨s', hs'⟩ := Option.ne_none_iff_exists'.1 hsome
    exact hno (.inr ⟨t, s', hs'⟩)
  · apply mainBlockedAt
    by_contra hsome
    obtain ⟨s', hs'⟩ := Option.ne_none_iff_exists'.1 hsome
    exact hno (.inl ⟨s', hs'⟩)

/-! ## Uniform runs -/

/-- Whether a thread is failing, and whether it is still without its `thread_entry`. -/
def ThreadPc.stage (pc : ThreadPc) : Bool × Bool := (pc.failing, pc.fresh)

/-- The threads stay in their stages, and the start barrier stays passed. -/
def KeepsStages (s s' : Search n) : Prop :=
  (∀ u, (s'.thread u).stage = (s.thread u).stage) ∧
    (s'.g_all_threads_ready = false → s.g_all_threads_ready = false)

theorem ThreadPc.stage_signalled (pc : ThreadPc) : pc.signalled.stage = pc.stage := by
  cases pc <;> rfl

theorem ThreadPc.stage_broadcast (pc : ThreadPc) : pc.broadcast.stage = pc.stage := by
  cases pc <;> rfl

variable {s' : Search n}

theorem KeepsStages.goto (h : KeepsStages s s') {pc pc' : ThreadPc} (hpc : s.thread t = pc)
    (hstage : pc'.stage = pc.stage) : KeepsStages s (s'.goto t pc') := by
  refine ⟨fun u => ?_, h.2⟩
  by_cases hu : u = t
  · subst hu; rw [Search.goto_self, hstage, hpc]
  · rw [Search.goto_of_ne _ _ hu]; exact h.1 u

theorem keepsStages_signalThread (h : KeepsStages s s') (u : Fin n) :
    KeepsStages s (s'.signalThread u) := by
  refine ⟨fun v => ?_, h.2⟩
  by_cases hv : v = u
  · subst hv
    rw [Search.signalThread, Search.goto_self, ThreadPc.stage_signalled]; exact h.1 v
  · rw [Search.signalThread, Search.goto_of_ne _ _ hv]; exact h.1 v

theorem keepsStages_passBarrier (hpc : s.thread t = .barrier) (hs : s.passBarrier t = some s') :
    KeepsStages s s' := by
  cases barrierMove hs with
  | launch u queue _ _ _ _ =>
    have h : KeepsStages s { s with
        g_all_threads_ready := true
        g_thread_queue := queue
        queue_mutex := none } := ⟨fun _ => rfl, fun h => by cases h⟩
    exact KeepsStages.goto (keepsStages_signalThread h u) hpc rfl
  | alone _ queue _ _ _ _ =>
    have h : KeepsStages s { s with g_all_threads_ready := true, g_thread_queue := queue } :=
      ⟨fun _ => rfl, fun h => by cases h⟩
    exact h.goto hpc rfl
  | sleep _ => exact KeepsStages.goto ⟨fun _ => rfl, id⟩ hpc rfl

theorem keepsStages_giveDir (s : Search n) (child : DirQueueEntry) :
    KeepsStages s (s.giveDir child) := by
  rcases giveDir_cases s child with ⟨u, queue, -, heq⟩ | ⟨-, heq⟩
  · rw [heq]
    exact keepsStages_signalThread ⟨fun _ => rfl, id⟩ _
  · rw [heq]
    exact ⟨fun _ => rfl, id⟩

theorem keepsStages_threadNext (hmalloc : s.thread t ≠ .malloc)
    (hs : s.threadNext fs g_search_term t = some s') : KeepsStages s s' := by
  have hsame : KeepsStages s s := ⟨fun _ => rfl, id⟩
  cases threadMove hs with
  | malloc hpc => exact absurd hpc hmalloc
  | enqueue hpc =>
    refine KeepsStages.goto ?_ hpc rfl
    unfold Search.threadEnqueue
    split <;> exact hsame
  | barrier hpc hs => exact keepsStages_passBarrier hpc hs
  | give hpc => exact KeepsStages.goto (keepsStages_giveDir s _) hpc rfl
  | openDir hpc | closeDir hpc | fail hpc => exact hsame.goto hpc rfl
  | lockSearch hpc _ | wakeStart hpc _ | started hpc _ | waitStart hpc _ | lockQueue hpc _
  | wake hpc _ | idle hpc _ | busy hpc _ | lockFinish hpc _ | search hpc _ | exit hpc _
  | takeOwn hpc _ | takeNext hpc _ _ | skip hpc _ | found hpc _ | denied hpc _ | folder hpc _
  | lockGive hpc _ | lockFail hpc _ => exact hsame.goto hpc rfl

theorem keepsStages_mainNext (hs : s.mainNext = some s') : KeepsStages s s' := by
  have F := mainFrame hs
  refine ⟨fun u => ?_, fun hready => F.ready.symm.trans hready⟩
  rcases F.thread with h | h | h
  · rw [h]
  · rw [h, ThreadPc.stage_broadcast]
  · rw [h, ThreadPc.stage_signalled]

/-- A step in which every call succeeds makes no thread fail. -/
theorem failing_threadNext (hs : s.threadNext fs g_search_term t = some s') (u : Fin n) :
    (s'.thread u).failing = (s.thread u).failing := by
  by_cases hpc : s.thread t = .malloc
  · simp only [Search.threadNext, hpc] at hs
    cases hs
    by_cases hu : u = t
    · subst hu; rw [Search.goto_self, hpc]; rfl
    · rw [Search.goto_of_ne _ _ hu]
  · exact congrArg Prod.fst ((keepsStages_threadNext hpc hs).1 u)

theorem failing_mainNext (hs : s.mainNext = some s') (u : Fin n) :
    (s'.thread u).failing = (s.thread u).failing :=
  congrArg Prod.fst ((keepsStages_mainNext hs).1 u)

/-- A call that fails makes its thread fail. -/
theorem failing_threadFault {f : Fault} (hs : s.threadFault t f = some s') :
    (s'.thread t).failing = true := by
  cases faultMove hs with
  | malloc _ | openDir _ | stat _ _ | give _ _ => rw [Search.goto_self]; rfl

/-! ## Two ways for a run to be uniform -/

/-- Nobody has failed before the start barrier was passed. -/
def NoneFailing (s : Search n) : Prop :=
  s.g_all_threads_ready = false → ∀ t, (s.thread t).failing = false

/-- Nobody has got its `thread_entry`. -/
def NoneEntered (s : Search n) : Prop := ∀ t, ((s.thread t).failing || (s.thread t).fresh) = true

theorem KeepsStages.noneFailing (K : KeepsStages s s') (h : NoneFailing s) : NoneFailing s' := by
  intro hready u
  have hstage := congrArg Prod.fst (K.1 u)
  exact Eq.trans hstage (h (K.2 hready) u)

theorem KeepsStages.noneEntered (K : KeepsStages s s') (h : NoneEntered s) : NoneEntered s' := by
  intro u
  have hfailing : (s'.thread u).failing = (s.thread u).failing := congrArg Prod.fst (K.1 u)
  have hfresh : (s'.thread u).fresh = (s.thread u).fresh := congrArg Prod.snd (K.1 u)
  rw [hfailing, hfresh]; exact h u

/-- As long as no `malloc` of a `thread_entry` fails. -/
theorem noneFailing_step {a : Action n} (I : Inv root s) (h : NoneFailing s) (ha : a.Orderly)
    (hentry : ∀ t, a ≠ .fault t .threadEntry) (hs : SearchStep fs g_search_term s a s') :
    NoneFailing s' := by
  cases a with
  | main => exact (keepsStages_mainNext hs).noneFailing h
  | thread t =>
    by_cases hpc : s.thread t = .malloc
    · simp only [SearchStep, Search.next, Search.threadNext, hpc] at hs
      cases hs
      intro hready u
      by_cases hu : u = t
      · subst hu; rw [Search.goto_self]; rfl
      · rw [Search.goto_of_ne _ _ hu]; exact h hready u
    · exact (keepsStages_threadNext hpc hs).noneFailing h
  | fault t f =>
    -- the file system is used after the barrier only
    have hready : s'.g_all_threads_ready = true := by
      have hA := I.allowed t
      cases faultMove (f := f) hs with
      | malloc _ => exact absurd rfl (hentry t)
      | openDir hpc | stat hpc _ => rw [hpc] at hA; exact hA.2.2
      | give _ _ => exact absurd rfl ha
    intro hnot
    exact absurd (hnot.symm.trans hready) Bool.false_ne_true
  | mainSpurious => exact absurd ha id
  | threadSpurious t => exact absurd ha id

/-- As long as every `malloc` of a `thread_entry` fails. -/
theorem noneEntered_step {a : Action n} (h : NoneEntered s) (ha : a.Orderly)
    (hentry : ∀ t, a = .thread t → s.thread t ≠ .malloc)
    (hs : SearchStep fs g_search_term s a s') : NoneEntered s' := by
  cases a with
  | main => exact (keepsStages_mainNext hs).noneEntered h
  | thread t => exact (keepsStages_threadNext (hentry t rfl) hs).noneEntered h
  | fault t f =>
    have ht := h t
    have hgoto : ∀ s₁ : Search n, s₁.thread = s.thread → NoneEntered (s₁.goto t (.lockFail false)) := by
      intro s₁ hs₁ u
      by_cases hu : u = t
      · subst hu; rw [Search.goto_self]; rfl
      · rw [Search.goto_of_ne _ _ hu, hs₁]; exact h u
    cases faultMove (f := f) hs with
    | malloc _ | openDir _ | stat _ _ => exact hgoto _ rfl
    | give _ _ => exact absurd rfl ha
  | mainSpurious => exact absurd ha id
  | threadSpurious t => exact absurd ha id

end OSCourse.Pfind
