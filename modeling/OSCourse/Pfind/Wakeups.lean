import OSCourse.Pfind.Allocation
import OSCourse.Pfind.Weights

/-!
# Waits that return without a signal

Here every call succeeds, and `pthread_cond_wait` may return without a signal.  A thread that wakes
so is still in the thread queue, and `should_thread_sleep` looks at the directory queue only.

* `Exclusive` — an idle thread works on no directory and was handed none, and out of the wait loop
  of `main` there is no directory left.
* `Resleeps` — the condition on one step: an idle thread that makes its sleep test after the start
  barrier finds no directory in the queue.
* `Fits` — what holds of a thread at each program point; `Roles` — the invariant.
* `idle_or_working` — **a run that meets the condition keeps threads idle or working, and a step
  that does not is two steps away from a thread that is both**.
-/

set_option autoImplicit false

namespace OSCourse.Pfind

open Mutex Transition

variable {n : Nat} {fs : FileSys} {g_search_term : List UInt8} {root : Path} {s s' : Search n}
  {t : Fin n}

/-- The steps in which no call fails. -/
def Action.Faultless : Action n → Prop
  | .fault .. => False
  | .main | .thread _ | .mainSpurious | .threadSpurious _ => True

/-- From `opendir` to the end of the directory. -/
def ThreadPc.processing : ThreadPc → Bool
  | .openDir _ | .iterate .. | .lockGive .. | .give .. => true
  | _ => false

structure Exclusive (s : Search n) : Prop where
  idle : ∀ t ∈ s.g_thread_queue, (s.thread t).processing = false ∧ s.dir_to_handle t = none
  ended : s.Over → s.g_dir_queue = [] ∧
    ∀ t, (s.thread t).processing = false ∧ s.dir_to_handle t = none

/-- The condition on one step. -/
def Resleeps (s : Search n) (a : Action n) : Prop :=
  ∀ t, a = .thread t → s.thread t = .testSleep → t ∈ s.g_thread_queue → s.g_is_search = true →
    s.g_all_threads_ready = true → s.g_dir_queue = []

instance (s : Search n) (a : Action n) : Decidable (Resleeps s a) :=
  inferInstanceAs (Decidable (∀ t, a = .thread t → s.thread t = .testSleep → t ∈ s.g_thread_queue →
    s.g_is_search = true → s.g_all_threads_ready = true → s.g_dir_queue = []))

/-! ## The invariant -/

/-- In `wait_for_start`. -/
def ThreadPc.starting : ThreadPc → Bool
  | .start | .testStart | .waitStart | .wakeStart => true
  | _ => false

/-- What holds of a thread at a program point. -/
def Fits (s : Search n) (t : Fin n) : ThreadPc → Prop
  | .lockFinish | .enqueue => s.g_all_threads_ready = true → s.g_dir_queue = []
  | .testSearch => s.g_all_threads_ready = true ∧ (t ∈ s.g_thread_queue → s.g_is_search = false)
  | .take => s.g_all_threads_ready = true ∧ t ∉ s.g_thread_queue
  | .openDir _ | .iterate .. | .lockGive .. | .give .. => t ∉ s.g_thread_queue
  | .lockFail _ | .fail _ | .failed _ => False
  | _ => True

structure Roles (s : Search n) : Prop where
  searching : s.g_is_search = true ↔ s.main.phase = .search ∨ s.main = .stopSearch
  before : s.main.phase = .before → ∀ t, (s.thread t).starting = true
  fits : ∀ t, Fits s t (s.thread t)
  dir : ∀ t ∈ s.g_thread_queue, s.dir_to_handle t = none
  nodup : s.g_thread_queue.Nodup
  healthy : s.g_failed_threads = 0
  notReady : s.g_all_threads_ready = false → s.g_dir_queue ≠ []
  full : s.g_all_threads_ready = true → s.g_thread_queue.length = n → s.g_dir_queue = []
  ended : s.Over → s.g_all_threads_ready = true ∧ s.g_thread_queue.length = n
  counts : s.main = .readCounts → s.g_all_threads_ready = true

theorem roles_init (root : Path) : Roles (Search.init n root) where
  searching := by simp [Search.init, MainPc.phase]
  before _ _ := rfl
  fits _ := trivial
  dir _ h := by cases h
  nodup := List.nodup_nil
  healthy := rfl
  notReady _ := List.cons_ne_nil _ _
  full h := by cases h
  ended h := by rcases h with h | h <;> cases h
  counts h := by cases h

/-- With all of them in the queue, every thread is idle. -/
theorem Roles.all_idle (I : Roles s) (hlen : s.g_thread_queue.length = n) (u : Fin n) :
    u ∈ s.g_thread_queue := by
  have h := covered_of_card (P := fun _ => False) I.nodup (fun _ _ => id) (by simpa using hlen) u
  simpa using h

theorem Roles.not_processing (I : Roles s) (ht : t ∈ s.g_thread_queue) :
    (s.thread t).processing = false := by
  have h := I.fits t
  cases hpc : s.thread t <;> rw [hpc] at h <;> first | rfl | exact absurd ht h

theorem Roles.exclusive (I : Roles s) : Exclusive s := by
  refine ⟨fun t ht => ⟨I.not_processing ht, I.dir t ht⟩, fun hover => ?_⟩
  obtain ⟨hready, hlen⟩ := I.ended hover
  have hidle := I.all_idle hlen
  exact ⟨I.full hready hlen, fun t => ⟨I.not_processing (hidle t), I.dir t (hidle t)⟩⟩

/-! ## The steps of a thread -/

/-- What a step of `t` does to the others, before `t` goes on to its next point. -/
structure Shared (s s' : Search n) (t : Fin n) : Prop where
  searching : s'.g_is_search = s.g_is_search
  failed : s'.g_failed_threads = s.g_failed_threads
  ready : s.g_all_threads_ready = true → s'.g_all_threads_ready = true
  locked : (s'.g_dir_queue = s.g_dir_queue ∧ s'.g_all_threads_ready = s.g_all_threads_ready) ∨
    (s.thread t).holdsQueue = true
  threads : ∀ u, u ≠ t → u ∈ s'.g_thread_queue → u ∈ s.g_thread_queue
  thread : ∀ u, u ≠ t → s'.thread u = s.thread u ∨ s'.thread u = (s.thread u).signalled
  main : s'.main = s.main ∨ s'.main = s.main.signalled

theorem Shared.phase (S : Shared s s' t) : s'.main.phase = s.main.phase := by
  rcases S.main with h | h
  · rw [h]
  · rw [h, MainPc.phase_signalled]

theorem Shared.main_eq (S : Shared s s' t) {pc : MainPc} (hw : pc ≠ .waking) :
    s'.main = pc → s.main = pc := by
  rcases S.main with h | h
  · rw [h]; exact id
  · rw [h]
    cases s.main <;> simp only [MainPc.signalled] <;> intro heq <;>
      first | exact heq | exact absurd heq.symm hw

/-- Another thread fits at its point as before. -/
theorem Shared.fits (S : Shared s s' t) (L : Locks s) {u : Fin n} (hu : u ≠ t)
    (h : Fits s u (s.thread u)) : Fits s' u (s'.thread u) := by
  have hsame : Fits s' u (s.thread u) := by
    have hdirs : (s.thread u).holdsQueue = true → s'.g_dir_queue = s.g_dir_queue ∧
        s'.g_all_threads_ready = s.g_all_threads_ready := by
      intro hq
      rcases S.locked with h | h
      · exact h
      · exact absurd (L.not_holdsQueue h hu) (by rw [hq]; simp)
    have hthreads := S.threads u hu
    cases hpc : s.thread u <;> rw [hpc] at h hdirs <;> simp only [Fits] at h ⊢
    · rw [(hdirs rfl).1, (hdirs rfl).2]; exact h
    · rw [(hdirs rfl).1, (hdirs rfl).2]; exact h
    · rw [S.searching]; exact ⟨S.ready h.1, fun hq => h.2 (hthreads hq)⟩
    · exact ⟨S.ready h.1, fun hq => h.2 (hthreads hq)⟩
    all_goals exact fun hq => h (hthreads hq)
  rcases S.thread u hu with heq | heq
  · rw [heq]; exact hsame
  · rw [heq]
    cases hpc : s.thread u <;> rw [hpc] at hsame <;> exact hsame

/-- A step of `t` to `pc`. -/
theorem Roles.step (I : Roles s) (L : Locks s) (S : Shared s s' t) {pc : ThreadPc}
    (hstart : s.main.phase = .before → pc.starting = true) (hfits : Fits s' t pc)
    (hdir : ∀ u ∈ s'.g_thread_queue, s'.dir_to_handle u = none)
    (hnodup : s'.g_thread_queue.Nodup)
    (hready : s'.g_all_threads_ready = false → s'.g_dir_queue ≠ [])
    (hfull : s'.g_all_threads_ready = true → s'.g_thread_queue.length = n → s'.g_dir_queue = [])
    (hover : s.Over → s'.g_thread_queue.length = n) : Roles (s'.goto t pc) := by
  have hothers : ∀ u, u ≠ t → (s'.goto t pc).thread u = s'.thread u :=
    fun u hu => Search.goto_of_ne _ _ hu
  have hover' : s'.Over → s.Over := by
    unfold Search.Over
    rw [S.phase]; exact id
  refine ⟨?_, fun hphase u => ?_, fun u => ?_, hdir, hnodup, S.failed.trans I.healthy, hready, hfull,
    fun h => ⟨S.ready (I.ended (hover' h)).1, hover (hover' h)⟩,
    fun h => S.ready (I.counts (S.main_eq nofun h))⟩
  · show s'.g_is_search = true ↔ s'.main.phase = .search ∨ s'.main = .stopSearch
    rw [S.searching, S.phase, I.searching]
    refine or_congr_right ⟨fun h => ?_, S.main_eq nofun⟩
    rcases S.main with heq | heq
    · exact heq.trans h
    · rw [heq, h]; rfl
  · have hbefore : s.main.phase = .before := S.phase.symm.trans hphase
    by_cases hu : u = t
    · subst hu; rw [Search.goto_self]; exact hstart hbefore
    · rw [hothers u hu]
      have h := I.before hbefore u
      rcases S.thread u hu with heq | heq
      · rw [heq]; exact h
      · rw [heq]; cases hpc : s.thread u <;> rw [hpc] at h <;> first | rfl | cases h
  · show Fits s' u ((s'.goto t pc).thread u)
    by_cases hu : u = t
    · subst hu; rw [Search.goto_self]; exact hfits
    · rw [hothers u hu]; exact S.fits L hu (I.fits u)

/-- A step that the others do not see. -/
theorem Roles.goto (I : Roles s) (L : Locks s) (F : Frame s s' t) {pc : ThreadPc}
    (hstart : s.main.phase = .before → pc.starting = true) (hfits : Fits s' t pc)
    (hdir : s'.dir_to_handle t = s.dir_to_handle t ∨ s'.dir_to_handle t = none) :
    Roles (s'.goto t pc) := by
  have S : Shared s s' t := ⟨F.searching, F.failed, fun h => F.ready.trans h, .inl ⟨F.dirs, F.ready⟩,
    fun u _ => by rw [F.threads]; exact id, fun u _ => .inl (congrFun F.thread u), .inl F.main⟩
  refine I.step L S hstart hfits ?_ ?_ ?_ ?_ ?_
  · rw [F.threads]
    intro u hu
    by_cases hut : u = t
    · subst hut
      exact hdir.elim (fun h => h.trans (I.dir u hu)) id
    · exact (F.dir u hut).trans (I.dir u hu)
  · exact F.threads ▸ I.nodup
  · rw [F.ready, F.dirs]; exact I.notReady
  · rw [F.ready, F.dirs, F.threads]; exact I.full
  · rw [F.threads]; exact fun h => (I.ended h).2

theorem Roles.not_before (I : Roles s) (hpc : (s.thread t).starting = false) :
    s.main.phase ≠ .before := by
  intro hphase
  have h := I.before hphase t
  rw [hpc] at h; cases h

/-- A step from a point behind `wait_for_start` that the others do not see. -/
theorem Roles.move (I : Roles s) (L : Locks s) (hpc : (s.thread t).starting = false)
    (F : Frame s s' t) {pc : ThreadPc} (hfits : Fits s' t pc)
    (hdir : s'.dir_to_handle t = s.dir_to_handle t) : Roles (s'.goto t pc) :=
  I.goto L F (fun h => absurd h (I.not_before hpc)) hfits (.inl hdir)

/-- A thread that is not idle keeps `main` in its wait loop. -/
theorem Roles.not_over (I : Roles s) (ht : t ∉ s.g_thread_queue) : ¬s.Over :=
  fun hover => ht (I.all_idle (I.ended hover).2 t)

theorem roles_enqueue (I : Roles s) (L : Locks s) (hpc : s.thread t = .enqueue) :
    Roles ({ (s.threadEnqueue t).signalMain with finish_mutex := none }.goto t .barrier) := by
  have hfits := I.fits t
  rw [hpc] at hfits
  have hlate := I.not_before (t := t) (by rw [hpc]; rfl)
  unfold Search.threadEnqueue
  split
  · refine I.step L ?_ (fun h => absurd h hlate) ?_ I.dir I.nodup I.notReady I.full
      fun h => (I.ended h).2
    · exact ⟨rfl, rfl, id, .inl ⟨rfl, rfl⟩, fun _ _ => id, fun _ _ => .inl rfl, .inr rfl⟩
    · trivial
  · rename_i hidle
    refine I.step L ?_ (fun h => absurd h hlate) ?_ (fun u hu => ?_)
      (List.nodup_cons.2 ⟨hidle, I.nodup⟩) I.notReady (fun hready _ => hfits hready)
      fun h => absurd h (I.not_over hidle)
    · exact ⟨rfl, rfl, id, .inl ⟨rfl, rfl⟩, fun u hu h => (List.mem_cons.1 h).resolve_left hu,
        fun _ _ => .inl rfl, .inr rfl⟩
    · trivial
    · by_cases hut : u = t
      · subst hut; exact Function.update_self ..
      · exact (Function.update_of_ne hut ..).trans (I.dir u ((List.mem_cons.1 hu).resolve_left hut))

/-- The thread at the tail leaves the queue. -/
theorem dequeued {u : Fin n} {queue : List (Fin n)} (I : Roles s)
    (hqueue : s.g_thread_queue = queue ++ [u]) :
    (∀ v ∈ queue, v ∈ s.g_thread_queue ∧ v ≠ u) ∧ queue.Nodup ∧
      queue.length + 1 = s.g_thread_queue.length := by
  have hnodup := hqueue ▸ I.nodup
  refine ⟨fun v hv => ⟨by rw [hqueue]; exact List.mem_append_left _ hv, ?_⟩,
    hnodup.of_append_left, by rw [hqueue]; simp⟩
  rintro rfl
  exact List.disjoint_of_nodup_append hnodup hv (List.mem_singleton_self _)

theorem length_le (I : Roles s) : s.g_thread_queue.length ≤ n := by
  simpa using I.nodup.length_le_card

theorem roles_passBarrier (I : Roles s) (L : Locks s) (hpc : s.thread t = .barrier)
    (hs : s.passBarrier t = some s') : Roles s' := by
  have hlate := I.not_before (t := t) (by rw [hpc]; rfl)
  have hholds : (s.thread t).holdsQueue = true := by rw [hpc]; rfl
  have hnot : s.g_all_threads_ready = false → ¬s.Over := fun hready h =>
    absurd (hready.symm.trans (I.ended h).1) Bool.false_ne_true
  cases barrierMove hs with
  | launch u queue hready hlen hqueue _ =>
    obtain ⟨hmem, hnodup, hlength⟩ := dequeued I hqueue
    have hshort : queue.length ≠ n := by omega
    have hthreads : ∀ v, v ≠ t → v ∈ queue → v ∈ s.g_thread_queue := fun v _ hv => (hmem v hv).1
    refine I.step L ?_ (fun h => absurd h hlate) ?_ (fun v hv => I.dir v (hmem v hv).1) hnodup
      (fun h => by cases h) (fun _ h => absurd h hshort) fun h => absurd h (hnot hready)
    · refine ⟨rfl, rfl, fun _ => rfl, .inr hholds, hthreads, fun v _ => ?_, .inl rfl⟩
      by_cases hv : v = u
      · subst hv; exact .inr (Search.goto_self ..)
      · exact .inl (Search.goto_of_ne _ _ hv)
    · trivial
  | alone u queue hready hlen hqueue _ =>
    obtain ⟨hmem, hnodup, hlength⟩ := dequeued I hqueue
    have hshort : queue.length ≠ n := by omega
    have hthreads : ∀ v, v ≠ t → v ∈ queue → v ∈ s.g_thread_queue := fun v _ hv => (hmem v hv).1
    refine I.step L ?_ (fun h => absurd h hlate) ?_ (fun v hv => I.dir v (hmem v hv).1) hnodup
      (fun h => by cases h) (fun _ h => absurd h hshort) fun h => absurd h (hnot hready)
    · exact ⟨rfl, rfl, fun _ => rfl, .inr hholds, hthreads, fun _ _ => .inl rfl, .inl rfl⟩
    · trivial
  | sleep _ => exact I.move L (by rw [hpc]; rfl) .rest trivial rfl

/-- A directory leaves the queue. -/
theorem roles_takeDir (I : Roles s) (L : Locks s) (hpc : s.thread t = .take) (d : DirQueueEntry)
    (queue : List DirQueueEntry) :
    Roles ({ s with g_dir_queue := queue, queue_mutex := none }.goto t (.openDir d)) := by
  have hfits := I.fits t
  rw [hpc] at hfits
  obtain ⟨hready, hidle⟩ := hfits
  have hlate := I.not_before (t := t) (by rw [hpc]; rfl)
  refine I.step L ?_ (fun h => absurd h hlate) ?_ I.dir I.nodup (fun h => ?_) (fun _ h => ?_)
    fun h => absurd h (I.not_over hidle)
  · exact ⟨rfl, rfl, id, .inr (by rw [hpc]; rfl), fun _ _ => id, fun _ _ => .inl rfl, .inl rfl⟩
  · exact hidle
  · exact absurd (h.symm.trans hready) Bool.false_ne_true
  · exact absurd (I.all_idle h t) hidle

/-- A directory is given to a sleeping thread or to the queue. -/
theorem roles_give (I : Roles s) (L : Locks s) {d child : DirQueueEntry} {names : List Name}
    (hpc : s.thread t = .give d child names) :
    Roles ({ s.giveDir child with queue_mutex := none }.goto t (.iterate d names)) := by
  have hidle : t ∉ s.g_thread_queue := by
    have hfits := I.fits t
    rw [hpc] at hfits; exact hfits
  have hlate := I.not_before (t := t) (by rw [hpc]; rfl)
  rcases giveDir_cases s child with ⟨u, queue, hqueue, heq⟩ | ⟨hnil, heq⟩
  · rw [heq]
    obtain ⟨hmem, hnodup, hlength⟩ := dequeued I hqueue
    have hle := length_le I
    refine I.step L ?_ (fun h => absurd h hlate) ?_ (fun v hv => ?_) hnodup I.notReady
      (fun _ h => ?_) fun h => absurd h (I.not_over hidle)
    · refine ⟨rfl, rfl, id, .inl ⟨rfl, rfl⟩, fun v _ hv => (hmem v hv).1, fun v _ => ?_, .inl rfl⟩
      by_cases hv : v = u
      · subst hv; exact .inr (Search.goto_self ..)
      · exact .inl (Search.goto_of_ne _ _ hv)
    · exact fun ht => hidle (hmem t ht).1
    · exact (Function.update_of_ne (hmem v hv).2 ..).trans (I.dir v (hmem v hv).1)
    · have hlen : queue.length = n := h
      omega
  · rw [heq]
    refine I.step L ?_ (fun h => absurd h hlate) ?_ I.dir I.nodup (fun _ => List.cons_ne_nil _ _)
      (fun _ h => ?_) fun h => absurd h (I.not_over hidle)
    · exact ⟨rfl, rfl, id, .inr (by rw [hpc]; rfl), fun _ _ => id, fun _ _ => .inl rfl, .inl rfl⟩
    · exact hidle
    · exact absurd (I.all_idle h t) hidle

/-- A step of `wait_for_start`. -/
theorem Roles.start (I : Roles s) (L : Locks s) (F : Frame s s' t) {pc : ThreadPc}
    (hstart : pc.starting = true) (hdir : s'.dir_to_handle t = s.dir_to_handle t) :
    Roles (s'.goto t pc) := by
  refine I.goto L F (fun _ => hstart) ?_ (.inl hdir)
  cases pc <;> trivial

theorem roles_threadNext (I : Roles s) (L : Locks s) (hq : Resleeps s (.thread t))
    (hs : s.threadNext fs g_search_term t = some s') : Roles s' := by
  have hfits := I.fits t
  cases threadMove hs with
  | lockSearch _ _ | wakeStart _ _ | waitStart _ _ => exact I.start L .rest rfl rfl
  | started hpc hsearch =>
    refine I.goto L .rest (fun hphase => ?_) trivial (.inl rfl)
    rcases I.searching.1 hsearch with h | h
    · cases hphase.symm.trans h
    · rw [h] at hphase; cases hphase
  | malloc hpc | lockQueue hpc _ | wake hpc _ | exit hpc _ =>
    exact I.move L (by rw [hpc]; rfl) .rest trivial rfl
  | idle hpc hsleep =>
    refine I.move L (by rw [hpc]; rfl) .rest (fun hready => ?_) rfl
    rcases ((shouldThreadSleep_iff s t).1 hsleep).2 with h | h
    · exact absurd (h.symm.trans hready) Bool.false_ne_true
    · exact h.1
  | busy hpc hsleep =>
    rw [ne_eq, shouldThreadSleep_iff, not_and, not_or, not_and_or] at hsleep
    have hlate := I.not_before (t := t) (by rw [hpc]; rfl)
    refine I.move L (by rw [hpc]; rfl) .rest ⟨?_, fun hidle => ?_⟩ rfl
    · by_cases hsearch : s.g_is_search = true
      · exact Bool.of_not_eq_false (hsleep hsearch).1
      · -- `main` has left its wait loop
        refine (I.ended ?_).1
        have hphase : s.main.phase ≠ .search := fun h => hsearch (I.searching.2 (.inl h))
        unfold Search.Over
        cases h : s.main.phase <;> simp_all
    · by_contra hsearch
      have hsearch := Bool.of_not_eq_false hsearch
      obtain ⟨hready, hwork⟩ := hsleep hsearch
      have hready := Bool.of_not_eq_false hready
      exact hwork.elim (fun h => h (hq t rfl hpc hidle hsearch hready)) fun h => h (I.dir t hidle)
  | enqueue hpc => exact roles_enqueue I L hpc
  | barrier hpc hs => exact roles_passBarrier I L hpc hs
  | search hpc hsearch =>
    rw [hpc] at hfits
    refine I.move L (by rw [hpc]; rfl) .rest ⟨hfits.1, fun hidle => ?_⟩ rfl
    exact absurd (hsearch.symm.trans (hfits.2 hidle)) Bool.false_ne_true.symm
  | takeOwn hpc _ =>
    rw [hpc] at hfits
    exact I.move L (by rw [hpc]; rfl) .rest hfits.2 rfl
  | takeNext hpc _ _ => exact roles_takeDir I L hpc _ _
  | closeDir hpc =>
    have hlate := I.not_before (t := t) (by rw [hpc]; rfl)
    refine I.goto L ?_ (fun h => absurd h hlate) trivial (.inr (Function.update_self ..))
    exact ⟨rfl, rfl, rfl, rfl, rfl, fun u hu => Function.update_of_ne hu .., rfl, rfl⟩
  | lockFinish hpc _ | openDir hpc | skip hpc _ | found hpc _ | denied hpc _ | folder hpc _
  | lockGive hpc _ =>
    rw [hpc] at hfits
    exact I.move L (by rw [hpc]; rfl) .rest hfits rfl
  | give hpc => exact roles_give I L hpc
  | lockFail hpc _ | fail hpc =>
    rw [hpc] at hfits
    exact hfits.elim

/-! ## The steps of `main` -/

/-- A signal moves no thread to a point where something has to hold. -/
theorem Fits.main (h : Fits s t (s.thread t)) {g_is_search : Bool}
    (hsearch : g_is_search = true → s.g_is_search = true) {search finish queue : Option (Proc n)}
    {f : ThreadPc → ThreadPc} (hf : ∀ pc, f pc = pc ∨ f pc = .wake ∨ f pc = .wakeStart)
    {pc : MainPc} :
    Fits { s with
      g_is_search := g_is_search
      search_mutex := search
      finish_mutex := finish
      queue_mutex := queue
      thread := fun t => f (s.thread t)
      main := pc } t (f (s.thread t)) := by
  rcases hf (s.thread t) with heq | heq | heq
  · rw [heq]
    cases hpc : s.thread t <;> rw [hpc] at h <;> first
      | exact h
      | exact ⟨h.1, fun hq => Bool.eq_false_iff.2 fun hs => absurd ((hsearch hs).symm.trans (h.2 hq))
          Bool.false_ne_true.symm⟩
  · rw [heq]; trivial
  · rw [heq]; trivial

/-- `main` goes to `pc`, and signals all threads or none. -/
theorem Roles.mainStep (I : Roles s) {f : ThreadPc → ThreadPc}
    (hf : ∀ pc, f pc = pc ∨ f pc = .wake ∨ f pc = .wakeStart) (pc : MainPc) (g_is_search : Bool)
    (hsearching : g_is_search = true ↔ pc.phase = .search ∨ pc = .stopSearch)
    (hmono : (g_is_search = true → s.g_is_search = true) ∨ s.main.phase = .before)
    (hbefore : pc.phase = .before → ∀ t, (f (s.thread t)).starting = true)
    (hover : pc.phase = .stopping ∨ pc.phase = .stopped →
      s.g_all_threads_ready = true ∧ s.g_thread_queue.length = n)
    (hcounts : pc = .readCounts → s.g_all_threads_ready = true)
    {search finish queue : Option (Proc n)} : Roles { s with
      g_is_search := g_is_search
      search_mutex := search
      finish_mutex := finish
      queue_mutex := queue
      thread := fun t => f (s.thread t)
      main := pc } := by
  refine ⟨hsearching, hbefore, fun t => ?_, I.dir, I.nodup, I.healthy, I.notReady, I.full, hover,
    hcounts⟩
  rcases hmono with hmono | hphase
  · exact (I.fits t).main hmono hf
  · -- in `wait_for_start` nothing has to hold
    have hstart := I.before hphase t
    show Fits _ t (f (s.thread t))
    rcases hf (s.thread t) with heq | heq | heq
    · rw [heq]; cases hpc : s.thread t <;> rw [hpc] at hstart <;> trivial
    · rw [heq]; trivial
    · rw [heq]; trivial

/-- `main` goes on within its phase. -/
theorem Roles.mainMove {old : MainPc} (I : Roles s) (hmain : s.main = old) (pc : MainPc)
    (hphase : pc.phase = old.phase) (hpc : pc ≠ .stopSearch) (hold : old ≠ .stopSearch)
    (hcounts : pc = .readCounts → s.g_all_threads_ready = true)
    {search finish queue : Option (Proc n)} : Roles { s with
      search_mutex := search
      finish_mutex := finish
      queue_mutex := queue
      main := pc } := by
  subst hmain
  refine I.mainStep (f := id) (fun _ => .inl rfl) pc s.g_is_search ?_ (.inl id) ?_ ?_ hcounts
  · rw [I.searching, hphase]
    simp [hpc, hold]
  · rw [hphase]; exact I.before
  · rw [hphase]; exact I.ended

theorem roles_mainNext (hn : 0 < n) (I : Roles s) (hs : s.mainNext = some s') : Roles s' := by
  cases mainMove hs with
  | lockSearch hpc _ => exact I.mainMove hpc .raise rfl (by simp) (by simp) (by simp)
  | raise hpc =>
    refine I.mainStep (f := ThreadPc.broadcast) (fun pc => ?_) .lockFinish true
      (by simp [MainPc.phase]) (.inr (by rw [hpc]; rfl)) (by simp [MainPc.phase]) ?_ (by simp)
    · cases pc <;> first | exact .inl rfl | exact .inr (.inr rfl)
    · rintro (h | h) <;> cases h
  | lockFinish hpc _ | wake hpc _ =>
    exact I.mainMove hpc .readDirs rfl (by simp) (by simp) (by simp)
  | noDirs hpc hdirs =>
    refine I.mainMove hpc .readCounts rfl (by simp) (by simp) fun _ => ?_
    by_contra hready
    exact I.notReady (Bool.eq_false_of_not_eq_true hready) hdirs
  | dirs hpc _ | someBusy hpc _ =>
    exact I.mainMove hpc .readFailed rfl (by simp) (by simp) (by simp)
  | allIdle hpc hcount =>
    refine I.mainStep (f := id) (fun _ => .inl rfl) .stopSearch s.g_is_search ?_ (.inl id)
      (by simp [MainPc.phase]) (fun _ => ⟨I.counts hpc, ?_⟩) (by simp)
    · exact iff_of_true (I.searching.2 (.inl (by rw [hpc]; rfl))) (.inr rfl)
    · rwa [I.healthy, Nat.add_zero] at hcount
  | wait hpc _ => exact I.mainMove hpc .waiting rfl (by simp) (by simp) (by simp)
  | allFailed hpc hcount =>
    rw [I.healthy] at hcount
    omega
  | stopSearch hpc =>
    exact I.mainStep (f := id) (fun _ => .inl rfl) .lockQueue false (by simp [MainPc.phase])
      (.inl (by simp)) (by simp [MainPc.phase]) (fun _ => I.ended (.inl (by rw [hpc]; rfl)))
      (by simp)
  | lockQueue hpc _ => exact I.mainMove hpc .signalAll rfl (by simp) (by simp) (by simp)
  | signalAll hpc =>
    refine I.mainStep (f := ThreadPc.signalled) (fun pc => ?_) (.join 0) s.g_is_search ?_ (.inl id)
      (by simp [MainPc.phase]) (fun _ => I.ended (.inl (by rw [hpc]; rfl))) (by simp)
    · cases pc <;> first | exact .inl rfl | exact .inr (.inl rfl)
    · rw [I.searching, hpc]; simp [MainPc.phase]
  | @join i _ hpc _ => exact I.mainMove hpc (.join (i + 1)) rfl (by simp) (by simp) (by simp)
  | joined hpc _ => exact I.mainMove hpc .done rfl (by simp) (by simp) (by simp)

/-! ## Runs -/

/-- **Every step without a failing call keeps the roles, if it meets the condition.** -/
theorem roles_step (hn : 0 < n) {a : Action n} (I : Roles s) (L : Locks s) (ha : a.Faultless)
    (hq : Resleeps s a) (hs : SearchStep fs g_search_term s a s') : Roles s' := by
  cases a with
  | main => exact roles_mainNext hn I hs
  | thread t => exact roles_threadNext I L hq hs
  | fault t f => exact absurd ha id
  | mainSpurious =>
    obtain ⟨hpc, rfl⟩ := mainSpurious_cases hs
    exact I.mainMove hpc .waking rfl (by simp) (by simp) (by simp)
  | threadSpurious t =>
    rcases threadSpurious_cases hs with ⟨-, rfl⟩ | ⟨hpc, rfl⟩
    · exact I.start L .rest rfl rfl
    · exact I.move L (by rw [hpc]; rfl) .rest trivial rfl

theorem roles_run {h : List (Action n)} (hn : 0 < n)
    (hr : Run (SearchStep fs g_search_term) (Search.init n root) h s)
    (ha : ∀ a ∈ h, a.Faultless)
    (hq : Run.EachStep (SearchStep fs g_search_term) (Search.init n root) Resleeps h) :
    Roles s := by
  have hrun : Roles s ∧ Locks s := by
    refine hr.invariantOn (P := fun s : Search n => Roles s ∧ Locks s)
      (Q := fun s (a : Action n) => a.Faultless ∧ Resleeps s a) ⟨roles_init root, locks_init root⟩
      (fun s a s' hs hq hstep => ?_) fun a h' hsuf t ht => ?_
    · exact ⟨roles_step hn hs.1 hs.2 hq.1 hq.2 hstep, locks_step hs.2 hstep⟩
    · exact ⟨ha a (hsuf.subset (List.mem_cons_self ..)), hq a h' hsuf t ht⟩
  exact hrun.1

/-- An idle thread that finds a directory at its sleep test takes it in three steps. -/
theorem not_exclusive_of_unmet (hq : ¬Resleeps s (.thread t)) :
    ∃ s', Run (SearchStep fs g_search_term) s [.thread t, .thread t, .thread t] s' ∧
      ¬Exclusive s' := by
  simp only [Resleeps, not_forall] at hq
  obtain ⟨u, heq, hpc, hidle, hsearch, hready, hdirs⟩ := hq
  cases heq
  have hsleep : shouldThreadSleep s t = false := by
    apply Bool.eq_false_iff.2
    intro h
    rcases ((shouldThreadSleep_iff s t).1 h).2 with h | h
    · exact absurd (h.symm.trans hready) Bool.false_ne_true
    · exact hdirs h.1
  have h₁ : SearchStep fs g_search_term s (.thread t) (s.goto t .testSearch) := by
    simp [SearchStep, Search.next, Search.threadNext, hpc, hsleep]
  have h₂ : SearchStep fs g_search_term (s.goto t .testSearch) (.thread t)
      ((s.goto t .testSearch).goto t .take) := by
    have hsearch : (s.goto t .testSearch).g_is_search = true := hsearch
    simp [SearchStep, Search.next, Search.threadNext, Search.goto_self, hsearch]
  have hlast : ∃ s' d, SearchStep fs g_search_term ((s.goto t .testSearch).goto t .take) (.thread t)
      s' ∧ s'.thread t = .openDir d ∧ s'.g_thread_queue = s.g_thread_queue := by
    have htake : ((s.goto t .testSearch).goto t .take).thread t = .take := Search.goto_self ..
    simp only [SearchStep, Search.next, Search.threadNext, htake]
    split
    · exact ⟨_, _, rfl, Search.goto_self .., rfl⟩
    · cases hdeq : dequeue ((s.goto t .testSearch).goto t .take).g_dir_queue with
      | none => exact absurd (dequeue_eq_none.1 hdeq) hdirs
      | some x => exact ⟨_, x.1, rfl, Search.goto_self .., rfl⟩
  obtain ⟨s', d, h₃, hthread, hqueue⟩ := hlast
  refine ⟨s', .step (.step (.step .nil h₁) h₂) h₃, fun E => ?_⟩
  have h := (E.idle t (by rw [hqueue]; exact hidle)).1
  rw [hthread] at h; cases h

/-- **A thread is idle or working**, in every state of a run in which an idle thread that makes its
sleep test after the start barrier finds no directory queued; and wherever one finds a directory,
three more of its steps make it both. -/
theorem idle_or_working {h : List (Action n)} (hn : 0 < n)
    (hr : Run (SearchStep fs g_search_term) (Search.init n root) h s)
    (ha : ∀ a ∈ h, a.Faultless) :
    (Run.EachStep (SearchStep fs g_search_term) (Search.init n root) Resleeps h → Exclusive s) ∧
      ∀ t, ¬Resleeps s (.thread t) →
        ∃ s', Run (SearchStep fs g_search_term) s [.thread t, .thread t, .thread t] s' ∧
          ¬Exclusive s' :=
  ⟨fun hq => (roles_run hn hr ha hq).exclusive, fun _ hq => not_exclusive_of_unmet hq⟩

/-- The thread 0 takes the root directory; the thread 1 wakes without a signal, finds the directory
queue empty and sleeps again. -/
def idleWake : List (Action 2) :=
  List.flatten [turns 2 0, turns 5 1, [.threadSpurious 1], turns 4 0, turns 8 1, turns 8 0,
    [.main, .main]]

theorem idle_or_working_wake : ∃ s, Run (SearchStep bareRoot []) (Search.init 2 [46]) idleWake s ∧
    s.g_all_threads_ready = true ∧ s.thread 1 = .sleep ∧ s.iterated = [⟨[46], [46]⟩] ∧
    Exclusive s := by
  have he : (Run.execOn (Search.next bareRoot []) Resleeps (Search.init 2 [46]) idleWake).any (fun s =>
      s.g_all_threads_ready = true ∧ s.thread 1 = .sleep ∧ s.iterated = [⟨[46], [46]⟩]) = true := by
    decide
  obtain ⟨s, hr, hq, hs⟩ := runOn_of_exec he
  obtain ⟨hready, hthread, hiterated⟩ := of_decide_eq_true hs
  exact ⟨s, hr, hready, hthread, hiterated, (idle_or_working (by decide) hr
    (by simp [idleWake, turns, Action.Faultless])).1 hq⟩

/-- The last of two threads to become idle wakes without a signal and takes the root directory. -/
def earlyWake : List (Action 2) :=
  List.flatten [[.main, .main, .main], turns 5 0, turns 4 1, [.threadSpurious 1], turns 8 1,
    turns 8 0, [.main, .main]]

/-- A thread iterates the root directory while its entry is in the thread queue, and `main` leaves
its wait loop. -/
theorem idle_thread_works :
    ¬∀ (n : Nat) (fs : FileSys) (g_search_term : List UInt8) (root : Path) (h : List (Action n))
      (s : Search n), 0 < n → isSearchable fs root = true →
      Run (SearchStep fs g_search_term) (Search.init n root) h s → (∀ a ∈ h, a.Faultless) →
      Exclusive s := by
  intro hclaim
  have he : (Run.exec (Search.next bareRoot []) (Search.init 2 [46]) earlyWake).any (fun s =>
      s.main = .stopSearch ∧ (s.thread 1).processing = true) = true := by
    decide
  obtain ⟨s, hr, hs⟩ := run_of_exec he
  obtain ⟨hmain, hthread⟩ := of_decide_eq_true hs
  have hE := hclaim 2 bareRoot [] [46] earlyWake s (by decide) rfl hr
    (by simp [earlyWake, turns, Action.Faultless])
  have h := ((hE.ended (.inl (by rw [hmain]; rfl))).2 1).1
  exact absurd (hthread.symm.trans h) Bool.false_ne_true.symm

end OSCourse.Pfind
