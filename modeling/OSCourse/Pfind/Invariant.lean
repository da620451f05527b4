import OSCourse.Pfind.Discipline

/-!
# Every orderly step keeps the discipline

The steps that the other parties see: a thread becomes idle, the last one passes the start barrier,
a directory leaves the queue, a directory is given, a thread fails, and the steps of `main`.

* `Action.Orderly` — no `malloc` of `dir_enqueue` fails, and waits return after a signal only.
* `inv_step`, `good_run` — **the discipline holds in every run of such steps**.
-/

set_option autoImplicit false

namespace OSCourse.Pfind

open Mutex Transition

variable {n : Nat} {root : DirQueueEntry} {s s' : Search n} {t : Fin n}

/-! ## The steps of a thread that others see -/

theorem Inv.is_search (I : Inv root s) (hphase : s.main.phase = .search) : s.g_is_search = true :=
  I.searching.2 (.inl hphase)

theorem Inv.phase_ne_stopped (I : Inv root s) (hsearch : s.g_is_search = true) :
    s.main.phase ≠ .stopped := by
  intro hphase
  rcases I.searching.1 hsearch with h | h
  · rw [h] at hphase; cases hphase
  · rw [h] at hphase; cases hphase

theorem failedThreads_congr (h : ∀ u, (s'.thread u).isFailed = (s.thread u).isFailed) :
    s'.failedThreads = s.failedThreads := by
  ext u
  simp only [Search.failedThreads, Finset.mem_filter, Finset.mem_univ, true_and, h u]

/-- While `t` holds `queue_mutex`, another thread is at a point where it does not. -/
theorem Locks.not_holdsQueue (L : Locks s) (ht : (s.thread t).holdsQueue = true) {u : Fin n}
    (hu : u ≠ t) : (s.thread u).holdsQueue = false := by
  by_contra hcon
  have huq : s.holdsQueue (.thread u) = true := Bool.of_not_eq_false hcon
  have htq : s.holdsQueue (.thread t) = true := ht
  exact hu (Proc.thread.inj (L.queue.unique huq htq))

theorem Locks.not_barrier (L : Locks s) (ht : (s.thread t).holdsQueue = true) {u : Fin n}
    (hu : u ≠ t) : s.thread u ≠ .barrier := by
  intro hpc
  have h := L.not_holdsQueue ht hu
  rw [hpc] at h; cases h

theorem Locks.main_not_finish (L : Locks s) (ht : (s.thread t).holdsFinish = true) :
    s.main.holdsFinish = false := by
  by_contra hcon
  have hm : s.holdsFinish .main = true := Bool.of_not_eq_false hcon
  have ht : s.holdsFinish (.thread t) = true := ht
  cases L.finish.unique hm ht

theorem Search.signalThread_eq {u : Fin n} (hu : s.thread u = .sleep) :
    s.signalThread u = s.goto u .wake := by
  rw [Search.signalThread, hu]; rfl

/-- `t` becomes idle. -/
theorem inv_enqueue (I : Inv root s) (L : Locks s) (hpc : s.thread t = .enqueue) :
    Inv root ({ (s.threadEnqueue t).signalMain with finish_mutex := none }.goto t .barrier) := by
  have hA := I.allowed t
  rw [hpc] at hA
  obtain ⟨hphase, hidle, hdir, hdirs⟩ := hA
  have hqueue : (s.thread t).holdsQueue = true := by rw [hpc]; rfl
  have hidle : t ∉ s.g_thread_queue := hidle
  have hphase : s.main.phase = .search := hphase
  have hfinish : s.main.holdsFinish = false := L.main_not_finish (t := t) (by rw [hpc]; rfl)
  have hphase' : s.main.signalled.phase = .search := (MainPc.phase_signalled _).trans hphase
  rw [Search.threadEnqueue, if_neg hidle]
  refine ⟨iff_of_true (I.is_search hphase) (.inl hphase'), fun u => ?_,
    List.nodup_cons.2 ⟨hidle, I.nodup⟩, ?_, I.notReady, ?_, ?_, fun u hu => ?_, ?_⟩
  · by_cases hu : u = t
    · subst hu
      rw [Search.goto_self]
      exact ⟨.inl hphase', List.mem_cons_self .., Function.update_self ..⟩
    · rw [Search.goto_of_ne _ _ hu]
      refine I.allowed_congr (MainPc.phase_signalled _) rfl rfl ?_ (Function.update_of_ne hu ..)
      show u ∈ t :: s.g_thread_queue ↔ u ∈ s.g_thread_queue
      simp [hu]
  · rw [failedThreads_congr (s := s)]
    · exact I.failed
    · intro u
      by_cases hu : u = t
      · subst hu; rw [Search.goto_self, hpc]; rfl
      · rw [Search.goto_of_ne _ _ hu]; rfl
  · intro hready hne
    exact absurd (hdirs hready) hne
  · exact fun _ _ => ⟨t, Search.goto_self ..⟩
  · by_cases hut : u = t
    · subst hut; exact ⟨_, rfl⟩
    · rw [Search.goto_of_ne _ _ hut] at hu
      exact absurd hu (L.not_barrier hqueue hut)
  · exact mainKnows_signalled hphase hfinish rfl

/-- With all of them in the queue, every thread is idle. -/
theorem Inv.all_idle (I : Inv root s) (hlen : s.g_thread_queue.length = n) (u : Fin n) :
    u ∈ s.g_thread_queue := by
  have h := covered_of_card (P := fun _ => False) I.nodup (fun _ _ => id) (by simpa using hlen) u
  simpa using h

/-- The last thread to become idle wakes the one that became idle first. -/
theorem inv_wakeFirst (I : Inv root s) (L : Locks s) (hpc : s.thread t = .barrier)
    (hphase : s.main.phase = .search) (hready : s.g_all_threads_ready = false)
    (hlen : s.g_thread_queue.length = n) {u : Fin n} {queue : List (Fin n)}
    (hqueue : s.g_thread_queue = queue ++ [u]) (hut : u ≠ t) :
    Inv root ({ Search.signalThread { s with
      g_all_threads_ready := true
      g_thread_queue := queue } u with queue_mutex := none }.goto t .sleep) := by
  have hholds : (s.thread t).holdsQueue = true := by rw [hpc]; rfl
  have hasleep : ∀ v, v ≠ t → s.thread v = .sleep :=
    fun v hv => I.asleep L hphase hholds (I.all_idle hlen v) hv
  have hnodup := hqueue ▸ I.nodup
  have hu : u ∉ queue := fun hmem => List.disjoint_of_nodup_append hnodup hmem (by simp)
  have hmem : ∀ v, v ≠ u → v ∈ queue := fun v hv => by
    have h := hqueue ▸ I.all_idle hlen v
    simpa [hv] using h
  have hdirs : s.g_dir_queue = [root] := I.notReady hready
  have hdir : ∀ v, s.dir_to_handle v = none := fun v => (I.idle_cases hphase (I.all_idle hlen v)).2
  rw [Search.signalThread_eq (u := u) (by exact hasleep u hut)]
  generalize hs' : Search.goto _ t .sleep = s'
  have hthread : ∀ v, v ≠ u → s'.thread v = .sleep := by
    intro v hv
    subst hs'
    by_cases hvt : v = t
    · subst hvt; exact Search.goto_self ..
    · rw [Search.goto_of_ne _ _ hvt]
      exact (Search.goto_of_ne _ _ hv).trans (hasleep v hvt)
  have hwake : s'.thread u = .wake := by
    subst hs'
    rw [Search.goto_of_ne _ _ hut]; exact Search.goto_self ..
  refine ⟨?_, fun v => ?_, ?_, ?_, ?_, ?_, ?_, fun v hv => ?_, ?_⟩
  · subst hs'; exact iff_of_true (I.is_search hphase) (.inl hphase)
  · by_cases hvu : v = u
    · subst hvu; rw [hwake]; subst hs'; exact .inl ⟨hphase, hu, rfl⟩
    · rw [hthread v hvu]; subst hs'; exact ⟨.inl hphase, hmem v hvu, hdir v⟩
  · subst hs'; exact hnodup.of_append_left
  · rw [failedThreads_congr (s := s)]
    · subst hs'; exact I.failed
    · intro v
      by_cases hvu : v = u
      · subst hvu; rw [hwake, hasleep v hut]; rfl
      · rw [hthread v hvu]
        by_cases hvt : v = t
        · subst hvt; rw [hpc]; rfl
        · rw [hasleep v hvt]
  · subst hs'; intro h; cases h
  · subst hs'
    intro _ _ _
    exact ⟨u, hu, by rw [hwake]; rfl, hdir u, congrArg List.length hdirs⟩
  · subst hs'; intro h; cases h
  · by_cases hvu : v = u
    · subst hvu; rw [hwake] at hv; cases hv
    · rw [hthread v hvu] at hv; cases hv
  · subst hs'
    refine I.main.of_not_done hphase rfl (fun _ => rfl) ?_ rfl
    rintro ⟨hnil, -⟩
    exact List.cons_ne_nil _ _ (hdirs.symm.trans hnil)

/-- A thread that is alone goes on at once. -/
theorem inv_goAlone (I : Inv root s) (hpc : s.thread t = .barrier)
    (hphase : s.main.phase = .search) (hready : s.g_all_threads_ready = false)
    (halone : ∀ u, u = t) :
    Inv root ({ s with g_all_threads_ready := true, g_thread_queue := [] }.goto t .testSleep) := by
  have hself : ∀ (s : Search n) pc u, (s.goto t pc).thread u = pc := fun s pc u => by
    rw [halone u]; exact Search.goto_self ..
  refine ⟨iff_of_true (I.is_search hphase) (.inl hphase), fun u => ?_, List.nodup_nil, ?_, ?_, ?_, ?_,
    fun u hu => ?_, ?_⟩
  · rw [hself]
    exact .inl ⟨hphase, List.not_mem_nil, fun h => by cases h⟩
  · rw [failedThreads_congr (s := s)]
    · exact I.failed
    · intro u; rw [hself, halone u, hpc]; rfl
  · intro h; cases h
  · intro _ _ h; exact absurd rfl h
  · intro h; cases h
  · rw [hself] at hu; cases hu
  · refine I.main.of_not_done hphase rfl (fun _ => rfl) ?_ rfl
    rintro ⟨hnil, -⟩
    exact List.cons_ne_nil _ _ ((I.notReady hready).symm.trans hnil)

theorem inv_passBarrier (I : Inv root s) (L : Locks s) (hpc : s.thread t = .barrier)
    (hs : s.passBarrier t = some s') : Inv root s' := by
  have hA := I.allowed t
  rw [hpc] at hA
  obtain ⟨hphase, hidle, hdir⟩ := hA
  have hsearching : s.g_all_threads_ready = false → s.main.phase = .search := by
    intro hready
    rcases hphase with h | ⟨-, h⟩
    · exact h
    · exact absurd (hready.symm.trans h) Bool.false_ne_true
  cases barrierMove hs with
  | launch u queue hready hlen hqueue hn =>
    refine inv_wakeFirst I L hpc (hsearching hready) hready hlen hqueue fun hut => hn ?_
    obtain ⟨rest, hhead⟩ := I.head t hpc
    have hnodup := hqueue ▸ I.nodup
    have hnil : queue = [] := by
      cases hq : queue with
      | nil => rfl
      | cons x xs =>
        rw [hhead, hq] at hqueue
        obtain ⟨rfl, -⟩ := List.cons.inj hqueue
        rw [hq] at hnodup
        exact absurd (by simp [hut]) (List.nodup_cons.1 hnodup).1
    rw [← hlen, hqueue, hnil]; rfl
  | alone u queue hready hlen hqueue hn =>
    have hlone : queue = [] := by
      have h : n = (queue ++ [u]).length := hlen.symm.trans (congrArg List.length hqueue)
      rw [List.length_append, List.length_singleton] at h
      exact List.length_eq_zero_iff.1 (by omega)
    rw [hlone]
    subst hn
    exact inv_goAlone I hpc (hsearching hready) hready fun u => Subsingleton.elim u t
  | sleep hlast =>
    refine I.goto .sleep .rest ?_ (by rw [hpc]; rfl) rfl ?_ ?_ (by simp)
    · exact ⟨hphase, hidle, hdir⟩
    · intro _ h
      have := h.point
      rw [hpc] at this; cases this
    · intro _
      by_contra hcon
      push Not at hcon
      exact hlast ⟨Bool.eq_false_of_not_eq_true hcon.1, hcon.2⟩

/-- A working thread that holds `queue_mutex` changes the directory queue. -/
theorem inv_changeDirs (I : Inv root s) (L : Locks s) (hholds : (s.thread t).holdsQueue = true)
    (hlive : (s.thread t).terminated = false) (hphase : s.main.phase = .search)
    (hidle : t ∉ s.g_thread_queue) (hready : s.g_all_threads_ready = true)
    (dirs : List DirQueueEntry) (hdirs : dirs ≠ [] → s.g_thread_queue = []) (pc : ThreadPc)
    (hA : Allowed { s.view t with dirs := dirs } pc) (hfailed : pc.isFailed = false)
    (hpc : pc ≠ .barrier) (trace : List (Event n)) :
    Inv root ({ s with g_dir_queue := dirs, queue_mutex := none, trace := trace }.goto t pc) := by
  have hlt := I.lt_of_working hidle (by rw [ThreadPc.isFailed_of_live hlive]; simp)
  refine ⟨iff_of_true (I.is_search hphase) (.inl hphase), fun u => ?_, I.nodup, ?_, ?_, ?_, ?_,
    fun u hu => ?_, ?_⟩
  · by_cases hu : u = t
    · subst hu; rw [Search.goto_self]; exact hA
    · rw [Search.goto_of_ne _ _ hu]
      exact (I.allowed u).dirs (L.not_holdsQueue hholds hu) dirs
  · rw [failedThreads_congr (s := s)]
    · exact I.failed
    · intro u
      by_cases hu : u = t
      · subst hu; rw [Search.goto_self, hfailed, ThreadPc.isFailed_of_live hlive]
      · rw [Search.goto_of_ne _ _ hu]
  · exact fun h => absurd (h.symm.trans hready) Bool.false_ne_true
  · exact fun _ h hne => absurd (hdirs h) hne
  · exact fun h => absurd (h.symm.trans hready) Bool.false_ne_true
  · by_cases hut : u = t
    · subst hut; rw [Search.goto_self] at hu; exact absurd hu hpc
    · rw [Search.goto_of_ne _ _ hut] at hu
      exact absurd hu (L.not_barrier hholds hut)
  · exact I.main.of_not_done hphase rfl id (fun h => Nat.ne_of_lt hlt h.2) rfl

/-- A directory leaves the queue. -/
theorem inv_takeDir (I : Inv root s) (L : Locks s) (hpc : s.thread t = .take) {d : DirQueueEntry}
    {queue : List DirQueueEntry} (hqueue : s.g_dir_queue = queue ++ [d]) :
    Inv root ({ s with g_dir_queue := queue, queue_mutex := none }.goto t (.openDir d)) := by
  have hA := I.allowed t
  rw [hpc] at hA
  obtain ⟨hphase, hidle, hready, -⟩ := hA
  refine inv_changeDirs I L (by rw [hpc]; rfl) (by rw [hpc]; rfl) hphase hidle hready queue
    (fun hne => ?_) (.openDir d) ⟨hphase, hidle, hready⟩ rfl (fun h => nomatch h) s.trace
  by_contra hthreads
  obtain ⟨u, hu⟩ := I.launch hready (by rw [hqueue]; simp) hthreads
  have hone := hu.one
  rw [hqueue, List.length_append, List.length_singleton] at hone
  exact hne (List.length_eq_zero_iff.1 (by omega))

/-- A directory is handed to the thread that sleeps longest. -/
theorem inv_handOver (I : Inv root s) (L : Locks s) {d child : DirQueueEntry} {names : List Name}
    (hpc : s.thread t = .give d child names) {u : Fin n} {queue : List (Fin n)}
    (hqueue : s.g_thread_queue = queue ++ [u]) (trace : List (Event n)) :
    Inv root ({ Search.signalThread { s with
      g_thread_queue := queue
      dir_to_handle := Function.update s.dir_to_handle u (some child)
      trace := trace } u with queue_mutex := none }.goto t (.iterate d names)) := by
  have hA := I.allowed t
  rw [hpc] at hA
  obtain ⟨hphase, hidle, hready⟩ := hA
  have hidle : t ∉ s.g_thread_queue := hidle
  have hholds : (s.thread t).holdsQueue = true := by rw [hpc]; rfl
  have huq : u ∈ s.g_thread_queue := by rw [hqueue]; simp
  have hut : u ≠ t := fun h => hidle (h ▸ huq)
  have hnodup := hqueue ▸ I.nodup
  have hu : u ∉ queue := fun hmem => List.disjoint_of_nodup_append hnodup hmem (by simp)
  have hlt := I.lt_of_working hidle (by rw [hpc]; exact Bool.false_ne_true)
  have hmem : ∀ v, v ≠ u → (v ∈ queue ↔ v ∈ s.g_thread_queue) := fun v hv => by
    rw [hqueue]; simp [hv]
  have hasleep := I.asleep L hphase hholds huq hut
  rw [Search.signalThread_eq (u := u) (by exact hasleep)]
  generalize hs' : Search.goto _ t (.iterate d names) = s'
  have hself : s'.thread t = .iterate d names := by subst hs'; exact Search.goto_self ..
  have hwake : s'.thread u = .wake := by
    subst hs'
    rw [Search.goto_of_ne _ _ hut]; exact Search.goto_self ..
  have hothers : ∀ v, v ≠ t → v ≠ u → s'.thread v = s.thread v := by
    intro v hvt hvu
    subst hs'
    rw [Search.goto_of_ne _ _ hvt]; exact Search.goto_of_ne _ _ hvu
  refine ⟨?_, fun v => ?_, ?_, ?_, ?_, ?_, ?_, fun v hv => ?_, ?_⟩
  · subst hs'; exact iff_of_true (I.is_search hphase) (.inl hphase)
  · by_cases hvt : v = t
    · subst hvt; rw [hself]; subst hs'
      exact ⟨hphase, fun h => hidle ((hmem v hut.symm).1 h), hready⟩
    · by_cases hvu : v = u
      · subst hvu; rw [hwake]; subst hs'; exact .inl ⟨hphase, hu, hready⟩
      · rw [hothers v hvt hvu]; subst hs'
        exact I.allowed_congr rfl rfl rfl (hmem v hvu) (Function.update_of_ne hvu ..)
  · subst hs'; exact hnodup.of_append_left
  · rw [failedThreads_congr (s := s)]
    · subst hs'; exact I.failed
    · intro v
      by_cases hvt : v = t
      · subst hvt; rw [hself, hpc]; rfl
      · by_cases hvu : v = u
        · subst hvu; rw [hwake, hasleep]; rfl
        · rw [hothers v hvt hvu]
  · subst hs'; exact I.notReady
  · intro _ hdirs _
    have hne : s.g_thread_queue ≠ [] := List.ne_nil_of_mem huq
    obtain ⟨v, hv⟩ := I.launch hready (by subst hs'; exact hdirs) hne
    have hvu : v ≠ u := fun h => hv.working (h ▸ huq)
    have hvt : v ≠ t := by
      intro h
      have := hv.point
      rw [h, hpc] at this; cases this
    refine ⟨v, ?_, by rw [hothers v hvt hvu]; exact hv.point, ?_, by subst hs'; exact hv.one⟩
    · subst hs'; exact fun h => hv.working ((hmem v hvu).1 h)
    · subst hs'; exact (Function.update_of_ne hvu ..).trans hv.dir
  · subst hs'; exact fun h => absurd (h.symm.trans hready) Bool.false_ne_true
  · by_cases hvt : v = t
    · subst hvt; rw [hself] at hv; cases hv
    · by_cases hvu : v = u
      · subst hvu; rw [hwake] at hv; cases hv
      · rw [hothers v hvt hvu] at hv
        exact absurd hv (L.not_barrier hholds hvt)
  · subst hs'
    refine I.main.of_not_done hphase rfl id (fun h => ?_) rfl
    have hlen : s.g_thread_queue.length = queue.length + 1 := by rw [hqueue]; simp
    have hsum : queue.length + s.g_failed_threads = n := h.2
    omega

/-- A directory is given to a sleeping thread or to the queue. -/
theorem inv_give (I : Inv root s) (L : Locks s) {d child : DirQueueEntry} {names : List Name}
    (hpc : s.thread t = .give d child names) :
    Inv root ({ s.giveDir child with queue_mutex := none }.goto t (.iterate d names)) := by
  rcases giveDir_cases s child with ⟨u, queue, hqueue, heq⟩ | ⟨hnil, heq⟩
  · rw [heq]
    exact inv_handOver I L hpc hqueue _
  · rw [heq]
    have hA := I.allowed t
    rw [hpc] at hA
    obtain ⟨hphase, hidle, hready⟩ := hA
    exact inv_changeDirs I L (by rw [hpc]; rfl) (by rw [hpc]; rfl) hphase hidle hready
      (child :: s.g_dir_queue) (fun _ => hnil) (.iterate d names)
      ⟨hphase, hidle, hready⟩ rfl (by simp) (.given child :: s.trace)

/-- `t` has failed. -/
theorem inv_fail (I : Inv root s) (L : Locks s) {queue : Bool} (hpc : s.thread t = .fail queue) :
    Inv root ({ Search.signalMain { s with g_failed_threads := s.g_failed_threads + 1 } with
      finish_mutex := none }.goto t (.failed queue)) := by
  have hA := I.allowed t
  rw [hpc] at hA
  obtain ⟨hphase, hidle, hqueue⟩ := hA
  have hphase' : s.main.signalled.phase = .search := (MainPc.phase_signalled _).trans hphase
  have hfinish : s.main.holdsFinish = false := L.main_not_finish (t := t) (by rw [hpc]; rfl)
  have hne : ∀ {v}, s.thread v ≠ .fail queue → v ≠ t := fun hv h => hv (h ▸ hpc)
  refine ⟨iff_of_true (I.is_search hphase) (.inl hphase'), fun u => ?_, I.nodup, ?_, I.notReady, ?_, ?_,
    fun u hu => ?_, ?_⟩
  · by_cases hu : u = t
    · subst hu; rw [Search.goto_self]; exact ⟨hidle, hqueue⟩
    · rw [Search.goto_of_ne _ _ hu]
      exact I.allowed_congr (MainPc.phase_signalled _) rfl rfl Iff.rfl rfl
  · show s.g_failed_threads + 1 = _
    rw [I.failed]
    refine (card_change (t := t) (fun u hu => ?_) ?_ ?_).symm
    · rw [Search.goto_of_ne _ _ hu]; rfl
    · rw [hpc]; exact Bool.false_ne_true
    · rw [Search.goto_self]; rfl
  · intro hready hdirs hthreads
    obtain ⟨v, hv⟩ := I.launch hready hdirs hthreads
    have hvt : v ≠ t := hne fun h => by
      have := hv.point
      rw [h] at this; cases this
    refine ⟨v, hv.working, ?_, hv.dir, hv.one⟩
    rw [Search.goto_of_ne _ _ hvt]; exact hv.point
  · intro hready hlen
    obtain ⟨v, hv⟩ := I.full hready hlen
    have hvt : v ≠ t := hne (by rw [hv]; exact fun h => nomatch h)
    exact ⟨v, (Search.goto_of_ne _ _ hvt).trans hv⟩
  · by_cases hut : u = t
    · subst hut; rw [Search.goto_self] at hu; cases hu
    · rw [Search.goto_of_ne _ _ hut] at hu
      exact I.head u hu
  · exact mainKnows_signalled hphase hfinish rfl

/-! ## Any step of a thread -/

theorem shouldThreadSleep_iff (s : Search n) (t : Fin n) : shouldThreadSleep s t = true ↔
    s.g_is_search = true ∧ (s.g_all_threads_ready = false ∨
      (s.g_dir_queue = [] ∧ s.dir_to_handle t = none)) := by
  unfold shouldThreadSleep
  split <;> simp_all

/-- From `pc` to `pc'`, and nobody waits for what `t` does. -/
structure Quiet (pc pc' : ThreadPc) : Prop where
  live : pc.terminated = false
  point : pc.launchable = false
  barrier : pc ≠ .barrier
  failed' : pc'.isFailed = false
  barrier' : pc' ≠ .barrier

theorem Inv.move (I : Inv root s) {pc : ThreadPc} (hpc : s.thread t = pc) (pc' : ThreadPc)
    (q : Quiet pc pc') (F : Frame s s' t) (hA : Allowed (s.view t) pc → Allowed (s'.view t) pc') :
    Inv root (s'.goto t pc') := by
  subst hpc
  refine I.goto pc' F (hA (I.allowed t)) q.live q.failed' (fun _ h => ?_)
    (fun h => absurd h q.barrier) q.barrier'
  exact absurd (q.point.symm.trans h.point) Bool.false_ne_true

/-- A step between two points that the woken thread passes. -/
theorem Inv.pass (I : Inv root s) {pc : ThreadPc} (hpc : s.thread t = pc) (pc' : ThreadPc)
    (hpoint : pc.launchable = true)
    (hpoint' : s.g_all_threads_ready = true → Launched s t → pc'.launchable = true)
    (hfailed : pc'.isFailed = false) (hbarrier : pc' ≠ .barrier) (F : Frame s s' t)
    (hdir : s'.dir_to_handle t = s.dir_to_handle t)
    (hA : Allowed (s.view t) pc → Allowed (s'.view t) pc') : Inv root (s'.goto t pc') := by
  subst hpc
  refine I.goto pc' F (hA (I.allowed t)) ?_ hfailed (fun hr h => ⟨hpoint' hr h, hdir.trans h.dir⟩)
    (fun h => ?_) hbarrier
  · cases h : s.thread t <;> first | rfl | (rw [h] at hpoint; cases hpoint)
  · rw [h] at hpoint; cases hpoint

theorem inv_threadNext {fs : FileSys} {g_search_term : List UInt8} (I : Inv root s) (L : Locks s)
    (hs : s.threadNext fs g_search_term t = some s') : Inv root s' := by
  have hA := I.allowed t
  cases threadMove hs with
  | lockSearch hpc _ =>
    exact I.move hpc .testStart ⟨rfl, rfl, by simp, rfl, by simp⟩ .rest fun h => h
  | wakeStart hpc _ =>
    exact I.move hpc .testStart ⟨rfl, rfl, by simp, rfl, by simp⟩ .rest fun h => ⟨.inr h.1, h.2⟩
  | started hpc hsearch =>
    rw [hpc] at hA
    refine I.move hpc .malloc ⟨rfl, rfl, by simp, rfl, by simp⟩ .rest fun h => ⟨?_, h.2⟩
    rcases I.searching.1 hsearch with hphase | hstop
    · exact hphase
    · have hphase : s.main.phase = .stopping := by rw [hstop]; rfl
      rcases h.1 with h | h <;> cases hphase.symm.trans h
  | waitStart hpc hsearch =>
    refine I.move hpc .waitStart ⟨rfl, rfl, by simp, rfl, by simp⟩ .rest fun h => ⟨?_, h.2⟩
    exact h.1.resolve_right fun hphase => hsearch (I.is_search hphase)
  | malloc hpc =>
    exact I.move hpc .lockQueue ⟨rfl, rfl, by simp, rfl, by simp⟩ .rest fun h => ⟨h.1, h.2.2⟩
  | lockQueue hpc _ =>
    exact I.move hpc .testSleep ⟨rfl, rfl, by simp, rfl, by simp⟩ .rest
      fun h => .inl ⟨h.1, h.2.1, fun _ => h.2.2⟩
  | wake hpc _ =>
    refine I.pass hpc .testSleep rfl (fun _ _ => rfl) rfl (by simp) .rest rfl
      fun h => h.imp_left fun h => ⟨h.1, h.2.1, fun hready => ?_⟩
    exact absurd (hready.symm.trans h.2.2) Bool.false_ne_true
  | idle hpc hsleep =>
    obtain ⟨hsearch, hwhy⟩ := (shouldThreadSleep_iff s t).1 hsleep
    refine I.pass hpc .lockFinish rfl (fun hready h => ?_) rfl (by simp) .rest rfl fun h => ?_
    · rcases hwhy with hwhy | ⟨hdirs, -⟩
      · exact absurd (hwhy.symm.trans hready) Bool.false_ne_true
      · have := h.one
        rw [hdirs] at this; cases this
    · obtain ⟨hphase, hidle, hdir⟩ | ⟨hphase, -⟩ := h
      · refine ⟨hphase, hidle, hwhy.elim hdir And.right, fun hready => ?_⟩
        exact hwhy.elim (fun h => absurd (h.symm.trans hready) Bool.false_ne_true) And.left
      · exact absurd hphase (I.phase_ne_stopped hsearch)
  | busy hpc hsleep =>
    apply I.pass hpc .testSearch rfl (fun _ _ => rfl) rfl (by simp) .rest rfl
    intro h
    apply h.imp_left
    intro h
    rw [ne_eq, shouldThreadSleep_iff, not_and, not_or, not_and_or] at hsleep
    obtain ⟨hready, hdirs⟩ := hsleep (I.is_search h.1)
    exact ⟨h.1, h.2.1, Bool.of_not_eq_false hready, hdirs.symm⟩
  | lockFinish hpc _ =>
    exact I.move hpc .enqueue ⟨rfl, rfl, by simp, rfl, by simp⟩ .rest fun h => h
  | enqueue hpc => exact inv_enqueue I L hpc
  | barrier hpc hs => exact inv_passBarrier I L hpc hs
  | search hpc hsearch =>
    apply I.pass hpc .take rfl (fun _ _ => rfl) rfl (by simp) .rest rfl
    intro h
    exact h.resolve_right fun h => I.phase_ne_stopped hsearch h.1
  | exit hpc hsearch =>
    rw [hpc] at hA
    refine I.pass hpc .exited rfl (fun hready h => ?_) rfl (by simp) .rest rfl fun h => ?_
    · exact absurd (hA.elim (fun hA => I.is_search hA.1) fun hA => absurd hA.2.1 h.working) hsearch
    · exact h.resolve_left fun h => hsearch (I.is_search h.1)
  | @takeOwn d hpc hdir =>
    rw [hpc] at hA
    refine I.goto (.openDir d) .rest ?_ (by rw [hpc]; rfl) rfl (fun _ h => ?_) (fun h => ?_) (by simp)
    · exact ⟨hA.1, hA.2.1, hA.2.2.1⟩
    · cases hdir.symm.trans h.dir
    · rw [hpc] at h; cases h
  | takeNext hpc _ hqueue => exact inv_takeDir I L hpc hqueue
  | closeDir hpc =>
    refine I.move hpc .lockQueue ⟨rfl, rfl, by simp, rfl, by simp⟩ ?_
      fun h => ⟨h.1, h.2.1, Function.update_self ..⟩
    exact ⟨rfl, rfl, rfl, rfl, rfl, fun u hu => Function.update_of_ne hu .., rfl, rfl⟩
  | openDir hpc | skip hpc _ | found hpc _ | denied hpc _ =>
    exact I.move hpc (.iterate _ _) ⟨rfl, rfl, by simp, rfl, by simp⟩ .rest fun h => h
  | folder hpc _ =>
    exact I.move hpc (.lockGive _ _ _) ⟨rfl, rfl, by simp, rfl, by simp⟩ .rest fun h => h
  | lockGive hpc _ =>
    exact I.move hpc (.give _ _ _) ⟨rfl, rfl, by simp, rfl, by simp⟩ .rest fun h => h
  | give hpc => exact inv_give I L hpc
  | lockFail hpc _ =>
    exact I.move hpc (.fail _) ⟨rfl, rfl, by simp, rfl, by simp⟩ .rest fun h => h
  | fail hpc => exact inv_fail I L hpc

/-- A failing call other than the `malloc` of `dir_enqueue`. -/
theorem inv_threadFault {f : Fault} (I : Inv root s) (hf : f ≠ .dirEntry)
    (hs : s.threadFault t f = some s') : Inv root s' := by
  cases faultMove hs with
  | malloc hpc =>
    exact I.move hpc (.lockFail false) ⟨rfl, rfl, by simp, rfl, by simp⟩ .rest
      fun h => ⟨h.1, h.2.2.1, rfl⟩
  | openDir hpc | stat hpc _ =>
    exact I.move hpc (.lockFail false) ⟨rfl, rfl, by simp, rfl, by simp⟩ .rest
      fun h => ⟨h.1, h.2.1, rfl⟩
  | give _ _ => exact absurd rfl hf

/-! ## The steps of `main` -/

/-- What a signal to all threads can do to one of them. -/
structure Signal (f : ThreadPc → ThreadPc) : Prop where
  isFailed : ∀ pc, (f pc).isFailed = pc.isFailed
  launchable : ∀ pc, pc.launchable = true → (f pc).launchable = true
  barrier : ∀ pc, f pc = .barrier ↔ pc = .barrier

theorem signal_id : Signal id := ⟨fun _ => rfl, fun _ => id, fun _ => Iff.rfl⟩

theorem signal_broadcast : Signal ThreadPc.broadcast := by
  refine ⟨fun pc => ?_, fun pc h => ?_, fun pc => ?_⟩
  · cases pc <;> rfl
  · cases pc <;> first | rfl | cases h
  · cases pc <;> simp [ThreadPc.broadcast]

theorem signal_signalled : Signal ThreadPc.signalled := by
  refine ⟨fun pc => ?_, fun pc h => ?_, fun pc => ?_⟩
  · cases pc <;> rfl
  · cases pc <;> first | rfl | cases h
  · cases pc <;> simp [ThreadPc.signalled]

/-- `main` goes to `pc`, and signals all threads or none. -/
theorem Inv.mainStep (I : Inv root s) {f : ThreadPc → ThreadPc} (hf : Signal f) (pc : MainPc)
    (g_is_search : Bool) (hsearching : g_is_search = true ↔ pc.phase = .search ∨ pc = .stopSearch)
    (hA : ∀ t, Allowed (s.view t) (s.thread t) →
      Allowed { s.view t with phase := pc.phase } (f (s.thread t)))
    {search finish queue : Option (Proc n)} {s' : Search n}
    (hs' : s' = { s with
      g_is_search := g_is_search
      search_mutex := search
      finish_mutex := finish
      queue_mutex := queue
      thread := fun t => f (s.thread t)
      main := pc }) (hmain : MainKnows s') : Inv root s' := by
  subst hs'
  refine ⟨hsearching, fun t => hA t (I.allowed t), I.nodup, ?_, I.notReady, ?_, ?_, fun t ht => ?_,
    hmain⟩
  · rw [failedThreads_congr (s := s) fun t => hf.isFailed (s.thread t)]
    exact I.failed
  · intro hready hdirs hthreads
    obtain ⟨t, ht⟩ := I.launch hready hdirs hthreads
    exact ⟨t, ht.working, hf.launchable _ ht.point, ht.dir, ht.one⟩
  · intro hready hlen
    obtain ⟨t, ht⟩ := I.full hready hlen
    exact ⟨t, (hf.barrier _).2 ht⟩
  · exact I.head t ((hf.barrier _).1 ht)

/-- `main` goes on within its phase. -/
theorem Inv.mainMove {old : MainPc} (I : Inv root s) (hmain : s.main = old) (pc : MainPc)
    (hphase : pc.phase = old.phase) (hpc : pc ≠ .stopSearch) (hold : old ≠ .stopSearch)
    {search finish queue : Option (Proc n)} {s' : Search n}
    (hs' : s' = { s with
      search_mutex := search
      finish_mutex := finish
      queue_mutex := queue
      main := pc }) (hknows : MainKnows s') : Inv root s' := by
  subst hmain
  refine I.mainStep signal_id pc s.g_is_search ?_ (fun t h => ?_) hs' hknows
  · rw [I.searching, hphase]
    simp [hpc, hold]
  · rw [hphase]; exact h

/-- `main` leaves its wait loop when every thread is idle or has failed. -/
theorem inv_stopSearch (I : Inv root s) (hphase : s.main.phase = .search)
    (hover : ∀ t, (t ∈ s.g_thread_queue ∧ s.g_all_threads_ready = true) ∨
      (s.thread t).isFailed = true) : Inv root { s with main := .stopSearch } := by
  refine I.mainStep signal_id .stopSearch true (by simp) (fun t h => ?_)
    (by rw [← I.is_search hphase]; rfl) trivial
  rcases hover t with ⟨ht, hready⟩ | hfailed
  · obtain ⟨hpc | hpc, hdir⟩ := I.idle_cases hphase ht
    · rw [hpc]; exact ⟨.inr ⟨rfl, hready⟩, ht, hdir⟩
    · rw [hpc]; exact ⟨.inr ⟨rfl, hready⟩, ht, hdir⟩
  · cases hpc : s.thread t <;> rw [hpc] at hfailed h <;> first | exact h | cases hfailed

theorem inv_mainNext (I : Inv root s) (L : Locks s) (hs : s.mainNext = some s') : Inv root s' := by
  have hknows := I.main
  unfold MainKnows at hknows
  cases mainMove hs with
  | lockSearch hpc _ => exact I.mainMove hpc .raise rfl (by simp) (by simp) rfl trivial
  | raise hpc =>
    refine I.mainStep signal_broadcast .lockFinish true (by simp [MainPc.phase]) (fun t h => ?_) rfl
      trivial
    have hphase : (s.view t).phase = .before := by simp [Search.view, hpc, MainPc.phase]
    cases hthread : s.thread t <;> simp only [hthread, Allowed, hphase] at h <;>
      simp_all [ThreadPc.broadcast, Allowed, MainPc.phase]
  | lockFinish hpc _ | wake hpc _ =>
    exact I.mainMove hpc .readDirs rfl (by simp) (by simp) rfl trivial
  | noDirs hpc hdirs =>
    apply I.mainMove hpc .readCounts rfl (by simp) (by simp) rfl
    by_contra hready
    exact List.cons_ne_nil _ _ ((I.notReady (Bool.eq_false_of_not_eq_true hready)).symm.trans hdirs)
  | dirs hpc hdirs =>
    exact I.mainMove hpc .readFailed rfl (by simp) (by simp) rfl fun h => hdirs h.1
  | allIdle hpc hcount =>
    have hphase : s.main.phase = .search := by rw [hpc]; rfl
    rw [hpc] at hknows
    exact inv_stopSearch I hphase fun t =>
      (I.idle_or_failed hcount t).imp_left fun h => ⟨h, hknows⟩
  | someBusy hpc hcount =>
    exact I.mainMove hpc .readFailed rfl (by simp) (by simp) rfl fun h => hcount h.2
  | wait hpc hcount =>
    rw [hpc] at hknows
    exact I.mainMove hpc .waiting rfl (by simp) (by simp) rfl ⟨hknows, hcount⟩
  | allFailed hpc hcount =>
    have hphase : s.main.phase = .search := by rw [hpc]; rfl
    exact inv_stopSearch I hphase fun t => .inr (I.all_failed hcount t)
  | stopSearch hpc =>
    refine I.mainStep signal_id .lockQueue false (by simp [MainPc.phase]) (fun t h => ?_) rfl trivial
    have hphase : (s.view t).phase = .stopping := by simp [Search.view, hpc, MainPc.phase]
    show Allowed { s.view t with phase := .stopping } (s.thread t)
    rw [← hphase]; exact h
  | lockQueue hpc _ => exact I.mainMove hpc .signalAll rfl (by simp) (by simp) rfl trivial
  | signalAll hpc =>
    refine I.mainStep signal_signalled (.join 0) s.g_is_search ?_ (fun t h => ?_) rfl ?_
    · rw [I.searching, hpc]; simp [MainPc.phase]
    · have hphase : (s.view t).phase = .stopping := by simp [Search.view, hpc, MainPc.phase]
      have hm : s.holdsQueue .main = true := by simp [Search.holdsQueue, hpc]
      have hnot : s.thread t ≠ .barrier := by
        intro hthread
        have ht : s.holdsQueue (.thread t) = true := by simp [Search.holdsQueue, hthread]
        cases L.queue.unique hm ht
      cases hthread : s.thread t <;> simp only [hthread, Allowed, hphase] at h <;>
        simp_all [ThreadPc.signalled, Allowed, MainPc.phase]
    · exact fun t ht => absurd ht (Nat.not_lt_zero _)
  | @join i hi hpc hterm =>
    rw [hpc] at hknows
    apply I.mainMove hpc (.join (i + 1)) rfl (by simp) (by simp) rfl
    intro t ht
    rcases Nat.lt_succ_iff_lt_or_eq.1 ht with ht | ht
    · exact hknows t ht
    · subst ht; exact hterm
  | joined hpc hi =>
    rw [hpc] at hknows
    exact I.mainMove hpc .done rfl (by simp) (by simp) rfl
      fun t => hknows t (Nat.lt_of_lt_of_le t.isLt (Nat.le_of_not_lt hi))

/-! ## Runs -/

/-- The steps in which waits return after a signal only, and no `malloc` of `dir_enqueue` fails. -/
def Action.Orderly : Action n → Prop
  | .main | .thread _ => True
  | .fault _ f => f ≠ .dirEntry
  | .mainSpurious | .threadSpurious _ => False

/-- **Every orderly step keeps the discipline.** -/
theorem inv_step {fs : FileSys} {g_search_term : List UInt8} {a : Action n} (I : Inv root s)
    (L : Locks s) (ha : a.Orderly) (hs : SearchStep fs g_search_term s a s') : Inv root s' := by
  cases a with
  | main => exact inv_mainNext I L hs
  | thread t => exact inv_threadNext I L hs
  | fault t f => exact inv_threadFault I ha hs
  | mainSpurious => exact absurd ha id
  | threadSpurious t => exact absurd ha id

theorem inv_init (hn : 0 < n) (root : Path) : Inv ⟨root, root⟩ (Search.init n root) := by
  refine ⟨by simp [Search.init, MainPc.phase], fun t => ?_, List.nodup_nil, ?_, fun _ => rfl, ?_, ?_,
    fun t ht => ?_, trivial⟩
  · exact ⟨.inl rfl, rfl, List.not_mem_nil, rfl⟩
  · simp [Search.init, Search.failedThreads, ThreadPc.isFailed]
  · intro h; cases h
  · intro _ hlen
    exact absurd hlen hn.ne
  · cases ht

/-- The discipline of the queues and of the mutexes. -/
structure Good (root : Path) (s : Search n) : Prop where
  inv : Inv ⟨root, root⟩ s
  locks : Locks s

theorem good_init (hn : 0 < n) (root : Path) : Good root (Search.init n root) :=
  ⟨inv_init hn root, locks_init root⟩

theorem good_step {fs : FileSys} {g_search_term : List UInt8} {root : Path} {a : Action n}
    (G : Good root s) (ha : a.Orderly) (hs : SearchStep fs g_search_term s a s') : Good root s' :=
  ⟨inv_step G.inv G.locks ha hs, locks_step G.locks hs⟩

theorem good_run {fs : FileSys} {g_search_term : List UInt8} {root : Path} {h : List (Action n)}
    (hn : 0 < n) (hr : Run (SearchStep fs g_search_term) (Search.init n root) h s)
    (ha : ∀ a ∈ h, a.Orderly) : Good root s :=
  hr.invariantOn (good_init hn root) (fun _ _ _ G ha hs => good_step G ha hs)
    (Run.eachStep_of_forall ha)

end OSCourse.Pfind
