import OSCourse.Lib.Simulation
import OSCourse.Pfind.Represents

/-!
# The steps on the memory are those on the lists

* `InStep` — a step on the memory and a step on the lists come to the same.
* `inStep_threadNext`, `inStep_threadFault`, `inStep_mainNext` — they do, from any state that the
  memory stands for.  No step follows a NULL or freed pointer, but for the one in which
  `iterate_in_directory` hands on what `malloc` has returned without a look at it.
-/

set_option autoImplicit false

namespace OSCourse.Pfind

open LinkedQueue Transition

variable {n : Nat} {P : Type} {fs : FileSys} {g_search_term : List UInt8} {c c' : HeapSearch n P}
  {s s' : Search n} {l : List P} {t : Fin n}

/-- Both wait, or both go on to states that belong together. -/
def InStep : Outcome (HeapSearch n P) → Option (Search n) → Prop
  | .waits, none => True
  | .ok c', some s' => ∃ l', Represents c' s' l'
  | _, _ => False

theorem inStep_ok (R : Represents c s l) : InStep (.ok c) (some s) :=
  ⟨l, R⟩

theorem inStep_ite {p q : Prop} [Decidable p] [Decidable q] (hpq : p ↔ q)
    {a b : Outcome (HeapSearch n P)} {a' b' : Option (Search n)} (ht : q → InStep a a')
    (hf : ¬q → InStep b b') : InStep (if p then a else b) (if q then a' else b') := by
  by_cases hq : q
  · rw [if_pos hq, if_pos (hpq.2 hq)]
    exact ht hq
  · rw [if_neg hq, if_neg fun h => hq (hpq.1 h)]
    exact hf hq

namespace Represents

/-! ## Changes of the flags -/

theorem withSearchMutex (R : Represents c s l) (m : Option (Proc n)) :
    Represents { c with search_mutex := m } { s with search_mutex := m } l :=
  R.withControl (congrArg (fun k : Control n => { k with search_mutex := m }) R.control) R.failed rfl
    (fun _ => Iff.rfl) rfl ⟨rfl, rfl, rfl, rfl⟩

theorem withFinishMutex (R : Represents c s l) (m : Option (Proc n)) :
    Represents { c with finish_mutex := m } { s with finish_mutex := m } l :=
  R.withControl (congrArg (fun k : Control n => { k with finish_mutex := m }) R.control) R.failed rfl
    (fun _ => Iff.rfl) rfl ⟨rfl, rfl, rfl, rfl⟩

theorem withQueueMutex (R : Represents c s l) (m : Option (Proc n)) :
    Represents { c with queue_mutex := m } { s with queue_mutex := m } l :=
  R.withControl (congrArg (fun k : Control n => { k with queue_mutex := m }) R.control) R.failed rfl
    (fun _ => Iff.rfl) rfl ⟨rfl, rfl, rfl, rfl⟩

theorem withMain (R : Represents c s l) (pc : MainPc) :
    Represents { c with main := pc } { s with main := pc } l :=
  R.withControl (congrArg (fun k : Control n => { k with main := pc }) R.control) R.failed rfl
    (fun _ => Iff.rfl) rfl ⟨rfl, rfl, rfl, rfl⟩

theorem withEvent (R : Represents c s l) (e : Event n) :
    Represents { c with trace := e :: c.trace } { s with trace := e :: s.trace } l :=
  R.withControl (congrArg (fun k : Control n => { k with trace := e :: k.trace }) R.control) R.failed
    rfl (fun _ => Iff.rfl) rfl ⟨rfl, rfl, rfl, rfl⟩

theorem withSearching (R : Represents c s l) (b : Bool) :
    Represents { c with g_is_search := b } { s with g_is_search := b } l :=
  R.withControl (congrArg (fun k : Control n => { k with g_is_search := b }) R.control) R.failed rfl
    (fun _ => Iff.rfl) rfl ⟨rfl, rfl, rfl, rfl⟩

theorem signalMain (R : Represents c s l) : Represents c.signalMain s.signalMain l := by
  have h := R.withMain s.main.signalled
  rw [← R.main] at h
  exact R.withControl (congrArg (fun k : Control n => { k with main := k.main.signalled }) R.control)
    R.failed rfl (fun _ => Iff.rfl) rfl ⟨rfl, rfl, rfl, rfl⟩

theorem countFile (R : Represents c s l) :
    Represents { c with g_files_found := c.g_files_found + 1 }
      { s with g_files_found := s.g_files_found + 1 } l :=
  R.withControl (congrArg (fun k : Control n => { k with g_files_found := k.g_files_found + 1 })
    R.control) R.failed rfl (fun _ => Iff.rfl) rfl ⟨rfl, rfl, rfl, rfl⟩

theorem countFailed (R : Represents c s l) :
    Represents { c with g_failed_threads := c.g_failed_threads + 1 }
      { s with g_failed_threads := s.g_failed_threads + 1 } l := by
  refine R.withControl R.control ?_ rfl (fun _ => Iff.rfl) rfl ⟨rfl, rfl, rfl, rfl⟩
  show c.g_failed_threads + 1 = _
  rw [R.failed, BitVec.ofNat_add]
  rfl

/-- A signal on `search_cv`. -/
theorem broadcast (R : Represents c s l) :
    Represents { c with thread := fun t => (c.thread t).broadcast }
      { s with thread := fun t => (s.thread t).broadcast } l := by
  have h : Represents { c with thread := fun t => (c.thread t).broadcast } _ l :=
    R.withThreads fun _ => .inl (HeapPc.role_broadcast _)
  simp only [HeapPc.view_broadcast, ← R.view] at h
  exact h

theorem signalAll (R : Represents c s l) :
    Represents { c with thread := fun t => (c.thread t).signalled }
      { s with thread := fun t => (s.thread t).signalled } l := by
  have h : Represents { c with thread := fun t => (c.thread t).signalled } _ l :=
    R.withThreads fun _ => .inl (HeapPc.role_signalled _)
  simp only [HeapPc.view_signalled, ← R.view] at h
  exact h

/-- `t` goes to `thread_exit_on_error`. -/
theorem startFail (R : Represents c s l) (queue : Bool) :
    Represents (c.goto t (.lockFail queue)) (s.goto t (.lockFail queue)) l :=
  R.goto (.lockFail queue) (.inr rfl)

/-- All threads have been ready. -/
theorem setReady (R : Represents c s l) (hall : ∀ u, u ∈ s.g_thread_queue) :
    Represents { c with g_all_threads_ready := true } { s with g_all_threads_ready := true } l :=
  R.withControl (congrArg (fun k : Control n => { k with g_all_threads_ready := true }) R.control)
    R.failed rfl (fun u => iff_of_true (.inl rfl) (.inr (hall u))) rfl ⟨rfl, rfl, rfl, rfl⟩

/-- `t` goes from `old` to `pc`. -/
theorem move (R : Represents c s l) {old pc : HeapPc P} (hpc : c.thread t = old)
    (hrole : pc.role = old.role) : Represents (c.goto t pc) (s.goto t (pc.view c.data)) l :=
  R.goto pc (.inl (hrole.trans (congrArg HeapPc.role hpc.symm)))

/-! ## Tests -/

/-- The entry that a thread works on is there. -/
theorem entry_eq (R : Represents c s l) {p : P} (hrole : (c.thread t).role = .works p) :
    c.entry p = some (c.data p) :=
  if_pos (R.held t p (holds_works c _ hrole)).1

theorem count_threads (R : Represents c s l) (hn : n < 2 ^ 31) {k : Nat} (hk : k < 2 ^ 32) :
    c.g_thread_queue.queue.count = BitVec.ofNat 32 k ↔ s.g_thread_queue.length = k := by
  have hle := R.length_le
  rw [R.threads.count]
  exact ofNat_eq_iff (by omega) hk

/-- `should_thread_sleep`, of a thread that has a `thread_entry`. -/
theorem shouldThreadSleep_eq (R : Represents c s l) (hrole : (c.thread t).role = .idle) :
    c.shouldThreadSleep t = Pfind.shouldThreadSleep s t := by
  rw [HeapSearch.shouldThreadSleep, Pfind.shouldThreadSleep, R.searching, R.ready]
  have hdirs : (c.g_dir_queue.queue.count == 0) = s.g_dir_queue.isEmpty := by
    rw [Bool.eq_iff_iff, beq_iff_eq, List.isEmpty_iff]
    exact R.dirs.isEmpty
  rw [hdirs]
  cases hready : s.g_all_threads_ready with
  | false => rfl
  | true =>
    rw [← R.handed t hrole (.inl (R.ready.trans hready)), Option.isNone_map]

end Represents

open Represents

/-! ## The steps of a searching thread -/

theorem inStep_passBarrier (R : Represents c s l) (hn : n < 2 ^ 31) (hpc : c.thread t = .barrier) :
    InStep (c.passBarrier t) (s.passBarrier t) := by
  have hcount := R.count_threads hn (k := n) (by omega)
  rw [HeapSearch.passBarrier, Search.passBarrier]
  by_cases hall : s.g_all_threads_ready = false ∧ s.g_thread_queue.length = n
  · rw [if_pos hall, if_pos ⟨R.ready.trans hall.1, hcount.2 hall.2⟩]
    have hmem : ∀ u, u ∈ s.g_thread_queue := by
      intro u
      have hcard : s.g_thread_queue.toFinset = Finset.univ := by
        rw [← Finset.card_eq_iff_eq_univ, List.toFinset_card_of_nodup R.threads.nodup, hall.2,
          Fintype.card_fin]
      rw [← List.mem_toFinset, hcard]
      exact Finset.mem_univ u
    cases hdeq : dequeue s.g_thread_queue with
    | none =>
      rw [dequeue_eq_none] at hdeq
      have hmem := hmem t
      rw [hdeq] at hmem
      cases hmem
    | some found =>
      obtain ⟨thread, queue⟩ := found
      obtain ⟨store, hstore, hdata, R'⟩ :=
        (R.setReady hmem).dequeueThread hn (dequeue_eq_some hdeq)
      have hstore : threadDequeue c.g_thread_queue = some (some thread, store) := hstore
      rw [hstore]
      simp only
      by_cases hone : n ≠ 1
      · rw [if_pos hone, if_pos hone]
        have hcv : ({ c with g_all_threads_ready := true, g_thread_queue := store } :
            HeapSearch n P).queueCv thread = some thread := by
          apply queueCv_eq hn
          show (store.node thread).data.thread_id = _
          rw [hdata]
          exact R.id thread (.inl (hmem thread))
        rw [hcv]
        have hthread : (c.thread thread).signalled.role = (c.thread thread).role :=
          HeapPc.role_signalled _
        refine ⟨l, ((R'.signalThread thread).withQueueMutex none).goto .sleep (.inl ?_)⟩
        show Role.idle = (Function.update c.thread thread (c.thread thread).signalled t).role
        rcases eq_or_ne t thread with rfl | hne
        · rw [Function.update_self, hthread, hpc]
          rfl
        · rw [Function.update_of_ne hne, hpc]
          rfl
      · rw [if_neg hone, if_neg hone]
        exact ⟨l, R'.move hpc rfl⟩
  · rw [if_neg hall, if_neg fun h => hall ⟨R.ready.symm.trans h.1, hcount.1 h.2⟩]
    exact ⟨l, (R.withQueueMutex none).move hpc rfl⟩

section

variable [DecidableEq P] {new_dir : P}

/-- A directory is given on, to a new entry. -/
theorem represents_giveDir [Fintype P] (R : Represents c s l) (hn : n < 2 ^ 31)
    (hcard : Fintype.card P < 2 ^ 32) {p : P} (hrole : (c.thread t).role = .works p)
    (child : DirQueueEntry) (hnew : c.allocated new_dir ≠ true) :
    ∃ c' l', c.giveDir child new_dir = some c' ∧ Represents c' (s.giveDir child) l' ∧
      (∀ u, c'.thread u = c.thread u ∨ c'.thread u = (c.thread u).signalled) ∧
      c'.data p = c.data p := by
  have hne : p ≠ new_dir := R.ne_new hnew (holds_works c _ hrole)
  have hcount := R.count_threads hn (k := 0) (by omega)
  have R₁ := R.withEvent (.given child)
  rw [HeapSearch.giveDir]
  rcases giveDir_cases s child with ⟨u, queue, hqueue, heq⟩ | ⟨hqueue, heq⟩
  · have hnot : c.g_thread_queue.queue.count ≠ 0 := by
      rw [Ne, show (0 : BitVec 32) = BitVec.ofNat 32 0 from rfl, hcount, hqueue]
      simp
    obtain ⟨store, hstore, hdata, R₂⟩ := R₁.dequeueThread hn hqueue
    have hmem : u ∈ s.g_thread_queue := by
      rw [hqueue]
      simp
    have hid : (store.node u).data.thread_id = BitVec.ofNat 64 u := by
      rw [hdata]
      exact R.id u (.inl hmem)
    have R₃ := R₂.handOver hnew child (u := u) hid (R.not_fresh hmem)
    have hstore : threadDequeue c.g_thread_queue = some (some u, store) := hstore
    simp only
    rw [if_pos hnot, show threadDequeue (c.toHeap.newDir new_dir child).g_thread_queue = _ from hstore]
    simp only
    rw [queueCv_eq (u := u) hn (by simpa [setDirToHandle] using hid), heq]
    refine ⟨_, l, rfl, R₃.signalThread u, fun v => ?_, ?_⟩
    · rcases eq_or_ne v u with rfl | hv
      · exact .inr (Function.update_self ..)
      · exact .inl (Function.update_of_ne hv ..)
    · show ((c.g_dir_queue.modify new_dir fun _ => child).node p).data = _
      rw [Store.modify_of_ne _ _ hne]
      rfl
  · have hzero : ¬c.g_thread_queue.queue.count ≠ 0 := by
      rw [not_not, show (0 : BitVec 32) = BitVec.ofNat 32 0 from rfl, hcount, hqueue]
      rfl
    obtain ⟨store, hstore, R₂⟩ := R₁.enqueueDir hcard hnew child (t := t) hrole
    simp only
    have hstore' : dirEnqueue child.dir_name child.path_name new_dir c.g_dir_queue = some store := hstore
    rw [if_neg hzero, hstore', heq]
    refine ⟨_, _, rfl, R₂, fun _ => .inl rfl, ?_⟩
    obtain ⟨store', hs', -, -, hold⟩ := enqueue_spec R.dirs.linked R.dirs.room
      (fun _ => (⟨child.path_name, child.dir_name⟩ : DirQueueEntry)) (R.new_not_mem hnew)
    have hstore : enqueue _ new_dir c.g_dir_queue = some store := hstore
    cases hstore.symm.trans hs'
    exact hold p hne

theorem inStep_take (R : Represents c s l) (hdir : HasDir s t) (hpc : c.thread t = .take) :
    InStep (c.threadNext fs g_search_term t new_dir) (s.threadNext fs g_search_term t) := by
  have hrole : (c.thread t).role = .idle := by rw [hpc]; rfl
  have hset : c.Set s.g_thread_queue t := .inl (R.ready.trans hdir.1)
  have hview : s.thread t = .take := (R.view t).trans (by rw [hpc]; rfl)
  simp only [HeapSearch.threadNext, Search.threadNext, hpc, hview]
  cases hown : c.dirToHandle t with
  | some p =>
    obtain ⟨hs, R'⟩ := R.takeOwn hrole hset hown
    rw [hs]
    exact inStep_ok (R'.withQueueMutex none)
  | none =>
    have hs : s.dir_to_handle t = none := by rw [← R.handed t hrole hset, hown]; rfl
    rw [hs]
    cases hqueue : dequeue s.g_dir_queue with
    | none => exact absurd (dequeue_eq_none.1 hqueue) (hdir.2.resolve_left (not_not.2 hs))
    | some found =>
      obtain ⟨d, queue⟩ := found
      obtain ⟨p, store, l', hstore, R'⟩ := R.takeNext hrole (dequeue_eq_some hqueue)
      simp only [hstore]
      exact inStep_ok (R'.withQueueMutex none)

theorem inStep_iterate (R : Represents c s l) {p : P} {names : List Name}
    (hpc : c.thread t = .iterate p names) :
    InStep (c.threadNext fs g_search_term t new_dir) (s.threadNext fs g_search_term t) := by
  have hrole : (c.thread t).role = .works p := by rw [hpc]; rfl
  have hview : s.thread t = .iterate (c.data p) names := (R.view t).trans (by rw [hpc]; rfl)
  simp only [HeapSearch.threadNext, Search.threadNext, hpc, hview, R.entry_eq hrole]
  cases names with
  | nil => exact inStep_ok (R.closeDir hrole _)
  | cons d_name names =>
    simp only
    cases visit fs g_search_term (c.data p) d_name with
    | skip => exact inStep_ok (R.move hpc rfl)
    | found path => exact inStep_ok ((R.countFile.withEvent _).move hpc rfl)
    | denied path => exact inStep_ok ((R.withEvent _).move hpc rfl)
    | give child => exact inStep_ok (R.move hpc rfl)

theorem inStep_give [Fintype P] (R : Represents c s l) (hn : n < 2 ^ 31)
    (hcard : Fintype.card P < 2 ^ 32) {p : P} {child : DirQueueEntry} {names : List Name}
    (hpc : c.thread t = .give p child names) (hnew : c.allocated new_dir ≠ true) :
    InStep (c.threadNext fs g_search_term t new_dir) (s.threadNext fs g_search_term t) := by
  have hrole : (c.thread t).role = .works p := by rw [hpc]; rfl
  have hview : s.thread t = .give (c.data p) child names := (R.view t).trans (by rw [hpc]; rfl)
  obtain ⟨c', l', hgive, R', hthread, hdata⟩ := represents_giveDir R hn hcard hrole child hnew
  simp only [HeapSearch.threadNext, Search.threadNext, hpc, hview, if_neg hnew, hgive]
  have hrole' : (c'.thread t).role = .works p := by
    rcases hthread t with h | h
    · rw [h, hrole]
    · rw [h, HeapPc.role_signalled, hrole]
  have R'' := (R'.withQueueMutex none).goto (t := t) (.iterate p names) (.inl hrole'.symm)
  rw [← hdata]
  exact inStep_ok R''

/-- A step in which every call succeeds. -/
theorem inStep_threadNext [Fintype P] (R : Represents c s l) (Q : Points s) (hn : n < 2 ^ 31)
    (hcard : Fintype.card P < 2 ^ 32)
    (hnew : ∀ p child names, c.thread t = .give p child names → c.allocated new_dir ≠ true) :
    InStep (c.threadNext fs g_search_term t new_dir) (s.threadNext fs g_search_term t) := by
  have hsearch : c.search_mutex = none ↔ s.search_mutex = none := by rw [R.searchMutex]
  have hfinish : c.finish_mutex = none ↔ s.finish_mutex = none := by rw [R.finishMutex]
  have hqueue : c.queue_mutex = none ↔ s.queue_mutex = none := by rw [R.queueMutex]
  have hsearching : c.g_is_search = true ↔ s.g_is_search = true := by rw [R.searching]
  have hview := R.view t
  cases hpc : c.thread t with
  | take =>
    rw [hpc] at hview
    exact inStep_take R (Q.take t hview) hpc
  | iterate p names => exact inStep_iterate R hpc
  | give p child names => exact inStep_give R hn hcard hpc (hnew p child names hpc)
  | barrier =>
    rw [hpc] at hview
    simp only [HeapSearch.threadNext, Search.threadNext, hpc, hview, HeapPc.view]
    exact inStep_passBarrier R hn hpc
  | openDir p =>
    have hrole : (c.thread t).role = .works p := by rw [hpc]; rfl
    rw [hpc] at hview
    simp only [HeapSearch.threadNext, Search.threadNext, hpc, hview, HeapPc.view, R.entry_eq hrole]
    exact inStep_ok (R.move hpc rfl)
  | enqueue =>
    obtain ⟨queue, hidle, R'⟩ := R.becomeIdle hn (t := t) (by rw [hpc]; rfl)
    rw [hpc] at hview
    simp only [HeapSearch.threadNext, Search.threadNext, hpc, hview, HeapPc.view, hidle]
    exact inStep_ok ((R'.signalMain.withFinishMutex none).move hpc rfl)
  | testSleep =>
    have hsleep := R.shouldThreadSleep_eq (t := t) (by rw [hpc]; rfl)
    rw [hpc] at hview
    simp only [HeapSearch.threadNext, Search.threadNext, hpc, hview, HeapPc.view, hsleep]
    exact inStep_ite .rfl (fun _ => inStep_ok (R.move hpc rfl)) fun _ => inStep_ok (R.move hpc rfl)
  | start | wakeStart =>
    rw [hpc] at hview
    simp only [HeapSearch.threadNext, Search.threadNext, hpc, hview, HeapPc.view]
    exact inStep_ite hsearch (fun _ => inStep_ok ((R.withSearchMutex _).move hpc rfl)) fun _ => trivial
  | testStart =>
    rw [hpc] at hview
    simp only [HeapSearch.threadNext, Search.threadNext, hpc, hview, HeapPc.view]
    exact inStep_ite hsearching (fun _ => inStep_ok ((R.withSearchMutex _).move hpc rfl))
      fun _ => inStep_ok ((R.withSearchMutex _).move hpc rfl)
  | malloc =>
    rw [hpc] at hview
    simp only [HeapSearch.threadNext, Search.threadNext, hpc, hview, HeapPc.view]
    exact inStep_ok (R.setThreadId (by rw [hpc]; rfl))
  | lockQueue | wake | lockGive p child names =>
    rw [hpc] at hview
    simp only [HeapSearch.threadNext, Search.threadNext, hpc, hview, HeapPc.view]
    exact inStep_ite hqueue (fun _ => inStep_ok ((R.withQueueMutex _).move hpc rfl)) fun _ => trivial
  | lockFinish | lockFail queue =>
    rw [hpc] at hview
    simp only [HeapSearch.threadNext, Search.threadNext, hpc, hview, HeapPc.view]
    exact inStep_ite hfinish (fun _ => inStep_ok ((R.withFinishMutex _).move hpc rfl))
      fun _ => trivial
  | testSearch =>
    rw [hpc] at hview
    simp only [HeapSearch.threadNext, Search.threadNext, hpc, hview, HeapPc.view]
    exact inStep_ite hsearching (fun _ => inStep_ok (R.move hpc rfl))
      fun _ => inStep_ok ((R.withQueueMutex _).move hpc rfl)
  | fail queue =>
    rw [hpc] at hview
    simp only [HeapSearch.threadNext, Search.threadNext, hpc, hview, HeapPc.view]
    exact inStep_ok ((R.countFailed.signalMain.withFinishMutex none).move hpc rfl)
  | waitStart | sleep | failed queue | exited =>
    rw [hpc] at hview
    simp only [HeapSearch.threadNext, Search.threadNext, hpc, hview, HeapPc.view]
    trivial

end

/-! ## The other steps -/

/-- The hand-over of a directory, where the code uses what `malloc` returns without a look at it. -/
def HeapSearch.HandsOver (c : HeapSearch n P) (t : Fin n) : Prop :=
  (∃ p child names, c.thread t = .give p child names) ∧ c.g_thread_queue.queue.count ≠ 0

/-- A step in which a call fails. -/
theorem inStep_threadFault (R : Represents c s l) (hn : n < 2 ^ 31) (f : Fault) :
    InStep (c.threadFault t f) (s.threadFault t f) ∨
      f = .dirEntry ∧ c.HandsOver t ∧ c.threadFault t f = .crash := by
  have hview := R.view t
  have hentry {p : P} (hpc : (c.thread t).role = .works p) := R.entry_eq (t := t) hpc
  cases f with
  | threadEntry =>
    left
    cases hpc : c.thread t <;> rw [hpc] at hview <;>
      simp only [HeapSearch.threadFault, Search.threadFault, hpc, hview, HeapPc.view]
    case malloc => exact inStep_ok (R.startFail false)
    all_goals trivial
  | fileSystem =>
    left
    cases hpc : c.thread t with
    | openDir p =>
      rw [hpc] at hview
      simp only [HeapSearch.threadFault, Search.threadFault, hpc, hview, HeapPc.view,
        hentry (p := p) (by rw [hpc]; rfl)]
      exact inStep_ok ((R.withEvent _).startFail false)
    | iterate p names =>
      rw [hpc] at hview
      cases names with
      | nil =>
        simp only [HeapSearch.threadFault, Search.threadFault, hpc, hview, HeapPc.view]
        trivial
      | cons d_name names =>
        simp only [HeapSearch.threadFault, Search.threadFault, hpc, hview, HeapPc.view,
          hentry (p := p) (by rw [hpc]; rfl)]
        exact inStep_ite .rfl (fun _ => trivial)
          fun _ => inStep_ok ((R.withEvent _).startFail false)
    | _ =>
      rw [hpc] at hview
      simp only [HeapSearch.threadFault, Search.threadFault, hpc, hview, HeapPc.view]
      trivial
  | dirEntry =>
    cases hpc : c.thread t with
    | give p child names =>
      have hcount := R.count_threads hn (k := 0) (by omega)
      have hentry := hentry (p := p) (by rw [hpc]; rfl)
      rw [hpc] at hview
      by_cases hzero : c.g_thread_queue.queue.count = 0
      · left
        simp only [HeapSearch.threadFault, Search.threadFault, hpc, hview, HeapPc.view, hentry]
        rw [if_pos hzero, if_pos (List.length_eq_zero_iff.1 (hcount.1 hzero))]
        exact inStep_ok ((R.withEvent _).startFail true)
      · refine .inr ⟨rfl, ⟨⟨p, child, names, hpc⟩, hzero⟩, ?_⟩
        simp only [HeapSearch.threadFault, hpc, if_neg hzero]
    | _ =>
      left
      rw [hpc] at hview
      simp only [HeapSearch.threadFault, Search.threadFault, hpc, hview, HeapPc.view]
      trivial

/-- A wait that returns without a signal. -/
theorem inStep_threadSpurious (R : Represents c s l) :
    InStep (c.threadSpurious t) (s.threadSpurious t) := by
  have hview := R.view t
  cases hpc : c.thread t <;> rw [hpc] at hview <;>
    simp only [HeapSearch.threadSpurious, Search.threadSpurious, hpc, hview, HeapPc.view]
  case waitStart | sleep => exact inStep_ok (R.move hpc rfl)
  all_goals trivial

theorem inStep_mainSpurious (R : Represents c s l) : InStep c.mainSpurious s.mainSpurious := by
  rw [HeapSearch.mainSpurious, Search.mainSpurious, R.main]
  cases s.main with
  | waiting => exact inStep_ok (R.withMain .waking)
  | _ => trivial

theorem inStep_mainNext (R : Represents c s l) (Q : Points s) (hn : n < 2 ^ 31) :
    InStep c.mainNext s.mainNext := by
  have hsearch : c.search_mutex = none ↔ s.search_mutex = none := by rw [R.searchMutex]
  have hfinish : c.finish_mutex = none ↔ s.finish_mutex = none := by rw [R.finishMutex]
  have hqueue : c.queue_mutex = none ↔ s.queue_mutex = none := by rw [R.queueMutex]
  have hfailed : s.g_failed_threads ≤ n := by
    rw [Q.failed]
    exact (Finset.card_le_univ _).trans_eq (Fintype.card_fin n)
  have hle := R.length_le
  rw [HeapSearch.mainNext, Search.mainNext, R.main]
  cases s.main with
  | lockSearch =>
    exact inStep_ite hsearch
      (fun _ => inStep_ok ((R.withSearchMutex (some .main)).withMain .raise)) fun _ => trivial
  | raise =>
    exact inStep_ok ((((R.withSearching true).withSearchMutex none).broadcast).withMain .lockFinish)
  | lockFinish | waking =>
    exact inStep_ite hfinish
      (fun _ => inStep_ok ((R.withFinishMutex (some .main)).withMain .readDirs)) fun _ => trivial
  | readDirs =>
    exact inStep_ite R.dirs.isEmpty (fun _ => inStep_ok (R.withMain _)) fun _ => inStep_ok (R.withMain _)
  | readCounts =>
    refine inStep_ite ?_ (fun _ => inStep_ok (R.withMain _)) fun _ => inStep_ok (R.withMain _)
    rw [R.threads.count, R.failed, ← BitVec.ofNat_add]
    exact ofNat_eq_iff (by omega) (by omega)
  | readFailed =>
    refine inStep_ite ?_ (fun _ => inStep_ok ((R.withFinishMutex none).withMain _))
      fun _ => inStep_ok (R.withMain _)
    rw [R.failed, Ne, ofNat_eq_iff (by omega) (by omega)]
  | stopSearch => exact inStep_ok ((R.withSearching false).withMain .lockQueue)
  | lockQueue =>
    exact inStep_ite hqueue
      (fun _ => inStep_ok ((R.withQueueMutex (some .main)).withMain .signalAll)) fun _ => trivial
  | signalAll =>
    exact inStep_ok (((R.signalAll.withQueueMutex none).withFinishMutex none).withMain (.join 0))
  | join i =>
    by_cases hi : i < n
    · simp only [dif_pos hi, R.view ⟨i, hi⟩, HeapPc.view_terminated]
      exact inStep_ite .rfl (fun _ => inStep_ok (R.withMain _)) fun _ => trivial
    · simp only [dif_neg hi]
      exact inStep_ok (R.withMain .done)
  | waiting | done => trivial

end OSCourse.Pfind
