import OSCourse.Pfind.HeapSteps
import OSCourse.Pfind.Exact

/-!
# The code with its pointers refines the search

* `heap_refines` — the runs of `pfind.c` on its memory are the runs of `Pfind.Threads`, and **no step
  follows a bad pointer** but for one `malloc` that is not checked.
* `Accounted` — the directory entries that are allocated are those given out and not yet iterated.
* `directories_are_freed` — so in the end **only the entries on which a thread failed are left**.
-/

set_option autoImplicit false

namespace OSCourse.Pfind

open LinkedQueue Transition

variable {n : Nat} {P : Type} {fs : FileSys} {g_search_term : List UInt8} {c c' : HeapSearch n P}
  {s s' : Search n} {l : List P} {t : Fin n}

/-! ## Refinement -/

section

variable [DecidableEq P]

/-- After `main_init` the root directory is in the queue. -/
theorem represents_init (root : Path) (root_entry : P) (dirNode : P → Node P DirQueueEntry)
    (threadNode : Fin n → Node (Fin n) (ThreadEntry P)) :
    ∃ c, HeapSearch.init root root_entry dirNode threadNode = some c ∧
      Represents c (Search.init n root) [root_entry] ∧
      (∀ p, c.allocated p = (p == root_entry)) ∧ c.trace = [.given ⟨root, root⟩] := by
  obtain ⟨store, hstore, L, hnew, -⟩ :=
    enqueue_spec (linked_empty (w := 32) dirNode) (by simp) (fun _ => (⟨root, root⟩ : DirQueueEntry))
      (List.not_mem_nil (a := root_entry))
  have hstore : dirEnqueue root root root_entry ⟨Header.empty 32 P, dirNode⟩ = some store := hstore
  rw [HeapSearch.init, hstore]
  refine ⟨_, rfl, ⟨rfl, rfl, ⟨L, by simp, ?_⟩, linked_empty threadNode, fun t ht => ?_, fun t _ => ?_,
    fun t => rfl, fun t ht => ?_, fun p hp => ?_, fun t p hp => ?_, fun t u p hp => ?_⟩,
    fun _ => rfl, rfl⟩
  · exact congrArg (fun d => [d]) hnew
  · rcases ht with ht | ht <;> cases ht
  · rintro (h | h) <;> cases h
  · cases ht
  · cases List.mem_singleton.1 hp
    exact beq_self_eq_true root_entry
  · cases hp
  · cases hp

/-- A step on the memory comes to the same as the step on the lists, or `malloc` has no entry to
return, or its NULL is used. -/
theorem next_cases [Fintype P] (R : Represents c s l) (Q : Points s) (hn : n < 2 ^ 31)
    (hcard : Fintype.card P < 2 ^ 32) (a : HeapAction n P) :
    InStep (c.next fs g_search_term a) (s.next fs g_search_term a.action) ∨
      (c.next fs g_search_term a = .waits ∧ ∃ t p, a = .thread t p ∧ c.allocated p = true) ∨
      (c.next fs g_search_term a = .crash ∧ ∃ t, a = .fault t .dirEntry ∧ c.HandsOver t) := by
  cases a with
  | main => exact .inl (inStep_mainNext R Q hn)
  | mainSpurious => exact .inl (inStep_mainSpurious R)
  | threadSpurious t => exact .inl (inStep_threadSpurious R)
  | fault t f =>
    rcases inStep_threadFault R hn f with h | ⟨rfl, hgives, hcrash⟩
    · exact .inl h
    · exact .inr (.inr ⟨hcrash, t, rfl, hgives⟩)
  | thread t new_dir =>
    by_cases hused : ∃ p child names, c.thread t = .give p child names ∧ c.allocated new_dir = true
    · obtain ⟨p, child, names, hpc, hused⟩ := hused
      refine .inr (.inl ⟨?_, t, new_dir, rfl, hused⟩)
      simp only [HeapSearch.next, HeapSearch.threadNext, hpc, if_pos hused]
    · refine .inl (inStep_threadNext R Q hn hcard fun p child names hpc hnew => hused ?_)
      exact ⟨p, child, names, hpc, hnew⟩

/-- The lists that the memory stands for, in a state that the search can reach. -/
def Stands (c : HeapSearch n P) (s : Search n) : Prop :=
  (Locks s ∧ Points s) ∧ ∃ l, Represents c s l

theorem heap_simulates [Fintype P] (hn : n < 2 ^ 31) (hcard : Fintype.card P < 2 ^ 32) :
    Simulates (HeapStep fs g_search_term) (SearchStep fs g_search_term)
      (HeapAction.action (n := n) (P := P)) Stands := by
  rintro c s a c' ⟨⟨L, Q⟩, l, R⟩ hstep
  have hnext : c.next fs g_search_term a = .ok c' := hstep
  rcases next_cases R Q hn hcard a with h | ⟨h, -⟩ | ⟨h, -⟩
  · rw [hnext] at h
    cases hs : s.next fs g_search_term a.action with
    | none =>
      rw [hs] at h
      cases h
    | some s' =>
      rw [hs] at h
      have hs : SearchStep fs g_search_term s a.action s' := hs
      exact ⟨s', hs, ⟨locks_step L hs, points_step Q L hs⟩, h⟩
  · cases hnext.symm.trans h
  · cases hnext.symm.trans h

/-- The search has no step of which the code has not one, while `malloc` has an entry to return. -/
theorem heap_follows [Fintype P] (R : Represents c s l) (Q : Points s) (hn : n < 2 ^ 31)
    (hcard : Fintype.card P < 2 ^ 32) {new_dir : P} (hnew : c.allocated new_dir = false)
    {a : Action n} (hs : SearchStep fs g_search_term s a s') :
    ∃ b c' l', b.action = a ∧ HeapStep fs g_search_term c b c' ∧ Represents c' s' l' := by
  -- the step of the code that calls `malloc` gets the entry that is free
  obtain ⟨b, rfl, hb⟩ : ∃ b : HeapAction n P, b.action = a ∧
      ∀ t p, b = .thread t p → c.allocated p = false := by
    cases a with
    | main => exact ⟨.main, rfl, by simp⟩
    | thread t => exact ⟨.thread t new_dir, rfl, by simpa using hnew⟩
    | fault t f => exact ⟨.fault t f, rfl, by simp⟩
    | mainSpurious => exact ⟨.mainSpurious, rfl, by simp⟩
    | threadSpurious t => exact ⟨.threadSpurious t, rfl, by simp⟩
  have hs : s.next fs g_search_term b.action = some s' := hs
  rcases next_cases R Q hn hcard b with h | ⟨-, t, p, rfl, hused⟩ | ⟨-, t, rfl, hgives⟩
  · rw [hs] at h
    cases hnext : c.next fs g_search_term b with
    | ok c' =>
      rw [hnext] at h
      obtain ⟨l', R'⟩ := h
      exact ⟨b, c', l', rfl, hnext, R'⟩
    | waits | crash =>
      rw [hnext] at h
      cases h
  · cases (hb t p rfl).symm.trans hused
  · -- the search does not have the step whose `malloc` is not checked
    obtain ⟨⟨p, child, names, hpc⟩, hcount⟩ := hgives
    have hview : s.thread t = .give (c.data p) child names := (R.view t).trans (by rw [hpc]; rfl)
    have hnil : s.g_thread_queue ≠ [] := fun hnil =>
      hcount ((R.count_threads hn (k := 0) (by omega)).2 (by rw [hnil]; rfl))
    have hs : s.threadFault t .dirEntry = some s' := hs
    simp only [Search.threadFault, hview, if_neg hnil] at hs
    cases hs

/-- **`pfind.c` on its memory does what the search on its lists does**, with both queues linked
through their entries, with `malloc` and `free`, from whatever the memory held before.  Each step of
the code is one of the search, and while `malloc` has an entry to return each step of the search is
one of the code.  No step follows a NULL or a freed pointer, frees an entry twice or signals a
condition variable that is not there, but for one: the hand-over of a directory when `malloc` fails. -/
theorem heap_refines [Fintype P] (hn : n < 2 ^ 31) (hcard : Fintype.card P < 2 ^ 32) (root : Path)
    (root_entry : P) (dirNode : P → Node P DirQueueEntry)
    (threadNode : Fin n → Node (Fin n) (ThreadEntry P)) :
    ∃ c₀, HeapSearch.init root root_entry dirNode threadNode = some c₀ ∧
      ∀ h c, Run (HeapStep fs g_search_term) c₀ h c →
        ∃ s l, Run (SearchStep fs g_search_term) (Search.init n root) (h.map HeapAction.action) s ∧
          Represents c s l ∧
          (∀ new_dir, c.allocated new_dir = false → ∀ a s', SearchStep fs g_search_term s a s' →
            ∃ b c' l', b.action = a ∧ HeapStep fs g_search_term c b c' ∧ Represents c' s' l') ∧
          ∀ a, c.next fs g_search_term a = .crash → ∃ t, a = .fault t .dirEntry ∧ c.HandsOver t := by
  obtain ⟨c₀, hinit, R₀, -⟩ := represents_init root root_entry dirNode threadNode
  refine ⟨c₀, hinit, fun h c hr => ?_⟩
  have hstands : Stands c₀ (Search.init n root) := ⟨⟨locks_init root, points_init n root⟩, _, R₀⟩
  obtain ⟨s, hr', ⟨L, Q⟩, l, R⟩ := (heap_simulates hn hcard).run hstands hr
  refine ⟨s, l, hr', R, fun new_dir hnew a s' hs => heap_follows R Q hn hcard hnew hs,
    fun a hcrash => ?_⟩
  rcases next_cases R Q hn hcard a with h | ⟨h, -⟩ | ⟨-, hgives⟩
  · rw [hcrash] at h
    cases s.next fs g_search_term a.action <;> cases h
  · cases hcrash.symm.trans h
  · exact hgives

/-! ### Runs on a given memory -/

def Outcome.toOption {S : Type} : Outcome S → Option S
  | .ok s => some s
  | .waits | .crash => none

theorem heap_run_of_exec {c₀ : HeapSearch n P} {h : List (HeapAction n P)} {p : HeapSearch n P → Bool}
    (he : (Run.exec (fun c a => (c.next fs g_search_term a).toOption) c₀ h).any p = true) :
    ∃ c, Run (HeapStep fs g_search_term) c₀ h c ∧ p c = true := by
  refine Run.of_exec_any (fun c a c' hs => ?_) he
  rw [HeapStep]
  cases hnext : c.next fs g_search_term a <;> rw [hnext] at hs <;> cases hs
  rfl

/-- `k` steps of the thread `t`, for which `malloc` returns the entry 1. -/
def heapTurns (k : Nat) (t : Fin 2) : List (HeapAction 2 (Fin 3)) := List.replicate k (.thread t 1)

/-- Addresses and ids that the memory held before. -/
def wildDirs : Fin 3 → Node (Fin 3) DirQueueEntry := fun _ => ⟨⟨[], []⟩, some 2, some 1⟩

def wildThreads : Fin 2 → Node (Fin 2) (ThreadEntry (Fin 3)) := fun _ => ⟨⟨7, some 2⟩, some 0, none⟩

/-- The thread 0 has found `./a`, and hands it to the thread 1. -/
def aboutToGive : List (HeapAction 2 (Fin 3)) :=
  List.flatten [heapTurns 7 0, heapTurns 8 1, heapTurns 8 0, [.main, .main], heapTurns 2 1,
    heapTurns 2 0]

theorem heap_refines_crash :
    ∃ c₀ c, HeapSearch.init [46] 0 wildDirs wildThreads = some c₀ ∧
      Run (HeapStep smallTree [98]) c₀ aboutToGive c ∧
      c.next smallTree [98] (.fault 0 .dirEntry) = .crash ∧ c.HandsOver 0 := by
  have he : ((HeapSearch.init [46] 0 wildDirs wildThreads).any fun c₀ =>
      (Run.exec (fun c a => (c.next smallTree [98] a).toOption) c₀ aboutToGive).any fun c =>
        match c.next smallTree [98] (.fault 0 .dirEntry) with
        | .crash => true
        | _ => false) = true := by
    decide
  obtain ⟨c₀, hinit, hall⟩ := heap_refines (n := 2) (by decide) (by decide) [46] 0 wildDirs wildThreads
  rw [hinit, Option.any_some] at he
  obtain ⟨c, hr, hc⟩ := heap_run_of_exec he
  have hcrash : c.next smallTree [98] (.fault 0 .dirEntry) = .crash := by
    cases h : c.next smallTree [98] (.fault 0 .dirEntry) <;> rw [h] at hc <;> first | rfl | cases hc
  obtain ⟨s, l, -, -, -, honly⟩ := hall _ c hr
  obtain ⟨t, heq, hgives⟩ := honly _ hcrash
  cases heq
  exact ⟨c₀, c, hinit, hr, hcrash, hgives⟩

end

/-! ## Allocated entries -/

def HeapPc.isFailed : HeapPc P → Bool
  | .failed _ => true
  | _ => false

theorem HeapPc.view_isFailed (data : P → DirQueueEntry) (pc : HeapPc P) :
    (pc.view data).isFailed = pc.isFailed := by
  cases pc <;> rfl

theorem Outcome.ofOption_eq_ok {S : Type} {o : Option S} {x : S} (h : Outcome.ofOption o = .ok x) :
    o = some x := by
  cases o with
  | none => cases h
  | some y => cases h; rfl

section

variable [Fintype P]

/-- The directory entries that have not been freed. -/
def HeapSearch.used (c : HeapSearch n P) : Finset P :=
  Finset.univ.filter fun p => c.allocated p = true

/-- Each directory that was given out has an entry, until it has been iterated. -/
def Accounted (c : HeapSearch n P) : Prop :=
  c.used.card + (c.trace.filterMap Event.iterated?).length = (c.trace.filterMap Event.given?).length

theorem Accounted.congr (A : Accounted c) (hallocated : c'.allocated = c.allocated)
    (htrace : c'.trace = c.trace ∨
      ∃ e, c'.trace = e :: c.trace ∧ e.given? = none ∧ e.iterated? = none) : Accounted c' := by
  rw [Accounted, HeapSearch.used, hallocated]
  rcases htrace with h | ⟨e, h, hgiven, hiterated⟩
  · rw [h]
    exact A
  · rw [h, List.filterMap_cons, List.filterMap_cons, hgiven, hiterated]
    exact A

theorem accounted_mainNext (A : Accounted c) (hs : c.mainNext = .ok c') : Accounted c' := by
  have hsame : c'.allocated = c.allocated ∧ c'.trace = c.trace := by
    cases hmain : c.main with
    | join i =>
      simp only [HeapSearch.mainNext, hmain] at hs
      split at hs
      · split at hs <;> cases hs
        exact ⟨rfl, rfl⟩
      · cases hs
        exact ⟨rfl, rfl⟩
    | lockSearch | lockFinish | waking | lockQueue | readDirs | readCounts | readFailed =>
      simp only [HeapSearch.mainNext, hmain] at hs
      split at hs <;> cases hs <;> exact ⟨rfl, rfl⟩
    | raise | stopSearch | signalAll | waiting | done =>
      simp only [HeapSearch.mainNext, hmain] at hs
      cases hs <;> exact ⟨rfl, rfl⟩
  exact A.congr hsame.1 (.inl hsame.2)

theorem accounted_threadFault {f : Fault} (A : Accounted c) (hs : c.threadFault t f = .ok c') :
    Accounted c' := by
  have hfailed : ∀ {p : P} {queue : Bool}, Outcome.ofOption ((c.entry p).map fun d =>
      ({ c with trace := .failedOn d :: c.trace } : HeapSearch n P).goto t (.lockFail queue)) =
        .ok c' → Accounted c' := by
    intro p queue hs
    obtain ⟨d, -, rfl⟩ := Option.map_eq_some_iff.1 (Outcome.ofOption_eq_ok hs)
    exact A.congr rfl (.inr ⟨_, rfl, rfl, rfl⟩)
  cases f with
  | threadEntry =>
    simp only [HeapSearch.threadFault] at hs
    split at hs <;> cases hs
    exact A.congr rfl (.inl rfl)
  | fileSystem =>
    simp only [HeapSearch.threadFault] at hs
    split at hs
    · exact hfailed hs
    · split at hs
      · cases hs
      · exact hfailed hs
    · cases hs
  | dirEntry =>
    simp only [HeapSearch.threadFault] at hs
    split at hs
    · split at hs
      · exact hfailed hs
      · cases hs
    · cases hs

section

variable [DecidableEq P]

theorem used_malloc {p : P} (hp : c.allocated p ≠ true)
    (hc' : c'.allocated = Function.update c.allocated p true) : c'.used.card = c.used.card + 1 := by
  have hused : c'.used = insert p c.used := by
    ext q
    simp only [HeapSearch.used, hc', Finset.mem_filter, Finset.mem_insert, Finset.mem_univ, true_and]
    rcases eq_or_ne q p with rfl | hq
    · simp
    · simp [hq]
  rw [hused, Finset.card_insert_of_notMem]
  simpa [HeapSearch.used] using hp

theorem used_free {p : P} (hp : c.allocated p = true)
    (hc' : c'.allocated = Function.update c.allocated p false) : c'.used.card + 1 = c.used.card := by
  have hused : c'.used = c.used.erase p := by
    ext q
    simp only [HeapSearch.used, hc', Finset.mem_filter, Finset.mem_erase, Finset.mem_univ, true_and]
    rcases eq_or_ne q p with rfl | hq
    · simp
    · simp [hq]
  rw [hused]
  exact Finset.card_erase_add_one (by simpa [HeapSearch.used] using hp)

theorem accounted_giveDir {child : DirQueueEntry} {new_dir : P} (A : Accounted c)
    (hnew : c.allocated new_dir ≠ true) (hgive : c.giveDir child new_dir = some c') :
    Accounted c' := by
  have hgrow : c'.allocated = Function.update c.allocated new_dir true ∧
      c'.trace = .given child :: c.trace := by
    simp only [HeapSearch.giveDir] at hgive
    split at hgive
    · split at hgive
      · obtain ⟨cv, -, rfl⟩ := Option.map_eq_some_iff.1 hgive
        exact ⟨rfl, rfl⟩
      · cases hgive
    · obtain ⟨queue, -, rfl⟩ := Option.map_eq_some_iff.1 hgive
      exact ⟨rfl, rfl⟩
  have hused := used_malloc hnew hgrow.1
  rw [Accounted] at A
  rw [Accounted, hused, hgrow.2]
  simp only [List.filterMap_cons, Event.given?, Event.iterated?, List.length_cons]
  omega

theorem accounted_threadNext {new_dir : P} (A : Accounted c)
    (hs : c.threadNext fs g_search_term t new_dir = .ok c') : Accounted c' := by
  cases hpc : c.thread t with
  | start | wakeStart | lockQueue | wake | lockFinish | lockGive p child names | lockFail queue =>
    simp only [HeapSearch.threadNext, hpc] at hs
    split at hs <;> cases hs
    exact A.congr rfl (.inl rfl)
  | testStart | testSleep | testSearch =>
    simp only [HeapSearch.threadNext, hpc] at hs
    split at hs <;> cases hs <;> exact A.congr rfl (.inl rfl)
  | malloc | fail queue =>
    simp only [HeapSearch.threadNext, hpc] at hs
    cases hs
    exact A.congr rfl (.inl rfl)
  | enqueue =>
    simp only [HeapSearch.threadNext, hpc] at hs
    obtain ⟨queue, -, rfl⟩ := Option.map_eq_some_iff.1 (Outcome.ofOption_eq_ok hs)
    exact A.congr rfl (.inl rfl)
  | barrier =>
    simp only [HeapSearch.threadNext, hpc, HeapSearch.passBarrier] at hs
    split at hs
    · split at hs
      · split at hs
        · obtain ⟨cv, -, rfl⟩ := Option.map_eq_some_iff.1 (Outcome.ofOption_eq_ok hs)
          exact A.congr rfl (.inl rfl)
        · cases hs
          exact A.congr rfl (.inl rfl)
      · cases hs
    · cases hs
      exact A.congr rfl (.inl rfl)
  | take =>
    simp only [HeapSearch.threadNext, hpc] at hs
    split at hs
    · cases hs
      exact A.congr rfl (.inl rfl)
    · split at hs <;> cases hs
      exact A.congr rfl (.inl rfl)
  | openDir p =>
    simp only [HeapSearch.threadNext, hpc] at hs
    obtain ⟨d, -, rfl⟩ := Option.map_eq_some_iff.1 (Outcome.ofOption_eq_ok hs)
    exact A.congr rfl (.inl rfl)
  | iterate p names =>
    cases hentry : c.entry p with
    | none =>
      simp only [HeapSearch.threadNext, hpc, hentry] at hs
      cases hs
    | some d =>
      have hused : c.allocated p = true := by
        by_contra hnot
        rw [Heap.entry, if_neg hnot] at hentry
        cases hentry
      cases names with
      | nil =>
        simp only [HeapSearch.threadNext, hpc, hentry] at hs
        cases hs
        have hfree : (({ c with
            toHeap := c.toHeap.closeDir t p
            trace := .iterated t d :: c.trace } : HeapSearch n P).goto t .lockQueue).used.card + 1 =
          c.used.card := used_free hused rfl
        rw [Accounted] at A ⊢
        simp only [HeapSearch.goto, List.filterMap_cons, Event.given?, Event.iterated?,
          List.length_cons] at hfree ⊢
        omega
      | cons d_name names =>
        simp only [HeapSearch.threadNext, hpc, hentry] at hs
        split at hs <;> cases hs
        · exact A.congr rfl (.inl rfl)
        · exact A.congr rfl (.inr ⟨_, rfl, rfl, rfl⟩)
        · exact A.congr rfl (.inr ⟨_, rfl, rfl, rfl⟩)
        · exact A.congr rfl (.inl rfl)
  | give p child names =>
    simp only [HeapSearch.threadNext, hpc] at hs
    split at hs
    · cases hs
    · rename_i hnew
      obtain ⟨c₁, hgive, rfl⟩ := Option.map_eq_some_iff.1 (Outcome.ofOption_eq_ok hs)
      exact (accounted_giveDir A hnew hgive).congr rfl (.inl rfl)
  | waitStart | sleep | failed queue | exited =>
    simp only [HeapSearch.threadNext, hpc] at hs
    cases hs

theorem accounted_step {a : HeapAction n P} (A : Accounted c) (hs : HeapStep fs g_search_term c a c') :
    Accounted c' := by
  have hs : c.next fs g_search_term a = .ok c' := hs
  cases a with
  | main => exact accounted_mainNext A hs
  | thread t new_dir => exact accounted_threadNext A hs
  | fault t f => exact accounted_threadFault A hs
  | mainSpurious =>
    simp only [HeapSearch.next, HeapSearch.mainSpurious] at hs
    split at hs <;> cases hs
    exact A.congr rfl (.inl rfl)
  | threadSpurious t =>
    simp only [HeapSearch.next, HeapSearch.threadSpurious] at hs
    split at hs <;> cases hs <;> exact A.congr rfl (.inl rfl)

theorem accounted_run {root : Path} {root_entry : P} {dirNode : P → Node P DirQueueEntry}
    {threadNode : Fin n → Node (Fin n) (ThreadEntry P)} {c₀ : HeapSearch n P}
    {h : List (HeapAction n P)}
    (hinit : HeapSearch.init root root_entry dirNode threadNode = some c₀)
    (hr : Run (HeapStep fs g_search_term) c₀ h c) : Accounted c := by
  obtain ⟨c₁, hinit₁, -, hallocated, htrace⟩ := represents_init root root_entry dirNode threadNode
  cases hinit.symm.trans hinit₁
  refine hr.invariant ?_ fun _ _ _ A hs => accounted_step A hs
  have hused : c₀.used = {root_entry} := by
    ext p
    simp [HeapSearch.used, hallocated]
  rw [Accounted, hused, htrace]
  rfl

/-- **Every directory entry is freed when its directory has been iterated, and no other one is**: at
any time as many entries are allocated as directories were given out and not iterated.  If waits
return after a signal only and `dir_enqueue` gets its memory, then once `main` has left its wait loop,
with a thread alive, what is left are the entries of the directories on which a thread failed. -/
theorem directories_are_freed {root : Path} {root_entry : P} {dirNode : P → Node P DirQueueEntry}
    {threadNode : Fin n → Node (Fin n) (ThreadEntry P)} {c₀ : HeapSearch n P}
    {h : List (HeapAction n P)} (h0 : 0 < n) (hn : n < 2 ^ 31) (hcard : Fintype.card P < 2 ^ 32)
    (hinit : HeapSearch.init root root_entry dirNode threadNode = some c₀)
    (hr : Run (HeapStep fs g_search_term) c₀ h c) :
    c.used.card + (c.trace.filterMap Event.iterated?).length =
        (c.trace.filterMap Event.given?).length ∧
      ((∀ a ∈ h, a.action.Orderly) → c.main.phase = .stopping ∨ c.main.phase = .stopped →
        ∀ t, (c.thread t).isFailed = false →
          c.used.card = (c.trace.filterMap Event.failedOn?).length) := by
  have A := accounted_run hinit hr
  refine ⟨A, fun ha hover t ht => ?_⟩
  obtain ⟨c₁, hinit₁, R₀, -⟩ := represents_init root root_entry dirNode threadNode
  cases hinit.symm.trans hinit₁
  obtain ⟨s, hr', -, l, R⟩ := (heap_simulates hn hcard).run
    ⟨⟨locks_init root, points_init n root⟩, _, R₀⟩ hr
  have ha' : ∀ a ∈ h.map HeapAction.action, a.Orderly := by
    intro a hmem
    obtain ⟨b, hb, rfl⟩ := List.mem_map.1 hmem
    exact ha b hb
  have hover' : s.Over := by
    rw [Search.Over, ← R.main]
    exact hover
  have ht' : (s.thread t).isFailed = false := by
    rw [R.view, HeapPc.view_isFailed]
    exact ht
  have hcount := given_countP h0 hr' ha' hover' ht' (fun _ => true) 1 (.inl rfl)
  simp only [List.countP_true, Search.given, Search.iterated, Search.failedOn] at hcount
  have htrace : c.trace = s.trace := congrArg Control.trace R.control
  rw [Accounted, htrace] at A
  rw [htrace]
  omega

/-- The thread 1 fails to open `./a`. -/
def heapFailedShare : List (HeapAction 2 (Fin 3)) :=
  List.flatten [[.main, .main, .main], heapTurns 2 1, [.fault 1 .fileSystem], heapTurns 4 1,
    heapTurns 16 0, heapTurns 8 1, heapTurns 8 0, [.main, .main], heapTurns 2 1, heapTurns 2 0]

theorem directories_are_freed_share :
    ∃ c₀ c, HeapSearch.init [46] 0 wildDirs wildThreads = some c₀ ∧
      Run (HeapStep smallTree [98]) c₀ heapFailedShare c ∧ c.used.card = 1 := by
  obtain ⟨c₀, hinit, -⟩ := represents_init (n := 2) [46] (0 : Fin 3) wildDirs wildThreads
  have he : ((HeapSearch.init [46] 0 wildDirs wildThreads).any fun c₀ =>
      (Run.exec (fun c a => (c.next smallTree [98] a).toOption) c₀ heapFailedShare).any fun c =>
        c.main = .stopSearch ∧ (c.thread 0).isFailed = false ∧
          (c.trace.filterMap Event.failedOn?).length = 1) = true := by
    decide
  rw [hinit, Option.any_some] at he
  obtain ⟨c, hr, hc⟩ := heap_run_of_exec he
  obtain ⟨hmain, ht, hfailed⟩ := of_decide_eq_true hc
  obtain ⟨-, hused⟩ := directories_are_freed (by decide) (by decide) (by decide) hinit hr
  refine ⟨c₀, c, hinit, hr, (hused ?_ (.inl (by rw [hmain]; rfl)) 0 ht).trans hfailed⟩
  simp [heapFailedShare, heapTurns, HeapAction.action, Action.Orderly]

end

end

end OSCourse.Pfind
