import OSCourse.Pfind.Wakeups

/-!
# The two lock orders

`main` leaves its wait loop with `finish_mutex` and takes `queue_mutex`; a searching thread that goes
to sleep holds `queue_mutex` and takes `finish_mutex`.  Here any call may fail and any wait may
return without a signal.

* `Crossed` — each of the two waits for the mutex that the other holds.
* `Clear` — the condition on one step: when `main` leaves its loop, no thread is on its way to
  `finish_mutex` with `queue_mutex`, and none sets out before `main` waits for `queue_mutex`.
* `locks_never_cross` — **in a run that meets the condition the two orders never meet, and a step
  that does not is followed by a run to where they do**.
* `not_crossed_of_signalled` — with waits that return after a signal only, they never meet.
-/

set_option autoImplicit false

namespace OSCourse.Pfind

open Transition

variable {n : Nat} {fs : FileSys} {g_search_term : List UInt8} {root : Path} {s s' : Search n}
  {t : Fin n}

/-- On the way to `finish_mutex`, with `queue_mutex`. -/
def ThreadPc.torn : ThreadPc → Bool
  | .lockFinish => true
  | .lockFail queue => queue
  | _ => false

/-- `main` and a searching thread wait for each other's mutex. -/
def Crossed (s : Search n) : Prop :=
  s.main = .lockQueue ∧ s.finish_mutex = some .main ∧
    ∃ t, (s.thread t).torn = true ∧ s.queue_mutex = some (.thread t)

/-- `main` is out of its wait loop and does not have `queue_mutex` yet. -/
def Leaving (s : Search n) : Prop := s.main = .stopSearch ∨ s.main = .lockQueue

/-- The step of `main` leaves the wait loop. -/
def Exits (s : Search n) : Prop :=
  (s.main = .readCounts ∧ s.g_thread_queue.length + s.g_failed_threads = n) ∨
    (s.main = .readFailed ∧ s.g_failed_threads = n)

/-- The condition on one step. -/
def Clear (s : Search n) : Action n → Prop
  | .main => Exits s → ∀ t, (s.thread t).torn = false
  | .thread t => s.main = .stopSearch → s.thread t = .testSleep → shouldThreadSleep s t = false
  | .fault _ .dirEntry => ¬Leaving s
  | _ => True

instance (s : Search n) : Decidable (Leaving s) := inferInstanceAs (Decidable (_ ∨ _))

instance (s : Search n) : Decidable (Exits s) := inferInstanceAs (Decidable (_ ∨ _))

instance (s : Search n) : (a : Action n) → Decidable (Clear s a)
  | .main => inferInstanceAs (Decidable (Exits s → ∀ t, (s.thread t).torn = false))
  | .thread t => inferInstanceAs (Decidable
      (s.main = .stopSearch → s.thread t = .testSleep → shouldThreadSleep s t = false))
  | .fault _ .dirEntry => inferInstanceAs (Decidable ¬Leaving s)
  | .fault _ .fileSystem | .fault _ .threadEntry | .mainSpurious | .threadSpurious _ => .isTrue trivial

/-- While `main` leaves, no thread is on its way to `finish_mutex`. -/
structure Parted (s : Search n) : Prop where
  clear : Leaving s → ∀ t, (s.thread t).torn = false
  stopped : s.main = .lockQueue → s.g_is_search = false

theorem Parted.not_crossed (P : Parted s) : ¬Crossed s := by
  rintro ⟨hmain, -, t, ht, -⟩
  have h := P.clear (.inr hmain) t
  rw [ht] at h; cases h

theorem ThreadPc.torn_signalled (pc : ThreadPc) : pc.signalled.torn = pc.torn := by
  cases pc <;> rfl

theorem ThreadPc.torn_broadcast (pc : ThreadPc) : pc.broadcast.torn = pc.torn := by
  cases pc <;> rfl

/-! ## The steps -/

/-- What a step of `t` does to `main`, to `g_is_search` and to the threads on their way. -/
structure Sets (s s' : Search n) (t : Fin n) (out : Prop) : Prop where
  main : s'.main = s.main ∨ s'.main = s.main.signalled
  searching : s'.g_is_search = s.g_is_search
  thread : ∀ u, (s'.thread u).torn = true → (s.thread u).torn = true ∨ out

theorem Sets.leaving {out : Prop} (S : Sets s s' t out) {pc : MainPc} (hpc : pc ≠ .waking)
    (h : s'.main = pc) : s.main = pc := by
  rcases S.main with heq | heq
  · exact heq.symm.trans h
  · rw [heq] at h
    cases hmain : s.main <;> rw [hmain] at h <;> simp only [MainPc.signalled] at h <;>
      first | exact h | exact absurd h.symm hpc

/-- A step of `t` to a point that is not on the way. -/
theorem Sets.goto {out : Prop} (S : Sets s s' t out) {pc : ThreadPc} (hpc : pc.torn = false) :
    Sets s (s'.goto t pc) t out := by
  refine ⟨S.main, S.searching, fun u hu => ?_⟩
  by_cases hut : u = t
  · subst hut; rw [Search.goto_self, hpc] at hu; cases hu
  · rw [Search.goto_of_ne _ _ hut] at hu; exact S.thread u hu

theorem Sets.signalThread {out : Prop} (S : Sets s s' t out) (u : Fin n) :
    Sets s (s'.signalThread u) t out := by
  refine ⟨S.main, S.searching, fun v hv => S.thread v ?_⟩
  by_cases hvu : v = u
  · subst hvu; rwa [Search.signalThread, Search.goto_self, ThreadPc.torn_signalled] at hv
  · rwa [Search.signalThread, Search.goto_of_ne _ _ hvu] at hv

theorem Sets.same {out : Prop} : Sets s s t out := ⟨.inl rfl, rfl, fun _ => .inl⟩

theorem sets_passBarrier {out : Prop} (hs : s.passBarrier t = some s') : Sets s s' t out := by
  cases barrierMove hs with
  | launch u queue _ _ _ _ =>
    have S : Sets s { s with
        g_all_threads_ready := true
        g_thread_queue := queue
        queue_mutex := none } t out := ⟨.inl rfl, rfl, fun _ => .inl⟩
    exact (S.signalThread u).goto rfl
  | alone _ _ _ _ _ _ =>
    refine Sets.goto ?_ rfl
    exact ⟨.inl rfl, rfl, fun _ => .inl⟩
  | sleep _ =>
    refine Sets.goto ?_ rfl
    exact ⟨.inl rfl, rfl, fun _ => .inl⟩

theorem sets_giveDir {out : Prop} (child : DirQueueEntry) : Sets s (s.giveDir child) t out := by
  rcases giveDir_cases s child with ⟨u, queue, -, heq⟩ | ⟨-, heq⟩
  · rw [heq]
    refine Sets.signalThread ?_ _
    exact ⟨.inl rfl, rfl, fun _ => .inl⟩
  · rw [heq]
    exact ⟨.inl rfl, rfl, fun _ => .inl⟩

/-- Only the sleep test sends a thread on its way. -/
theorem sets_threadNext (hs : s.threadNext fs g_search_term t = some s') :
    Sets s s' t (s.thread t = .testSleep ∧ shouldThreadSleep s t = true) := by
  have move : ∀ {s₁ : Search n} {pc : ThreadPc}, s₁.main = s.main → s₁.g_is_search = s.g_is_search →
      s₁.thread = s.thread → pc.torn = false →
      Sets s (s₁.goto t pc) t (s.thread t = .testSleep ∧ shouldThreadSleep s t = true) :=
    fun hmain hsearch hthread hpc =>
      Sets.goto ⟨.inl hmain, hsearch, fun u hu => .inl (by rwa [hthread] at hu)⟩ hpc
  cases threadMove hs with
  | idle hpc hsleep => exact ⟨.inl rfl, rfl, fun _ _ => .inr ⟨hpc, hsleep⟩⟩
  | enqueue _ =>
    refine Sets.goto ?_ rfl
    unfold Search.threadEnqueue
    split <;> exact ⟨.inr rfl, rfl, fun _ => .inl⟩
  | barrier _ hs => exact sets_passBarrier hs
  | @give _ child _ _ =>
    have S : Sets s (s.giveDir child) t (s.thread t = .testSleep ∧ shouldThreadSleep s t = true) :=
      sets_giveDir child
    refine Sets.goto ?_ rfl
    exact ⟨S.main, S.searching, S.thread⟩
  | fail _ =>
    refine Sets.goto ?_ rfl
    exact ⟨.inr rfl, rfl, fun _ => .inl⟩
  | _ => exact move rfl rfl rfl rfl

theorem sets_threadFault {f : Fault} (hs : s.threadFault t f = some s') :
    Sets s s' t (f = .dirEntry) := by
  cases faultMove hs with
  | malloc _ => exact Sets.same.goto rfl
  | openDir _ | stat _ _ =>
    refine Sets.goto ?_ rfl
    exact ⟨.inl rfl, rfl, fun _ => .inl⟩
  | give _ _ => exact ⟨.inl rfl, rfl, fun _ _ => .inr rfl⟩

/-- A step of a thread that sends none on its way while `main` leaves. -/
theorem Parted.sets {out : Prop} (P : Parted s) (S : Sets s s' t out) (hout : Leaving s → ¬out) :
    Parted s' := by
  have hleaving : Leaving s' → Leaving s := fun h =>
    h.imp (S.leaving (by decide)) (S.leaving (by decide))
  refine ⟨fun h u => Bool.eq_false_iff.2 fun hu => ?_, fun h => ?_⟩
  · rcases S.thread u hu with hu | h'
    · rw [P.clear (hleaving h) u] at hu; cases hu
    · exact hout (hleaving h) h'
  · rw [S.searching]
    exact P.stopped (S.leaving (by decide) h)

theorem parted_mainNext (P : Parted s) (hc : Clear s .main) (hs : s.mainNext = some s') :
    Parted s' := by
  have torn : ∀ {t}, (s'.thread t).torn = (s.thread t).torn := by
    intro t
    rcases (mainFrame hs).thread with h | h | h <;> rw [h]
    · exact ThreadPc.torn_broadcast _
    · exact ThreadPc.torn_signalled _
  have elsewhere : s'.main ≠ .stopSearch → s'.main ≠ .lockQueue → Parted s' :=
    fun h₁ h₂ => ⟨fun h => (h.elim h₁ h₂).elim, fun h => (h₂ h).elim⟩
  cases mainMove hs with
  | allIdle hpc hcount => exact ⟨fun _ => hc (.inl ⟨hpc, hcount⟩), by simp⟩
  | allFailed hpc hcount => exact ⟨fun _ => hc (.inr ⟨hpc, hcount⟩), by simp⟩
  | stopSearch hpc => exact ⟨fun _ => P.clear (.inl hpc), fun _ => rfl⟩
  | _ => exact elsewhere (by simp) (by simp)

/-! ## Runs -/

theorem parted_init (root : Path) : Parted (Search.init n root) :=
  ⟨fun _ _ => rfl, nofun⟩

/-- **Every step that meets the condition keeps the two apart.** -/
theorem parted_step {a : Action n} (P : Parted s) (hc : Clear s a)
    (hs : SearchStep fs g_search_term s a s') : Parted s' := by
  cases a with
  | main => exact parted_mainNext P hc hs
  | thread t =>
    apply P.sets (sets_threadNext hs)
    intro hleaving hout
    have hsleep : shouldThreadSleep s t = false := by
      rcases hleaving with h | h
      · exact hc h hout.1
      · rw [shouldThreadSleep, P.stopped h]; rfl
    rw [hsleep] at hout
    exact absurd hout.2 Bool.false_ne_true
  | fault t f =>
    apply P.sets (sets_threadFault hs)
    intro hleaving hf
    subst hf
    exact hc hleaving
  | mainSpurious =>
    obtain ⟨-, rfl⟩ := mainSpurious_cases hs
    exact ⟨by simp [Leaving], by simp⟩
  | threadSpurious t =>
    have S : Sets s s' t False := by
      rcases threadSpurious_cases hs with ⟨-, rfl⟩ | ⟨-, rfl⟩
      · exact Sets.same.goto rfl
      · exact Sets.same.goto rfl
    exact P.sets S fun _ => id

/-- While `main` leaves and a thread is on its way, at most one step of `main` is left. -/
theorem crossed_of_torn (L : Locks s) (hleaving : Leaving s) (ht : (s.thread t).torn = true) :
    ∃ h' s', Run (SearchStep fs g_search_term) s h' s' ∧ Crossed s' := by
  have hfinish : s.finish_mutex = some .main := by
    refine (L.finish .main).2 ?_
    rcases hleaving with h | h <;> simp [Search.holdsFinish, h]
  have hqueue : s.queue_mutex = some (.thread t) := by
    refine (L.queue (.thread t)).2 ?_
    cases hpc : s.thread t <;> rw [hpc] at ht <;> simp_all [Search.holdsQueue, ThreadPc.torn]
  rcases hleaving with h | h
  · refine ⟨[.main], { s with g_is_search := false, main := .lockQueue }, .step .nil ?_, rfl,
      hfinish, t, ht, hqueue⟩
    simp [SearchStep, Search.next, Search.mainNext, h]
  · exact ⟨[], s, .nil, h, hfinish, t, ht, hqueue⟩

/-- A step that does not meet the condition leaves a thread on its way while `main` leaves. -/
theorem torn_of_unmet {a : Action n} (hc : ¬Clear s a) (hs : SearchStep fs g_search_term s a s') :
    Leaving s' ∧ ∃ t, (s'.thread t).torn = true := by
  cases a with
  | main =>
    simp only [Clear, not_forall, Bool.not_eq_false] at hc
    obtain ⟨hexit, t, ht⟩ := hc
    rcases hexit with ⟨hpc, hcount⟩ | ⟨hpc, hcount⟩
    all_goals
      simp only [SearchStep, Search.next, Search.mainNext, hpc, hcount, if_true, ne_eq,
        not_true_eq_false, if_false] at hs
      cases hs
      exact ⟨.inl rfl, t, ht⟩
  | thread t =>
    simp only [Clear, not_forall, Bool.not_eq_false] at hc
    obtain ⟨hmain, hpc, hsleep⟩ := hc
    simp only [SearchStep, Search.next, Search.threadNext, hpc, hsleep, if_true] at hs
    cases hs
    exact ⟨.inl hmain, t, by rw [Search.goto_self]; rfl⟩
  | fault t f =>
    cases faultMove (f := f) hs with
    | give _ _ =>
      have hleaving : Leaving s := not_not.1 hc
      exact ⟨hleaving, t, by rw [Search.goto_self]; rfl⟩
    | malloc _ | openDir _ | stat _ _ => exact absurd trivial hc
  | mainSpurious => exact absurd trivial hc
  | threadSpurious t => exact absurd trivial hc

/-- **The two lock orders do not meet** in a run in which, when `main` leaves its wait loop, no
thread is on its way to `finish_mutex` and none sets out before `main` waits for `queue_mutex`;
and after a step in which one is or does, a run leads to where they meet. -/
theorem locks_never_cross {h : List (Action n)}
    (hr : Run (SearchStep fs g_search_term) (Search.init n root) h s) :
    (Run.EachStep (SearchStep fs g_search_term) (Search.init n root) Clear h → ¬Crossed s) ∧
      ∀ a s', SearchStep fs g_search_term s a s' → ¬Clear s a →
        ∃ h' s'', Run (SearchStep fs g_search_term) s' h' s'' ∧ Crossed s'' := by
  have L : Locks s := hr.invariant (locks_init root) fun _ _ _ L hs => locks_step L hs
  constructor
  · intro hq
    have P : Parted s := hr.invariantOn (parted_init root) (fun _ _ _ P hc hs => parted_step P hc hs)
      hq
    exact P.not_crossed
  · intro a s' hs hc
    obtain ⟨hleaving, t, ht⟩ := torn_of_unmet hc hs
    exact crossed_of_torn (locks_step L hs) hleaving ht

/-- The thread iterates the root directory and goes to sleep; `main` leaves its wait loop, lowers
`g_is_search` and takes `queue_mutex`. -/
def sleepsBefore : List (Action 1) := List.flatten [turns 18 0, [.main, .main]]

theorem locks_never_cross_sleeping : ∃ s, Run (SearchStep bareRoot []) (Search.init 1 [46])
    (List.replicate 5 .main ++ sleepsBefore) s ∧ s.g_is_search = false ∧
      s.queue_mutex = some .main ∧ s.finish_mutex = some .main ∧ ¬Crossed s := by
  have he : (Run.execOn (Search.next bareRoot []) Clear (Search.init 1 [46])
      (List.replicate 5 .main ++ sleepsBefore)).any (fun s => s.g_is_search = false ∧
        s.queue_mutex = some .main ∧ s.finish_mutex = some .main) = true := by
    decide
  obtain ⟨s, hr, hq, hs⟩ := runOn_of_exec he
  obtain ⟨hsearch, hqueue, hfinish⟩ := of_decide_eq_true hs
  exact ⟨s, hr, hsearch, hqueue, hfinish, (locks_never_cross hr).1 hq⟩

/-- **With waits that return after a signal only, the two lock orders do not meet.** -/
theorem not_crossed_of_signalled {h : List (Action n)} (hn : 0 < n)
    (hr : Run (SearchStep fs g_search_term) (Search.init n root) h s) (ha : ∀ a ∈ h, a.Orderly) :
    ¬Crossed s := by
  rintro ⟨hmain, -, t, ht, -⟩
  have hallowed := (good_run hn hr ha).inv.allowed t
  have hphase : (s.view t).phase = .stopping := by rw [Search.view, hmain]; rfl
  cases hpc : s.thread t with
  | lockFinish =>
    rw [hpc] at hallowed
    exact absurd (hphase.symm.trans hallowed.1) (by decide)
  | lockFail queue =>
    rw [hpc] at hallowed
    exact absurd (hphase.symm.trans hallowed.1) (by decide)
  | _ => rw [hpc] at ht; cases ht

/-- `main` leaves its wait loop; the sleeping thread wakes without a signal and goes to sleep again,
before `main` has lowered `g_is_search`. -/
def sleepsAgain : List (Action 1) :=
  List.flatten [[.main], turns 2 0, [.threadSpurious 0], List.replicate 3 .main, turns 18 0,
    [.main, .main]]

/-- Each of `main` and the only thread waits for the mutex of the other. -/
theorem locks_cross :
    ¬∀ (n : Nat) (fs : FileSys) (g_search_term : List UInt8) (root : Path) (h : List (Action n))
      (s : Search n), 0 < n → isSearchable fs root = true →
      Run (SearchStep fs g_search_term) (Search.init n root) h s → (∀ a ∈ h, a.Faultless) →
      ¬Crossed s := by
  intro hclaim
  have he : (Run.exec (Search.next bareRoot []) (Search.init 1 [46]) sleepsAgain).any (fun s =>
      s.main = .lockQueue ∧ s.finish_mutex = some .main ∧ s.thread 0 = .lockFinish ∧
        s.queue_mutex = some (.thread 0)) = true := by
    decide
  obtain ⟨s, hr, hs⟩ := run_of_exec he
  obtain ⟨hmain, hfinish, hthread, hqueue⟩ := of_decide_eq_true hs
  refine hclaim 1 bareRoot [] [46] sleepsAgain s (by decide) rfl hr
    (by simp [sleepsAgain, turns, Action.Faultless]) ⟨hmain, hfinish, 0, ?_, hqueue⟩
  rw [hthread]; rfl

end OSCourse.Pfind
