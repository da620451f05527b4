import OSCourse.Pfind.Weights

/-!
# What is known of the directories that a search holds

A directory is queued, handed to a thread, opened and read name by name; what it brings up is queued
or handed over in turn.  Facts about directories and names go the same way.

* `Search.opens`, `Search.reads`, `Search.asks` — the directory that the next step of a thread
  opens, the name that it reads, the path that it gives to `opendir` or `stat`.
* `Marks` — a fact for each station of a directory, and the law by which a child gets its own.
* `Held` — every directory has the facts of its station; `held_step` — **a step that opens and reads
  by the marks keeps them**.
-/

set_option autoImplicit false

namespace OSCourse.Pfind

open Transition

variable {n : Nat}

/-- The directory that the step opens. -/
def Search.opens (s : Search n) : Action n → Option DirQueueEntry
  | .thread t =>
    match s.thread t with
    | .openDir d => some d
    | _ => none
  | _ => none

/-- The directory that the step reads, and the name.  The name has been read when `stat` fails. -/
def Search.reads (s : Search n) : Action n → Option (DirQueueEntry × Name)
  | .thread t | .fault t .fileSystem =>
    match s.thread t with
    | .iterate d (d_name :: _) => some (d, d_name)
    | _ => none
  | _ => none

/-- The path that the next step of `t` gives to `opendir` or `stat`. -/
def Search.asks (s : Search n) (t : Fin n) : Option Path :=
  match s.thread t with
  | .openDir d => some d.path_name
  | .iterate d (d_name :: _) =>
    if isDotFolder d_name then none else some (newPathname d.path_name d_name)
  | _ => none

/-- A call that fails on the file system was asked for a path. -/
theorem asks_of_fault {s s' : Search n} {t : Fin n} (hs : s.threadFault t .fileSystem = some s') :
    ∃ path, s.asks t = some path := by
  cases faultMove (f := .fileSystem) hs with
  | @openDir d hpc => exact ⟨d.path_name, by rw [Search.asks, hpc]⟩
  | @stat d d_name names hpc hdot =>
    refine ⟨newPathname d.path_name d_name, ?_⟩
    rw [Search.asks, hpc]
    exact if_neg hdot

/-! ## The facts -/

structure Marks (fs : FileSys) (g_search_term : List UInt8) where
  /-- of a directory that is queued or handed to a thread -/
  held : DirQueueEntry → Prop
  /-- of a directory that a thread has opened -/
  opened : DirQueueEntry → Prop
  /-- of a name that has been read and found -/
  read : DirQueueEntry → Name → Prop
  gives : ∀ d d_name child, opened d → read d d_name →
    visit fs g_search_term d d_name = .give child → held child

variable {fs : FileSys} {g_search_term : List UInt8} {M : Marks fs g_search_term}
  {s s' : Search n} {t : Fin n}

/-- The names before `names` have been read. -/
def Marks.ReadTo (M : Marks fs g_search_term) (d : DirQueueEntry) (names : List Name) : Prop :=
  M.opened d ∧ ∃ before, before ++ names = fs.readdir d.path_name ∧ ∀ name ∈ before, M.read d name

/-- What is known at a program point of a thread. -/
def Marks.Known (M : Marks fs g_search_term) : ThreadPc → Prop
  | .openDir d => M.held d
  | .iterate d names => M.ReadTo d names
  | .lockGive d child names | .give d child names => M.ReadTo d names ∧ M.held child
  | _ => True

structure Held (M : Marks fs g_search_term) (s : Search n) : Prop where
  queued : ∀ d ∈ s.g_dir_queue, M.held d
  handed : ∀ t d, s.dir_to_handle t = some d → M.held d
  known : ∀ t, M.Known (s.thread t)
  iterated : ∀ d ∈ s.iterated, M.opened d ∧ ∀ name ∈ fs.readdir d.path_name, M.read d name

theorem Marks.ReadTo.mem {d : DirQueueEntry} {d_name : Name} {names : List Name}
    (h : M.ReadTo d (d_name :: names)) : d_name ∈ fs.readdir d.path_name := by
  obtain ⟨-, before, hall, -⟩ := h
  rw [← hall]
  exact List.mem_append_right _ (List.mem_cons_self ..)

theorem Marks.ReadTo.next {d : DirQueueEntry} {d_name : Name} {names : List Name}
    (h : M.ReadTo d (d_name :: names)) (hread : M.read d d_name) : M.ReadTo d names := by
  obtain ⟨hopened, before, hall, hbefore⟩ := h
  refine ⟨hopened, before ++ [d_name], by rw [List.append_assoc]; exact hall, ?_⟩
  intro name hname
  rcases List.mem_append.1 hname with hname | hname
  · exact hbefore name hname
  · exact List.mem_singleton.1 hname ▸ hread

theorem Marks.known_signalled (pc : ThreadPc) : M.Known pc.signalled ↔ M.Known pc := by
  cases pc <;> rfl

theorem Marks.known_broadcast (pc : ThreadPc) : M.Known pc.broadcast ↔ M.Known pc := by
  cases pc <;> rfl

/-! ## The steps -/

/-- A step of `t` to `pc` that puts nothing new into the queue and hands out nothing new. -/
theorem Held.goto (H : Held M s) {pc : ThreadPc} (hthread : s'.thread = s.thread)
    (hqueued : ∀ d ∈ s'.g_dir_queue, d ∈ s.g_dir_queue)
    (hhanded : ∀ u d, s'.dir_to_handle u = some d → s.dir_to_handle u = some d)
    (hiterated : s'.iterated = s.iterated) (hpc : M.Known pc) : Held M (s'.goto t pc) := by
  refine ⟨fun d hd => H.queued d (hqueued d hd), fun u d hd => H.handed u d (hhanded u d hd),
    fun u => ?_, fun d hd => H.iterated d (hiterated ▸ hd)⟩
  rcases eq_or_ne u t with rfl | hu
  · rw [Search.goto_self]
    exact hpc
  · rw [Search.goto_of_ne _ _ hu, hthread]
    exact H.known u

/-- A step of `t` to `pc` that leaves the directories where they are. -/
theorem Held.move (H : Held M s) {pc : ThreadPc} (hthread : s'.thread = s.thread)
    (hdirs : s'.g_dir_queue = s.g_dir_queue) (hdir : s'.dir_to_handle = s.dir_to_handle)
    (hiterated : s'.iterated = s.iterated) (hpc : M.Known pc) : Held M (s'.goto t pc) :=
  H.goto hthread (fun _ hd => hdirs ▸ hd) (fun _ _ hd => hdir ▸ hd) hiterated hpc

theorem held_signalThread (H : Held M s) (u : Fin n) : Held M (s.signalThread u) :=
  H.move rfl rfl rfl rfl ((Marks.known_signalled _).2 (H.known u))

theorem held_passBarrier (H : Held M s) (hs : s.passBarrier t = some s') : Held M s' := by
  cases barrierMove hs with
  | launch u queue _ _ _ _ =>
    have hsame : Held M { s with
        g_all_threads_ready := true
        g_thread_queue := queue
        queue_mutex := none } := ⟨H.queued, H.handed, H.known, H.iterated⟩
    exact (held_signalThread hsame u).move rfl rfl rfl rfl trivial
  | alone _ _ _ _ _ _ => exact H.move rfl rfl rfl rfl trivial
  | sleep _ => exact H.move rfl rfl rfl rfl trivial

theorem held_giveDir (H : Held M s) {child : DirQueueEntry} (hchild : M.held child) :
    Held M (s.giveDir child) := by
  rcases giveDir_cases s child with ⟨u, queue, -, heq⟩ | ⟨-, heq⟩
  · have hhanded : Held M { s with
        trace := .given child :: s.trace
        g_thread_queue := queue
        dir_to_handle := Function.update s.dir_to_handle u (some child) } := by
      refine ⟨H.queued, fun v d hd => ?_, H.known, H.iterated⟩
      have hd : Function.update s.dir_to_handle u (some child) v = some d := hd
      rcases eq_or_ne v u with rfl | hv
      · rw [Function.update_self] at hd
        cases hd
        exact hchild
      · rw [Function.update_of_ne hv] at hd
        exact H.handed v d hd
    rw [heq]
    exact held_signalThread hhanded u
  · rw [heq]
    refine ⟨?_, H.handed, H.known, H.iterated⟩
    intro d hd
    rcases List.mem_cons.1 hd with rfl | hd
    · exact hchild
    · exact H.queued d hd

theorem held_enqueue (H : Held M s) :
    Held M ({ (s.threadEnqueue t).signalMain with finish_mutex := none }.goto t .barrier) := by
  unfold Search.threadEnqueue
  split
  · exact H.move rfl rfl rfl rfl trivial
  · refine H.goto rfl (fun _ hd => hd) (fun u d hd => ?_) rfl trivial
    have hd : Function.update s.dir_to_handle t none u = some d := hd
    rcases eq_or_ne u t with rfl | hu
    · rw [Function.update_self] at hd
      cases hd
    · rwa [Function.update_of_ne hu] at hd

/-- A directory has been read to its end. -/
theorem held_closeDir (H : Held M s) {d : DirQueueEntry} (hpc : s.thread t = .iterate d []) :
    Held M ({ s with
      dir_to_handle := Function.update s.dir_to_handle t none
      trace := .iterated t d :: s.trace }.goto t .lockQueue) := by
  have hK := H.known t
  rw [hpc] at hK
  obtain ⟨hopened, before, hall, hbefore⟩ := hK
  rw [List.append_nil] at hall
  refine ⟨H.queued, fun u e he => ?_, fun u => ?_, fun e he => ?_⟩
  · have he : Function.update s.dir_to_handle t none u = some e := he
    rcases eq_or_ne u t with rfl | hu
    · rw [Function.update_self] at he
      cases he
    · rw [Function.update_of_ne hu] at he
      exact H.handed u e he
  · rcases eq_or_ne u t with rfl | hu
    · rw [Search.goto_self]
      trivial
    · rw [Search.goto_of_ne _ _ hu]
      exact H.known u
  · have he : e ∈ d :: s.iterated := he
    rcases List.mem_cons.1 he with rfl | he
    · exact ⟨hopened, hall ▸ hbefore⟩
    · exact H.iterated e he

theorem held_threadNext (H : Held M s) (hopen : ∀ d, s.opens (.thread t) = some d → M.held d → M.opened d)
    (hread : ∀ d d_name, s.reads (.thread t) = some (d, d_name) → M.opened d →
      d_name ∈ fs.readdir d.path_name → M.read d d_name)
    (hs : s.threadNext fs g_search_term t = some s') : Held M s' := by
  have hK := H.known t
  -- the name that is read
  have hname : ∀ {d d_name names}, s.thread t = .iterate d (d_name :: names) →
      M.opened d ∧ M.read d d_name ∧ M.ReadTo d names := by
    intro d d_name names hpc
    have hK : M.ReadTo d (d_name :: names) := by rwa [hpc] at hK
    have hname : M.read d d_name := hread d d_name (by rw [Search.reads, hpc]) hK.1 hK.mem
    exact ⟨hK.1, hname, hK.next hname⟩
  cases threadMove hs with
  | enqueue _ => exact held_enqueue H
  | barrier _ hs => exact held_passBarrier H hs
  | takeOwn _ hdir => exact H.move rfl rfl rfl rfl (H.handed t _ hdir)
  | @takeNext d queue _ _ hqueue =>
    refine H.goto rfl (fun e he => ?_) (fun _ _ hd => hd) rfl (H.queued d ?_)
    · rw [hqueue]
      exact List.mem_append_left _ he
    · rw [hqueue]
      exact List.mem_append_right _ (List.mem_singleton_self d)
  | @openDir d hpc =>
    rw [hpc] at hK
    have hopened : M.opened d := hopen d (by rw [Search.opens, hpc]) hK
    exact H.move rfl rfl rfl rfl ⟨hopened, [], rfl, by simp⟩
  | closeDir hpc => exact held_closeDir H hpc
  | skip hpc _ | found hpc _ | denied hpc _ =>
    exact H.move rfl rfl rfl rfl (hname hpc).2.2
  | folder hpc hvisit =>
    obtain ⟨hopened, hname, hrest⟩ := hname hpc
    exact H.move rfl rfl rfl rfl ⟨hrest, M.gives _ _ _ hopened hname hvisit⟩
  | lockGive hpc _ =>
    rw [hpc] at hK
    exact H.move rfl rfl rfl rfl hK
  | give hpc =>
    rw [hpc] at hK
    exact (held_giveDir H hK.2).move rfl rfl rfl rfl hK.1
  | _ => exact H.move rfl rfl rfl rfl trivial

theorem held_threadFault {f : Fault} (H : Held M s) (hs : s.threadFault t f = some s') :
    Held M s' := by
  cases faultMove hs with
  | malloc _ | openDir _ | stat _ _ | give _ _ => exact H.move rfl rfl rfl rfl trivial

theorem held_mainNext (H : Held M s) (hs : s.mainNext = some s') : Held M s' := by
  have F := mainFrame hs
  refine ⟨F.dirs ▸ H.queued, F.dir ▸ H.handed, fun u => ?_, ?_⟩
  · rcases F.thread with h | h | h
    · rw [h]
      exact H.known u
    · rw [h]
      exact (Marks.known_broadcast _).2 (H.known u)
    · rw [h]
      exact (Marks.known_signalled _).2 (H.known u)
  · unfold Search.iterated
    rw [F.trace]
    exact H.iterated

/-- **A step that opens and reads by the marks keeps what is known.** -/
theorem held_step {a : Action n} (H : Held M s)
    (hopen : ∀ d, s.opens a = some d → M.held d → M.opened d)
    (hread : ∀ d d_name, s.reads a = some (d, d_name) → M.opened d →
      d_name ∈ fs.readdir d.path_name → M.read d d_name)
    (hs : SearchStep fs g_search_term s a s') : Held M s' := by
  cases a with
  | main => exact held_mainNext H hs
  | thread t => exact held_threadNext H hopen hread hs
  | fault t f => exact held_threadFault H hs
  | mainSpurious =>
    obtain ⟨-, rfl⟩ := mainSpurious_cases hs
    exact ⟨H.queued, H.handed, H.known, H.iterated⟩
  | threadSpurious t =>
    rcases threadSpurious_cases hs with ⟨-, rfl⟩ | ⟨-, rfl⟩
    · exact H.move rfl rfl rfl rfl trivial
    · exact H.move rfl rfl rfl rfl trivial

theorem held_init {root : Path} (hroot : M.held ⟨root, root⟩) : Held M (Search.init n root) := by
  refine ⟨fun d hd => ?_, fun t d hd => ?_, fun _ => trivial, fun d hd => ?_⟩
  · rw [List.mem_singleton.1 hd]
    exact hroot
  · cases hd
  · cases hd

end OSCourse.Pfind
