import OSCourse.Pfind.Allocation
import OSCourse.Pfind.Weights

/-!
# Failing `stat` and `opendir` calls

* `Action.FilesOnly` — the steps in which a searching thread can fail on the file system only.
* `file_failures_block_nothing` — **nobody gets stuck, and when `main` leaves its wait loop with a
  thread that has not failed, every directory has been iterated or its thread has failed on it**.
-/

set_option autoImplicit false

namespace OSCourse.Pfind

open Transition

variable {n : Nat} {fs : FileSys} {g_search_term : List UInt8} {root : Path} {s : Search n}

/-- The steps in which a searching thread can fail on the file system only. -/
def Action.FilesOnly : Action n → Prop
  | .main | .thread _ => True
  | .fault _ f => f = .fileSystem
  | .mainSpurious | .threadSpurious _ => False

theorem Action.FilesOnly.orderly {a : Action n} (ha : a.FilesOnly) : a.Orderly := by
  cases a with
  | fault t f =>
    have ha : f = .fileSystem := ha
    subst ha; exact nofun
  | _ => exact ha

/-- **Failures on the file system block nobody and drop no directory.** -/
theorem file_failures_block_nothing {h : List (Action n)} (hn : 0 < n)
    (hr : Run (SearchStep fs g_search_term) (Search.init n root) h s) (ha : ∀ a ∈ h, a.FilesOnly) :
    (¬s.Finished → s.CanStep fs g_search_term) ∧
      (s.Over → (∃ t, (s.thread t).isFailed = false) → ∀ d, .given d ∈ s.trace →
        (∃ t, .iterated t d ∈ s.trace) ∨ .failedOn d ∈ s.trace) := by
  have horderly : ∀ a ∈ h, a.Orderly := fun a hmem => (ha a hmem).orderly
  refine ⟨fun hlive => ?_, fun hover ⟨t, ht⟩ d hgiven => ?_⟩
  · have G := good_run hn hr horderly
    have hentry : ∀ t, .fault t .threadEntry ∉ h := fun t hmem => by cases ha _ hmem
    by_contra hno
    exact not_stuck G.inv G.locks (uniform_run hn hr horderly (.inl hentry)) ⟨hlive, hno⟩
  · have hcount := given_countP hn hr horderly hover ht (fun e => e = d) 1 (.inl rfl)
    have hpos : 0 < s.given.countP fun e => e = d :=
      List.countP_pos_iff.2 ⟨d, List.mem_filterMap.2 ⟨_, hgiven, rfl⟩, decide_eq_true rfl⟩
    have hsome : 0 < s.iterated.countP (fun e => e = d) ∨ 0 < s.failedOn.countP (fun e => e = d) := by
      omega
    rcases hsome with h | h
    · obtain ⟨e, he, hd⟩ := List.countP_pos_iff.1 h
      obtain ⟨ev, hev, heq⟩ := List.mem_filterMap.1 he
      cases ev <;> cases heq
      exact .inl ⟨_, of_decide_eq_true hd ▸ hev⟩
    · obtain ⟨e, he, hd⟩ := List.countP_pos_iff.1 h
      obtain ⟨ev, hev, heq⟩ := List.mem_filterMap.1 he
      cases ev <;> cases heq
      exact .inr (of_decide_eq_true hd ▸ hev)

/-! ## A run of two threads -/

/-- The root directory `.` with one directory `a` in it. -/
def oneFolder : FileSys where
  stat := fun path => if path = [46] ∨ path = [46, 47, 97] then .dir true true else .notDir
  readdir := fun path => if path = [46] then [[97]] else []
  nodup := fun path => by split <;> simp
  noSlash := fun path name hname => by
    split at hname <;> simp at hname
    subst hname; decide

/-- The thread 0 gives `./a` to the thread 1, which fails to open it; `main` leaves its loop. -/
def failedFolder : List (Action 2) :=
  List.flatten [[.main, .main, .main], turns 2 1, [.fault 1 .fileSystem], turns 4 1, turns 14 0,
    turns 8 1, turns 8 0, [.main, .main], turns 2 1, turns 2 0]

theorem file_failures_block_nothing_folder :
    ∃ s, Run (SearchStep oneFolder []) (Search.init 2 [46]) failedFolder s ∧
      s.CanStep oneFolder [] ∧ .given ⟨[46, 47, 97], [97]⟩ ∈ s.trace ∧
      ∀ d, .given d ∈ s.trace → (∃ t, .iterated t d ∈ s.trace) ∨ .failedOn d ∈ s.trace := by
  have he : (Run.exec (Search.next oneFolder []) (Search.init 2 [46]) failedFolder).any (fun s =>
      s.main = .stopSearch ∧ (s.thread 0).isFailed = false ∧
        .given ⟨[46, 47, 97], [97]⟩ ∈ s.trace) = true := by
    decide
  obtain ⟨s, hr, hs⟩ := run_of_exec he
  obtain ⟨hmain, ht, hgiven⟩ := of_decide_eq_true hs
  have h := file_failures_block_nothing (by decide) hr
    (by simp [failedFolder, turns, Action.FilesOnly])
  refine ⟨s, hr, h.1 fun hdone => ?_, hgiven, h.2 (.inl (by rw [hmain]; rfl)) ⟨0, ht⟩⟩
  cases hmain.symm.trans hdone.1

end OSCourse.Pfind
