import Mathlib

/-!
# `strtok` of the C library

`strtok` cuts a string into words in place: it overwrites the delimiter after each word with the
final character of C strings, and keeps a pointer to where it has to go on.  Memory is a list of
characters, a pointer is a position in it.

* `strtok` — one call; `tokens` — the calls up to the first that returns NULL.
* `lastTouched` — the last position that a call reads or writes; none lies behind a final character
  of the memory (`touched_le`).
* `Spells` — a string consists of these words and of delimiters between them.
* `tokens_spells` — the pointers that were returned point to the words, in the memory as the last
  call leaves it.
-/

set_option autoImplicit false

namespace Strtok

variable {α : Type*} [DecidableEq α] (nul : α) (delim : α → Bool)

/-- The C string at a position. -/
def cString (mem : List α) (p : Nat) : List α := (mem.drop p).takeWhile (· ≠ nul)

/-- A character of a word. -/
def ordinary (c : α) : Bool := c ≠ nul && !delim c

/-- One call that goes on at `s`: the word, if there is one, the memory, and where to go on. -/
def strtok (mem : List α) (s : Nat) : Option Nat × List α × Nat :=
  let start := s + ((mem.drop s).takeWhile delim).length
  let word := (mem.drop start).takeWhile (ordinary nul delim)
  let last := start + word.length
  if word = [] then (none, mem, start)
  else if mem.getD last nul = nul then (some start, mem, last)
  else (some start, mem.set last nul, last + 1)

/-- The calls that go on at `s`, at most `fuel` of them: the words, and the memory in the end. -/
def tokens : Nat → List α → Nat → List Nat × List α
  | 0, mem, _ => ([], mem)
  | fuel + 1, mem, s =>
    match strtok nul delim mem s with
    | (none, mem, _) => ([], mem)
    | (some p, mem, s) =>
      let (arglist, mem) := tokens fuel mem s
      (p :: arglist, mem)

/-- The last position that a call reads; where it writes, it writes there. -/
def lastTouched (mem : List α) (s : Nat) : Nat :=
  let start := s + ((mem.drop s).takeWhile delim).length
  start + ((mem.drop start).takeWhile (ordinary nul delim)).length

/-- The same for each call of `tokens`. -/
def touched : Nat → List α → Nat → List Nat
  | 0, _, _ => []
  | fuel + 1, mem, s =>
    lastTouched nul delim mem s ::
      match strtok nul delim mem s with
      | (none, _, _) => []
      | (some _, mem, s) => touched fuel mem s

/-- A word: it is not empty and has ordinary characters only. -/
structure IsWord (word : List α) : Prop where
  ne_nil : word ≠ []
  chars : ∀ c ∈ word, ordinary nul delim c = true

/-- The string consists of the words and of delimiters before, between and after them. -/
inductive Spells : List (List α) → List α → Prop
  | blank {blanks : List α} : (∀ c ∈ blanks, delim c = true) → Spells [] blanks
  | last {blanks word : List α} : (∀ c ∈ blanks, delim c = true) → IsWord nul delim word →
      Spells [word] (blanks ++ word)
  | cons {blanks word str : List α} {d : α} {words : List (List α)} :
      (∀ c ∈ blanks, delim c = true) → IsWord nul delim word → delim d = true → Spells words str →
      Spells (word :: words) (blanks ++ (word ++ d :: str))

variable {nul : α} {delim : α → Bool}

/-! ## Prefixes -/

theorem takeWhile_append_stop {β : Type*} {p : β → Bool} {l rest : List β} (hl : ∀ c ∈ l, p c = true)
    (hrest : ∀ c ∈ rest.head?, p c = false) : (l ++ rest).takeWhile p = l := by
  rw [List.takeWhile_append_of_pos hl]
  cases rest with
  | nil => simp
  | cons c rest => rw [List.takeWhile_cons_of_neg (by simp [hrest c rfl]), List.append_nil]

theorem ordinary_iff {c : α} : ordinary nul delim c = true ↔ c ≠ nul ∧ delim c = false := by
  simp [ordinary]

/-! ## The end of the memory -/

theorem length_takeWhile_le {β : Type*} {p : β → Bool} {l : List β} {i : Nat} {c : β}
    (hget : l[i]? = some c) (hc : p c = false) : (l.takeWhile p).length ≤ i := by
  by_contra hlt
  obtain ⟨rest, hrest⟩ := List.takeWhile_prefix (l := l) p
  have happend : (l.takeWhile p ++ rest)[i]? = (l.takeWhile p)[i]? :=
    List.getElem?_append_left (by omega)
  rw [hrest] at happend
  have hsome : (l.takeWhile p)[i]? = some c := happend.symm.trans hget
  rw [List.mem_takeWhile_imp (List.mem_of_getElem? hsome)] at hc
  cases hc

section

variable {mem : List α} {s L : Nat} (hdelim : delim nul = false) (hnul : mem[L]? = some nul)
  (hs : s ≤ L)

include hdelim hnul hs

/-- A call stops at a final character at the latest. -/
theorem lastTouched_le : lastTouched nul delim mem s ≤ L := by
  have hblanks : ((mem.drop s).takeWhile delim).length ≤ L - s := by
    refine length_takeWhile_le (c := nul) ?_ hdelim
    rwa [List.getElem?_drop, Nat.add_sub_cancel' hs]
  have hword : ∀ start ≤ L,
      ((mem.drop start).takeWhile (ordinary nul delim)).length ≤ L - start := by
    intro start hstart
    refine length_takeWhile_le (c := nul) ?_ (by simp [ordinary])
    rwa [List.getElem?_drop, Nat.add_sub_cancel' hstart]
  have hle := hword (s + ((mem.drop s).takeWhile delim).length) (by omega)
  unfold lastTouched
  simp only
  omega

/-- It leaves the final character there, and the next call does not start behind it. -/
theorem strtok_keeps {p : Nat} {mem' : List α} {s' : Nat}
    (hcall : strtok nul delim mem s = (some p, mem', s')) : mem'[L]? = some nul ∧ s' ≤ L := by
  have hlast := lastTouched_le hdelim hnul hs
  unfold lastTouched at hlast
  unfold strtok at hcall
  simp only at hlast hcall
  split at hcall
  · cases hcall
  · split at hcall
    · cases hcall
      exact ⟨hnul, hlast⟩
    · rename_i hother
      cases hcall
      have hne : s + ((mem.drop s).takeWhile delim).length + ((mem.drop (s +
          ((mem.drop s).takeWhile delim).length)).takeWhile (ordinary nul delim)).length ≠ L := by
        intro heq
        rw [heq, List.getD_eq_getElem?_getD, hnul] at hother
        exact hother rfl
      refine ⟨?_, by omega⟩
      rwa [List.getElem?_set_ne hne]

/-- **No call reads or writes behind a final character of the memory.** -/
theorem touched_le (fuel : Nat) : ∀ q ∈ touched nul delim fuel mem s, q ≤ L := by
  induction fuel generalizing mem s with
  | zero => simp [touched]
  | succ fuel ih =>
    intro q hq
    rw [touched] at hq
    rcases List.mem_cons.1 hq with rfl | hq
    · exact lastTouched_le hdelim hnul hs
    · split at hq
      · cases hq
      · rename_i hcall
        obtain ⟨hnul', hs'⟩ := strtok_keeps hdelim hnul hs hcall
        exact ih hnul' hs' q hq

end

/-! ## What is spelled -/

theorem Spells.cons_delim {words : List (List α)} {str : List α} {c : α} (hc : delim c = true)
    (hs : Spells nul delim words str) : Spells nul delim words (c :: str) := by
  have hcons : ∀ {blanks : List α}, (∀ b ∈ blanks, delim b = true) → ∀ b ∈ c :: blanks, delim b = true :=
    fun hblanks => List.forall_mem_cons.2 ⟨hc, hblanks⟩
  cases hs with
  | blank hblanks => exact .blank (hcons hblanks)
  | last hblanks hword => exact .last (hcons hblanks) hword
  | cons hblanks hword hd hs => exact .cons (hcons hblanks) hword hd hs

theorem isWord_singleton {c : α} (hc : ordinary nul delim c = true) : IsWord nul delim [c] :=
  ⟨List.cons_ne_nil _ _, by simpa using hc⟩

theorem IsWord.cons {c : α} {word : List α} (hc : ordinary nul delim c = true)
    (hword : IsWord nul delim word) : IsWord nul delim (c :: word) :=
  ⟨List.cons_ne_nil _ _, List.forall_mem_cons.2 ⟨hc, hword.chars⟩⟩

/-- A character before a string belongs to its first word or is one itself. -/
theorem Spells.cons_ordinary {words : List (List α)} {str : List α} {c : α}
    (hc : ordinary nul delim c = true) (hs : Spells nul delim words str) :
    ∃ words, Spells nul delim words (c :: str) := by
  have hnone : ∀ b ∈ ([] : List α), delim b = true := by simp
  cases hs with
  | blank hblanks =>
    cases str with
    | nil => exact ⟨_, .last hnone (isWord_singleton hc)⟩
    | cons b blanks =>
      obtain ⟨hb, hblanks⟩ := List.forall_mem_cons.1 hblanks
      exact ⟨_, .cons hnone (isWord_singleton hc) hb (.blank hblanks)⟩
  | @last blanks word hblanks hword =>
    cases blanks with
    | nil => exact ⟨_, .last hnone (hword.cons hc)⟩
    | cons b blanks =>
      obtain ⟨hb, hblanks⟩ := List.forall_mem_cons.1 hblanks
      exact ⟨_, .cons hnone (isWord_singleton hc) hb (.last hblanks hword)⟩
  | @cons blanks word str d words hblanks hword hd hs =>
    cases blanks with
    | nil => exact ⟨_, .cons hnone (hword.cons hc) hd hs⟩
    | cons b blanks =>
      obtain ⟨hb, hblanks⟩ := List.forall_mem_cons.1 hblanks
      exact ⟨_, .cons hnone (isWord_singleton hc) hb (.cons hblanks hword hd hs)⟩

/-- Every string is spelled by some words. -/
theorem exists_spells {str : List α} (hstr : nul ∉ str) : ∃ words, Spells nul delim words str := by
  induction str with
  | nil => exact ⟨[], .blank (by simp)⟩
  | cons c str ih =>
    obtain ⟨hc, hstr⟩ := not_or.1 (mt List.mem_cons.2 hstr)
    obtain ⟨words, hs⟩ := ih hstr
    by_cases hdelim : delim c = true
    · exact ⟨words, hs.cons_delim hdelim⟩
    · exact hs.cons_ordinary (ordinary_iff.2 ⟨Ne.symm hc, by simpa using hdelim⟩)

theorem Spells.length_le {words : List (List α)} {str : List α} (hs : Spells nul delim words str) :
    words.length ≤ str.length := by
  induction hs with
  | blank => exact Nat.zero_le _
  | last _ hword =>
    have hpos := List.length_pos_iff.2 hword.ne_nil
    rw [List.length_append, List.length_singleton]
    omega
  | cons _ hword _ _ ih =>
    simp only [List.length_append, List.length_cons]
    omega

/-! ## One call -/

theorem ordinary_nul : ordinary nul delim nul = false := by simp [ordinary]

/-- Only delimiters are left. -/
theorem strtok_blank {before blanks after : List α} (hnul : delim nul = false)
    (hblanks : ∀ c ∈ blanks, delim c = true) (hafter : ∀ c ∈ after.head?, c = nul) :
    strtok nul delim (before ++ (blanks ++ after)) before.length =
      (none, before ++ (blanks ++ after), before.length + blanks.length) := by
  have hskip : (blanks ++ after).takeWhile delim = blanks :=
    takeWhile_append_stop hblanks fun c hc => by rw [hafter c hc, hnul]
  have hword : after.takeWhile (ordinary nul delim) = [] :=
    takeWhile_append_stop (l := []) (by simp) fun c hc => by rw [hafter c hc, ordinary_nul]
  have hdrop : (before ++ (blanks ++ after)).drop (before.length + blanks.length) = after := by
    rw [← List.append_assoc, ← List.length_append, List.drop_left]
  simp only [strtok, List.drop_left, hskip, hdrop, hword, if_true]

/-- A word is left, with `rest` after it. -/
theorem strtok_word {before blanks word rest : List α} (hblanks : ∀ c ∈ blanks, delim c = true)
    (hword : IsWord nul delim word) (hrest : ∀ c ∈ rest.head?, ordinary nul delim c = false) :
    strtok nul delim (before ++ (blanks ++ (word ++ rest))) before.length =
      if rest.getD 0 nul = nul then
        (some (before.length + blanks.length), before ++ (blanks ++ (word ++ rest)),
          before.length + blanks.length + word.length)
      else
        (some (before.length + blanks.length), before ++ (blanks ++ (word ++ rest.set 0 nul)),
          before.length + blanks.length + word.length + 1) := by
  have hskip : (blanks ++ (word ++ rest)).takeWhile delim = blanks := by
    refine takeWhile_append_stop hblanks fun c hc => ?_
    rw [List.head?_append_of_ne_nil _ hword.ne_nil] at hc
    exact (ordinary_iff.1 (hword.chars c (List.mem_of_head? hc))).2
  have htake : (word ++ rest).takeWhile (ordinary nul delim) = word :=
    takeWhile_append_stop hword.chars hrest
  have hdrop : (before ++ (blanks ++ (word ++ rest))).drop (before.length + blanks.length) =
      word ++ rest := by
    rw [← List.append_assoc, ← List.length_append, List.drop_left]
  have hmem : before ++ (blanks ++ (word ++ rest)) = (before ++ blanks ++ word) ++ rest := by simp
  have hlast : before.length + blanks.length + word.length = (before ++ blanks ++ word).length := by
    rw [List.length_append, List.length_append]
  have hget : (before ++ (blanks ++ (word ++ rest))).getD
      (before.length + blanks.length + word.length) nul = rest.getD 0 nul := by
    rw [hmem, hlast, List.getD_append_right _ _ _ _ (Nat.le_refl _), Nat.sub_self]
  have hset : (before ++ (blanks ++ (word ++ rest))).set
      (before.length + blanks.length + word.length) nul =
      before ++ (blanks ++ (word ++ rest.set 0 nul)) := by
    rw [hmem, hlast, List.set_append_right _ _ (Nat.le_refl _), Nat.sub_self]
    simp
  simp only [strtok, List.drop_left, hskip, hdrop, htake, if_neg hword.ne_nil, hget, hset]

/-! ## All calls -/

theorem cString_word {before blanks word rest : List α} (hword : IsWord nul delim word)
    (hrest : ∀ c ∈ rest.head?, c = nul) :
    cString nul (before ++ (blanks ++ (word ++ rest))) (before.length + blanks.length) = word := by
  rw [cString, ← List.append_assoc, ← List.length_append, List.drop_left]
  refine takeWhile_append_stop (fun c hc => ?_) fun c hc => by simp [hrest c hc]
  simpa using (ordinary_iff.1 (hword.chars c hc)).1

/-- **The pointers point to the words.**  The calls change the string only, and in the memory that the
last of them leaves, the pointers that were returned point to the words of the string. -/
theorem tokens_spells {words : List (List α)} {str : List α} (hnul : delim nul = false)
    (hs : Spells nul delim words str) :
    ∀ {before after : List α} {fuel : Nat}, (∀ c ∈ after.head?, c = nul) → words.length < fuel →
      ∃ arglist str', tokens nul delim fuel (before ++ (str ++ after)) before.length =
          (arglist, before ++ (str' ++ after)) ∧ str'.length = str.length ∧
        arglist.map (cString nul (before ++ (str' ++ after))) = words ∧
        ∀ p ∈ arglist, p < before.length + str.length := by
  induction hs with
  | @blank blanks hblanks =>
    intro before after fuel hafter hfuel
    cases fuel with
    | zero => exact absurd hfuel (Nat.not_lt_zero _)
    | succ fuel =>
      refine ⟨[], blanks, ?_, rfl, rfl, by simp⟩
      rw [tokens, strtok_blank hnul hblanks hafter]
  | @last blanks word hblanks hword =>
    intro before after fuel hafter hfuel
    have hfuel : 1 < fuel := hfuel
    obtain ⟨fuel, rfl⟩ : ∃ k, fuel = k + 2 := ⟨fuel - 2, by omega⟩
    have hget : after.getD 0 nul = nul := by
      cases after with
      | nil => rfl
      | cons c after => exact hafter c rfl
    have hstop : ∀ c ∈ after.head?, ordinary nul delim c = false := fun c hc => by
      rw [hafter c hc, ordinary_nul]
    have hpos := List.length_pos_iff.2 hword.ne_nil
    -- the second call finds the end of the string
    have hend : strtok nul delim (before ++ (blanks ++ (word ++ after)))
        (before.length + blanks.length + word.length) = (none, before ++ (blanks ++ (word ++ after)),
          before.length + blanks.length + word.length) := by
      have hblank := @strtok_blank _ _ nul delim (before ++ (blanks ++ word)) [] after hnul (by simp)
        hafter
      simpa [Nat.add_assoc] using hblank
    refine ⟨[before.length + blanks.length], blanks ++ word, ?_, rfl, ?_, ?_⟩
    · rw [List.append_assoc, tokens, strtok_word hblanks hword hstop, if_pos hget]
      simp only [tokens, hend]
    · rw [List.append_assoc, List.map_singleton, cString_word hword hafter]
    · simp only [List.mem_singleton, forall_eq, List.length_append]
      omega
  | @cons blanks word str d words hblanks hword hd hs ih =>
    intro before after fuel hafter hfuel
    have hfuel : words.length + 1 < fuel := hfuel
    obtain ⟨fuel, rfl⟩ : ∃ k, fuel = k + 1 := ⟨fuel - 1, by omega⟩
    have hdnul : d ≠ nul := by
      rintro rfl
      exact Bool.false_ne_true (hnul.symm.trans hd)
    have hstop : ∀ c ∈ (d :: (str ++ after)).head?, ordinary nul delim c = false := by
      rintro c ⟨⟩
      simp [ordinary, hd]
    have hpos := List.length_pos_iff.2 hword.ne_nil
    obtain ⟨arglist, str', htokens, hlen, hwords, hlt⟩ :=
      @ih (before ++ (blanks ++ (word ++ [nul]))) after fuel hafter (by omega)
    -- the memory before this call, after it and in the end
    have hmem : before ++ (blanks ++ (word ++ d :: str) ++ after) =
        before ++ (blanks ++ (word ++ d :: (str ++ after))) := by simp
    have hnext : before ++ (blanks ++ (word ++ nul :: (str ++ after))) =
        before ++ (blanks ++ (word ++ [nul])) ++ (str ++ after) := by simp
    have hend : before ++ (blanks ++ (word ++ nul :: (str' ++ after))) =
        before ++ (blanks ++ (word ++ [nul])) ++ (str' ++ after) := by simp
    have hend' : before ++ (blanks ++ (word ++ nul :: str') ++ after) =
        before ++ (blanks ++ (word ++ nul :: (str' ++ after))) := by simp
    have hlast : before.length + blanks.length + word.length + 1 =
        (before ++ (blanks ++ (word ++ [nul]))).length := by
      simp only [List.length_append, List.length_singleton]
      omega
    refine ⟨(before.length + blanks.length) :: arglist, blanks ++ (word ++ nul :: str'), ?_, ?_, ?_, ?_⟩
    · rw [hmem, tokens, strtok_word hblanks hword hstop, List.getD_cons_zero, if_neg hdnul,
        List.set_cons_zero, hnext, hlast, hend', hend]
      simp only [htokens]
    · simp [hlen]
    · rw [List.map_cons, hend', cString_word hword (by simp), hend, hwords]
    · rintro p (_ | ⟨_, hp⟩)
      · simp only [List.length_append, List.length_cons]
        omega
      · have hp := hlt p hp
        simp only [List.length_append, List.length_cons, List.length_nil] at hp ⊢
        omega

end Strtok
