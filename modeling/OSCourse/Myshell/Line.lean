import OSCourse.Lib.Strtok
import OSCourse.Myshell.Words

/-!
# From the line to the children (`shell.c`)

`main` cuts the line that `getline` has read with `strtok`, in the buffer of the line, and passes the
pointers on.

* `splitLine` — the pointers and the buffer after the loop; `wordsOf` — the words that
  `process_arglist` finds there; `splitTouched` — how far `strtok` goes in the buffer.
* `line_is_read` — **these are the words of the line, and a plain command runs as it was typed**,
  whatever blanks stand between its words.
-/

set_option autoImplicit false

namespace OSCourse.Myshell

open Strtok

/-- `" \t\n"`. -/
def isBlank (c : UInt8) : Bool := c == 32 || c == 9 || c == 10

/-- `getline` puts a zero byte after the line; the loop calls `strtok` until it returns NULL, which
is at most once for each byte and once more. -/
def splitLine (line : List UInt8) : List Nat × List UInt8 :=
  tokens 0 isBlank (line.length + 1) (line ++ [0]) 0

/-- The last position in the buffer that each of these calls reads or writes. -/
def splitTouched (line : List UInt8) : List Nat :=
  touched 0 isBlank (line.length + 1) (line ++ [0]) 0

/-- What the pointers of `arglist` point to after the loop. -/
def wordsOf (line : List UInt8) : List Word :=
  (splitLine line).1.map (cString 0 (splitLine line).2)

/-- The line as a C string: up to a zero byte that was typed. -/
def typedPart (line : List UInt8) : List UInt8 := line.takeWhile (· ≠ 0)

variable {line : List UInt8} {words : List Word} {jobs : List Job}

theorem split_line (line : List UInt8) :
    ∃ rest, line ++ [0] = typedPart line ++ rest ∧ ∀ c ∈ rest.head?, c = 0 := by
  refine ⟨line.dropWhile (· ≠ 0) ++ [0], ?_, fun c hc => ?_⟩
  · rw [typedPart, ← List.append_assoc, List.takeWhile_append_dropWhile]
  · cases hrest : line.dropWhile (· ≠ 0) with
    | nil =>
      rw [hrest] at hc
      cases hc
      rfl
    | cons d rest =>
      rw [hrest] at hc
      cases hc
      have hstop := List.head?_dropWhile_not (fun c : UInt8 => decide (c ≠ 0)) line
      rw [hrest] at hstop
      simpa using hstop

/-- What the loop leaves, when the line consists of `words`. -/
theorem splitLine_of_spells (hs : Spells 0 isBlank words (typedPart line)) :
    wordsOf line = words ∧ (splitLine line).2.length = line.length + 1 ∧
      ∀ p ∈ (splitLine line).1, p < line.length := by
  obtain ⟨rest, hline, hrest⟩ := split_line line
  have hlen : (typedPart line).length ≤ line.length := (List.takeWhile_sublist _).length_le
  obtain ⟨arglist, str', htokens, hstr', hwords, hlt⟩ :=
    @tokens_spells _ _ _ _ _ _ rfl hs [] rest (line.length + 1) hrest
      (Nat.lt_succ_of_le (hs.length_le.trans hlen))
  have hsplit : splitLine line = (arglist, str' ++ rest) := by
    rw [splitLine, hline]
    exact htokens
  have htotal := congrArg List.length hline
  simp only [List.length_append, List.length_singleton] at htotal
  rw [wordsOf, hsplit]
  refine ⟨hwords, ?_, fun p hp => ?_⟩
  · simp only [List.length_append]
    omega
  · have hp := hlt p hp
    simp only [List.length_nil] at hp
    omega

/-- `strtok` stays in the buffer, which ends with the zero byte of `getline`. -/
theorem splitTouched_le (line : List UInt8) : ∀ q ∈ splitTouched line, q ≤ line.length :=
  touched_le rfl (by simp) (Nat.zero_le _) _

theorem exists_words (line : List UInt8) : ∃ words, Spells 0 isBlank words (typedPart line) :=
  exists_spells fun hzero => by simpa using List.mem_takeWhile_imp hzero

/-- A command in which only symbols begin like symbols. -/
def Plain (words : List Word) : Prop := ∀ word ∈ words, (kindOf word).isSome = true → IsSymbol word

theorem jobsOf_of_plain (htyped : Typed words jobs) (hplain : Plain words) : jobsOf words = jobs := by
  cases hfind : words.find? fun w => (kindOf w).isSome with
  | some word =>
    obtain ⟨type, pre, post, htype, heq, hpre⟩ := find_first hfind
    refine jobsOf_of_isSymbol htyped heq hpre (hplain word ?_ (by rw [htype]; rfl))
    rw [heq]
    simp
  | none =>
    have hnone : ∀ w ∈ words, kindOf w = none := by simpa using hfind
    -- a command with a symbol in it has a word that begins like one
    have habsent : ∀ symbol, IsSymbol symbol → symbol ∉ words := by
      intro symbol hsymbol hmem
      have hsome := isSome_of_isSymbol hsymbol
      rw [hnone symbol hmem] at hsome
      cases hsome
    cases htyped with
    | foreground => exact jobsOf_none hnone
    | pipe => exact absurd (by simp) (habsent [124] (.inl rfl))
    | redirect => exact absurd (by simp) (habsent [62] (.inr (.inl rfl)))
    | background => exact absurd (by simp) (habsent [38] (.inr (.inr rfl)))

/-- **The shell reads a line as it was typed.**  For every line: the words that `process_arglist`
finds through its pointers are those of which the line consists, with blanks around them, although
`strtok` has written into the buffer; no pointer leaves the buffer and no call reads or writes behind
its end; and a plain command runs the children that the user means, however many blanks it was typed with. -/
theorem line_is_read (line : List UInt8) :
    (∀ words, wordsOf line = words ↔ Spells 0 isBlank words (typedPart line)) ∧
      ((splitLine line).2.length = line.length + 1 ∧ (∀ p ∈ (splitLine line).1, p < line.length) ∧
        ∀ q ∈ splitTouched line, q ≤ line.length) ∧
      ∀ words jobs, Spells 0 isBlank words (typedPart line) → Typed words jobs → Plain words →
        jobsOf (wordsOf line) = jobs := by
  obtain ⟨spelled, hspelled⟩ := exists_words line
  obtain ⟨hwords, hbuffer⟩ := splitLine_of_spells hspelled
  refine ⟨fun words => ⟨?_, fun hs => (splitLine_of_spells hs).1⟩,
    ⟨hbuffer.1, hbuffer.2, splitTouched_le line⟩, fun words jobs hs htyped hplain => ?_⟩
  · rintro rfl
    rwa [hwords]
  · rw [(splitLine_of_spells hs).1]
    exact jobsOf_of_plain htyped hplain

/-- A line with blanks of all kinds. -/
example : wordsOf [32, 97, 9, 9, 38, 10] = [[97], [38]] := by decide

end OSCourse.Myshell
