import OSCourse.Myshell.Shell

/-!
# The words of a command

What the children of a line are, when every system call succeeds.  The four handlers work on the
vector that `main` passes: the words, and a NULL after them.

* `handleForeground`, `handleBackground`, `handlePipe`, `handleRedirect` — the calls of `execvp`
  that they lead to; `jobsOf` — those of `process_arglist`.
* `Typed` — the commands, and what the user means by them.
* `FirstSymbolAlone` — the first word that begins like a symbol is one.
* `jobsOf_eq_iff` — this is when the shell runs what was typed, but for one coincidence: a `&`
  at the end that an earlier word beginning with `&` is taken for.
-/

set_option autoImplicit false

namespace OSCourse.Myshell

/-- A vector of `char*`; `none` is NULL. -/
abbrev Vector := List (Option Word)

/-- `arglist` as `main` passes it. -/
def terminated (words : List Word) : Vector := words.map some ++ [none]

/-- The words that `execvp` takes from a vector: those before its first NULL. -/
def argv : Vector → List Word
  | some word :: rest => word :: argv rest
  | _ => []

/-- Where the output of a child goes. -/
inductive Stdout where
  | inherited
  | pipe
  /-- a file that was opened under this name; `open` fails without one -/
  | file (name : Option Word)
  deriving DecidableEq, Repr

/-- A child that calls `execvp`. -/
structure Job where
  argv : List Word
  /-- its input is the read end of the pipe -/
  readsPipe : Bool
  stdout : Stdout
  /-- the shell waits for it -/
  waited : Bool
  deriving DecidableEq, Repr

def handleForeground (arglist : Vector) : List Job := [⟨argv arglist, false, .inherited, true⟩]

/-- The vector is cut to `count` pointers, and the last of them overwritten. -/
def handleBackground (count : Nat) (arglist : Vector) : List Job :=
  [⟨argv ((arglist.take count).set (count - 1) none), false, .inherited, false⟩]

def handlePipe (pipe_loc : Nat) (arglist : Vector) : List Job :=
  [⟨argv (arglist.set pipe_loc none), false, .pipe, true⟩,
    ⟨argv (arglist.drop (pipe_loc + 1)), true, .inherited, true⟩]

def handleRedirect (redirect_loc : Nat) (arglist : Vector) : List Job :=
  [⟨argv (arglist.set redirect_loc none), false, .file (arglist[redirect_loc + 1]?.getD none), true⟩]

/-- `process_arglist`: the children of a line. -/
def jobsOf (words : List Word) : List Job :=
  let command := findCommandType words
  let arglist := terminated words
  match command.type with
  | .foreground => handleForeground arglist
  | .background => handleBackground words.length arglist
  | .pipe => handlePipe command.shell_symbol_loc.toNat arglist
  | .redirect => handleRedirect command.shell_symbol_loc.toNat arglist

/-! ## What was typed -/

/-- The words `|`, `>` and `&`. -/
def IsSymbol (word : Word) : Prop := word = [124] ∨ word = [62] ∨ word = [38]

/-- A command with at most one symbol, in its place, and what the user means by it. -/
inductive Typed : List Word → List Job → Prop
  | foreground {words : List Word} : words ≠ [] → (∀ word ∈ words, ¬IsSymbol word) →
      Typed words [⟨words, false, .inherited, true⟩]
  | pipe {before after : List Word} : before ≠ [] → after ≠ [] →
      (∀ word ∈ before ++ after, ¬IsSymbol word) →
      Typed (before ++ [124] :: after) [⟨before, false, .pipe, true⟩, ⟨after, true, .inherited, true⟩]
  | redirect {before : List Word} {name : Word} : before ≠ [] →
      (∀ word ∈ before ++ [name], ¬IsSymbol word) →
      Typed (before ++ [62] :: [name]) [⟨before, false, .file (some name), true⟩]
  | background {before : List Word} : before ≠ [] → (∀ word ∈ before, ¬IsSymbol word) →
      Typed (before ++ [[38]]) [⟨before, false, .inherited, false⟩]

/-- What `find_command_type` takes a word for. -/
def kindOf (word : Word) : Option CommandType :=
  if word.head? = some 124 then some .pipe
  else if word.head? = some 62 then some .redirect
  else if word.head? = some 38 then some .background
  else none

/-- The first word that begins like a symbol, if there is one, is a symbol, or it begins with `&`
and the last word is the symbol `&`. -/
def FirstSymbolAlone (words : List Word) : Prop :=
  ∀ word, words.find? (fun w => (kindOf w).isSome) = some word →
    IsSymbol word ∨ kindOf word = some .background ∧ words.getLast? = some [38]

/-! ## What the shell runs -/

theorem kindOf_symbol : kindOf [124] = some .pipe ∧ kindOf [62] = some .redirect ∧
    kindOf [38] = some .background := ⟨rfl, rfl, rfl⟩

theorem isSome_of_isSymbol {word : Word} (h : IsSymbol word) : (kindOf word).isSome = true := by
  rcases h with rfl | rfl | rfl <;> rfl

@[simp] theorem argv_words (words : List Word) (rest : Vector) :
    argv (words.map some ++ none :: rest) = words := by
  induction words with
  | nil => rfl
  | cons word words ih => simp only [List.map_cons, List.cons_append, argv, ih]

@[simp] theorem argv_terminated (words : List Word) : argv (terminated words) = words :=
  argv_words words []

/-- The vector of a line, cut at one of its words. -/
theorem terminated_split (pre post : List Word) (word : Word) :
    terminated (pre ++ word :: post) = pre.map some ++ some word :: terminated post := by
  simp [terminated]

theorem argv_set (pre post : List Word) (word : Word) :
    argv ((terminated (pre ++ word :: post)).set pre.length none) = pre := by
  have hset : (terminated (pre ++ word :: post)).set pre.length none =
      pre.map some ++ none :: terminated post := by
    rw [terminated_split, List.set_append_right _ _ (by rw [List.length_map])]
    simp
  rw [hset, argv_words]

theorem drop_terminated (pre post : List Word) (word : Word) :
    (terminated (pre ++ word :: post)).drop (pre.length + 1) = terminated post := by
  have hlen : (pre.map some ++ [some word]).length = pre.length + 1 := by simp
  rw [terminated_split, List.append_cons, ← hlen, List.drop_left]

theorem argv_cut {words : List Word} (hne : words ≠ []) :
    argv (((terminated words).take words.length).set (words.length - 1) none) =
      words.dropLast := by
  obtain ⟨pre, word, rfl⟩ : ∃ pre word, words = pre ++ [word] :=
    ⟨words.dropLast, words.getLast hne, (List.dropLast_append_getLast hne).symm⟩
  have htake : (terminated (pre ++ [word])).take (pre ++ [word]).length =
      pre.map some ++ [some word] := by
    rw [terminated, List.take_left' (by rw [List.length_map])]
    simp
  have hset : (pre.map some ++ [some word]).set ((pre ++ [word]).length - 1) none =
      pre.map some ++ [none] := by
    rw [List.length_append, List.length_singleton, Nat.add_sub_cancel,
      List.set_append_right _ _ (by rw [List.length_map])]
    simp
  rw [htake, hset, argv_words, List.dropLast_concat]

/-- One round of the scan. -/
theorem findCommandTypeFrom_cons (i : Nat) (word : Word) (words : List Word) :
    findCommandTypeFrom i (word :: words) =
      match kindOf word with
      | some type => ⟨type, i⟩
      | none => findCommandTypeFrom (i + 1) words := by
  rw [findCommandTypeFrom, kindOf]
  split
  · rfl
  · split
    · rfl
    · split <;> rfl

/-- The scan stops at the first word that begins like a symbol. -/
theorem findCommandTypeFrom_first (i : Nat) {pre : List Word} (post : List Word) {word : Word}
    {type : CommandType} (hpre : ∀ w ∈ pre, kindOf w = none) (hword : kindOf word = some type) :
    findCommandTypeFrom i (pre ++ word :: post) = ⟨type, (i + pre.length : Nat)⟩ := by
  induction pre generalizing i with
  | nil => rw [List.nil_append, findCommandTypeFrom_cons, hword]; rfl
  | cons w pre ih =>
    rw [List.cons_append, findCommandTypeFrom_cons, hpre w (List.mem_cons_self ..)]
    simp only
    rw [ih (i + 1) fun v hv => hpre v (List.mem_cons_of_mem w hv), List.length_cons]
    congr 2
    omega

theorem findCommandTypeFrom_none (i : Nat) {words : List Word}
    (hnone : ∀ w ∈ words, kindOf w = none) : findCommandTypeFrom i words = ⟨.foreground, -1⟩ := by
  induction words generalizing i with
  | nil => rfl
  | cons w words ih =>
    rw [findCommandTypeFrom_cons, hnone w (List.mem_cons_self ..)]
    exact ih (i + 1) fun v hv => hnone v (List.mem_cons_of_mem w hv)

theorem jobsOf_none {words : List Word} (hnone : ∀ w ∈ words, kindOf w = none) :
    jobsOf words = [⟨words, false, .inherited, true⟩] := by
  simp only [jobsOf, findCommandType, findCommandTypeFrom_none 0 hnone, handleForeground,
    argv_terminated]

section

variable {pre post : List Word} {word : Word}

theorem jobsOf_pipe (hpre : ∀ w ∈ pre, kindOf w = none) (hword : kindOf word = some .pipe) :
    jobsOf (pre ++ word :: post) =
      [⟨pre, false, .pipe, true⟩, ⟨post, true, .inherited, true⟩] := by
  simp only [jobsOf, findCommandType, findCommandTypeFrom_first 0 post hpre hword, handlePipe,
    Nat.zero_add, Int.toNat_natCast, argv_set, drop_terminated, argv_terminated]

theorem jobsOf_redirect (hpre : ∀ w ∈ pre, kindOf w = none)
    (hword : kindOf word = some .redirect) :
    jobsOf (pre ++ word :: post) = [⟨pre, false, .file post.head?, true⟩] := by
  have hname : ((terminated (pre ++ word :: post))[pre.length + 1]?).getD none = post.head? := by
    rw [← List.head?_drop, drop_terminated]
    cases post <;> rfl
  simp only [jobsOf, findCommandType, findCommandTypeFrom_first 0 post hpre hword, handleRedirect,
    Nat.zero_add, Int.toNat_natCast, argv_set, hname]

/-- The last word is cut off, whatever it is. -/
theorem jobsOf_background (hpre : ∀ w ∈ pre, kindOf w = none)
    (hword : kindOf word = some .background) :
    jobsOf (pre ++ word :: post) = [⟨(pre ++ word :: post).dropLast, false, .inherited, false⟩] := by
  have hne : pre ++ word :: post ≠ [] := by simp
  simp only [jobsOf, findCommandType, findCommandTypeFrom_first 0 post hpre hword,
    handleBackground, argv_cut hne]

end

/-! ## The result -/

/-- A command whose first word that begins like a symbol is one has its only symbol there. -/
theorem split_unique {pre post before after : List Word} {word symbol : Word}
    (heq : before ++ symbol :: after = pre ++ word :: post) (hpre : ∀ w ∈ pre, kindOf w = none)
    (hsymbol : IsSymbol symbol) (hword : IsSymbol word)
    (hrest : ∀ w ∈ before ++ after, ¬IsSymbol w) : pre = before ∧ word = symbol ∧ post = after := by
  rcases List.append_eq_append_iff.1 heq with ⟨gap, hpre', hrest'⟩ | ⟨gap, hbefore, hrest'⟩
  · cases gap with
    | nil =>
      rw [List.append_nil] at hpre'
      rw [List.nil_append] at hrest'
      cases hrest'
      exact ⟨hpre', rfl, rfl⟩
    | cons v gap =>
      -- the symbol would be among the words before
      cases hrest'
      have hnone := hpre symbol (by rw [hpre']; simp)
      have hsome := isSome_of_isSymbol hsymbol
      rw [hnone] at hsome
      cases hsome
  · cases gap with
    | nil =>
      rw [List.append_nil] at hbefore
      rw [List.nil_append] at hrest'
      cases hrest'
      exact ⟨hbefore.symm, rfl, rfl⟩
    | cons v gap =>
      cases hrest'
      exact absurd hword (hrest word (by rw [hbefore]; simp))

/-- The first word that begins like a symbol. -/
theorem find_first {words : List Word} {word : Word}
    (hfind : words.find? (fun w => (kindOf w).isSome) = some word) :
    ∃ type pre post, kindOf word = some type ∧ words = pre ++ word :: post ∧
      ∀ w ∈ pre, kindOf w = none := by
  obtain ⟨hsome, pre, post, heq, hpre⟩ := List.find?_eq_some_iff_append.1 hfind
  obtain ⟨type, htype⟩ := Option.isSome_iff_exists.1 hsome
  refine ⟨type, pre, post, htype, heq, fun w hw => ?_⟩
  simpa using hpre w hw

theorem kindOf_ne_foreground {word : Word} : kindOf word ≠ some .foreground := by
  unfold kindOf
  split
  · simp
  · split
    · simp
    · split <;> simp

/-- A first word that is a symbol is the symbol of the command, and is handled as such. -/
theorem jobsOf_of_isSymbol {words pre post : List Word} {word : Word} {jobs : List Job}
    (htyped : Typed words jobs) (heq : words = pre ++ word :: post)
    (hpre : ∀ w ∈ pre, kindOf w = none) (hword : IsSymbol word) : jobsOf words = jobs := by
  cases htyped with
  | foreground _ hnone => exact absurd hword (hnone word (by rw [heq]; simp))
  | pipe _ _ hrest =>
    obtain ⟨rfl, rfl, rfl⟩ := split_unique heq hpre (.inl rfl) hword hrest
    exact jobsOf_pipe hpre rfl
  | redirect _ hrest =>
    obtain ⟨rfl, rfl, rfl⟩ := split_unique heq hpre (.inr (.inl rfl)) hword hrest
    exact jobsOf_redirect hpre rfl
  | background _ hrest =>
    obtain ⟨rfl, rfl, rfl⟩ :=
      split_unique heq hpre (.inr (.inr rfl)) hword (by rwa [List.append_nil])
    rw [jobsOf_background hpre rfl, List.dropLast_concat]

/-- What was typed ends with a `&` only in a background command. -/
theorem background_of_getLast {words : List Word} {jobs : List Job} (htyped : Typed words jobs)
    (hlast : words.getLast? = some [38]) :
    ∃ before, words = before ++ [[38]] ∧ jobs = [⟨before, false, .inherited, false⟩] := by
  have hsymbol : IsSymbol [38] := .inr (.inr rfl)
  cases htyped with
  | foreground _ hnone => exact absurd hsymbol (hnone _ (List.mem_of_getLast? hlast))
  | @pipe before after _ hafter hrest =>
    rw [List.append_cons, List.getLast?_append_of_ne_nil _ hafter] at hlast
    exact absurd hsymbol (hrest _ (List.mem_append_right before (List.mem_of_getLast? hlast)))
  | @redirect before name _ hrest =>
    rw [List.append_cons, List.getLast?_concat] at hlast
    cases hlast
    exact absurd hsymbol (hrest _ (by simp))
  | @background before => exact ⟨before, rfl, rfl⟩

/-- A word before the symbol that only begins like one is taken for the symbol. -/
theorem jobsOf_eq_iff_of_not_isSymbol {words pre post : List Word} {word : Word} {jobs : List Job}
    (htyped : Typed words jobs) (heq : words = pre ++ word :: post)
    (hpre : ∀ w ∈ pre, kindOf w = none) (hsome : (kindOf word).isSome = true)
    (hword : ¬IsSymbol word) :
    jobsOf words = jobs ↔ kindOf word = some .background ∧ words.getLast? = some [38] := by
  -- the cut is not where the symbol is
  have hcut : ∀ {before after symbol}, before ++ symbol :: after = pre ++ word :: post →
      IsSymbol symbol → pre ≠ before := by
    intro before after symbol heq hsymbol hpre
    subst hpre
    rw [List.append_cancel_left_eq, List.cons.injEq] at heq
    exact hword (heq.1 ▸ hsymbol)
  constructor
  · intro hjobs
    obtain ⟨type, htype⟩ := Option.isSome_iff_exists.1 hsome
    cases type with
    | foreground => exact absurd htype kindOf_ne_foreground
    | pipe =>
      rw [heq, jobsOf_pipe hpre htype] at hjobs
      cases htyped with
      | foreground => cases hjobs
      | pipe => cases hjobs; exact absurd rfl (hcut heq (.inl rfl))
      | redirect => cases hjobs
      | background => cases hjobs
    | redirect =>
      rw [heq, jobsOf_redirect hpre htype] at hjobs
      cases htyped with
      | foreground => cases hjobs
      | pipe => cases hjobs
      | redirect =>
        have hargv : pre = _ := congrArg Job.argv (List.cons.inj hjobs).1
        exact absurd hargv (hcut heq (.inr (.inl rfl)))
      | background => cases hjobs
    | background =>
      refine ⟨htype, ?_⟩
      rw [heq, jobsOf_background hpre htype] at hjobs
      cases htyped with
      | foreground => cases hjobs
      | pipe => cases hjobs
      | redirect => cases hjobs
      | background => exact List.getLast?_concat
  · rintro ⟨htype, hlast⟩
    obtain ⟨before, hwords, rfl⟩ := background_of_getLast htyped hlast
    rw [heq, jobsOf_background hpre htype, ← heq, hwords, List.dropLast_concat]

theorem firstSymbolAlone_iff {words : List Word} {word : Word}
    (hfind : words.find? (fun w => (kindOf w).isSome) = some word) :
    FirstSymbolAlone words ↔
      IsSymbol word ∨ kindOf word = some .background ∧ words.getLast? = some [38] := by
  constructor
  · intro h
    exact h word hfind
  · intro h v hv
    cases hfind.symm.trans hv
    exact h

/-- **The shell runs what was typed exactly when the first word that begins like a symbol is one**,
or is taken for the `&` at the end. -/
theorem jobsOf_eq_iff {words : List Word} {jobs : List Job} (htyped : Typed words jobs) :
    jobsOf words = jobs ↔ FirstSymbolAlone words := by
  cases hfind : words.find? (fun w => (kindOf w).isSome) with
  | none =>
    have hnone : ∀ w ∈ words, kindOf w = none := by simpa using hfind
    refine iff_of_true ?_ fun word hword => by rw [hfind] at hword; cases hword
    rw [jobsOf_none hnone]
    cases htyped with
    | foreground => rfl
    | pipe => exact absurd (hnone [124] (by simp)) (by simp [kindOf_symbol])
    | redirect => exact absurd (hnone [62] (by simp)) (by simp [kindOf_symbol])
    | background => exact absurd (hnone [38] (by simp)) (by simp [kindOf_symbol])
  | some word =>
    obtain ⟨type, pre, post, htype, heq, hpre⟩ := find_first hfind
    rw [firstSymbolAlone_iff hfind]
    by_cases hword : IsSymbol word
    · exact iff_of_true (jobsOf_of_isSymbol htyped heq hpre hword) (.inl hword)
    · rw [or_iff_right hword]
      exact jobsOf_eq_iff_of_not_isSymbol htyped heq hpre (by rw [htype]; rfl) hword

/-- `a | b`. -/
theorem jobsOf_eq_pipe :
    jobsOf [[97], [124], [98]] = [⟨[[97]], false, .pipe, true⟩, ⟨[[98]], true, .inherited, true⟩] :=
  (jobsOf_eq_iff (@Typed.pipe [[97]] [[98]] (by simp) (by simp)
    (by simp [IsSymbol]))).2 fun word hword => by cases hword; exact .inl (.inl rfl)

/-- `a |x`: the argument `|x` is taken for the symbol. -/
theorem argument_taken_for_symbol :
    Typed [[97], [124, 120]] [⟨[[97], [124, 120]], false, .inherited, true⟩] ∧
      jobsOf [[97], [124, 120]] ≠ [⟨[[97], [124, 120]], false, .inherited, true⟩] :=
  ⟨.foreground (by simp) (by simp [IsSymbol]), by decide⟩

end OSCourse.Myshell
