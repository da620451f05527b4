import Mathlib

/-!
# Decimal numbers as C strings

* `atoi` — as the C library has it, for numbers that an `int` can hold.
* `decimal` — what `sprintf` prints for `%d` and a number that is not negative.
* `atoi_decimal` — `atoi` reads what `sprintf` has printed.
-/

set_option autoImplicit false

namespace Decimal

/-- `isspace`. -/
def isSpace (c : UInt8) : Bool := c == 32 || (9 ≤ c && c ≤ 13)

/-- `isdigit`. -/
def isDigit (c : UInt8) : Bool := 48 ≤ c && c ≤ 57

/-- The value of decimal digits. -/
def digitsValue (digits : List UInt8) : Nat := digits.foldl (fun n c => 10 * n + (c.toNat - 48)) 0

/-- `atoi`, for numbers that an `int` can hold. -/
def atoi (str : List UInt8) : Int :=
  match str.dropWhile isSpace with
  | 45 :: rest => -(digitsValue (rest.takeWhile isDigit) : Int)
  | 43 :: rest => digitsValue (rest.takeWhile isDigit)
  | rest => digitsValue (rest.takeWhile isDigit)

/-- The character of a digit. -/
def digitChar (d : Nat) : UInt8 := UInt8.ofNat (48 + d)

/-- `%d` of `sprintf`. -/
def decimal (n : Nat) : List UInt8 :=
  if n = 0 then [48] else (Nat.digits 10 n).reverse.map digitChar

/-! ## The round trip -/

theorem digitChar_toNat {d : Nat} (hd : d < 10) : (digitChar d).toNat = 48 + d := by
  rw [digitChar, UInt8.toNat_ofNat']
  omega

theorem isDigit_iff {c : UInt8} : isDigit c = true ↔ 48 ≤ c.toNat ∧ c.toNat ≤ 57 := by
  simp [isDigit, UInt8.le_iff_toNat_le]

theorem isDigit_digitChar {d : Nat} (hd : d < 10) : isDigit (digitChar d) = true := by
  rw [isDigit_iff, digitChar_toNat hd]
  omega

theorem isDigit_of_mem_decimal {n : Nat} {c : UInt8} (hc : c ∈ decimal n) : isDigit c = true := by
  rw [decimal] at hc
  split at hc
  · cases List.mem_singleton.1 hc
    rfl
  · obtain ⟨d, hd, rfl⟩ := List.mem_map.1 hc
    exact isDigit_digitChar (Nat.digits_lt_base (by decide) (List.mem_reverse.1 hd))

theorem decimal_ne_nil (n : Nat) : decimal n ≠ [] := by
  rw [decimal]
  split
  · simp
  · simpa [Nat.digits_eq_nil_iff_eq_zero]

/-- The digits, most significant first, are read like `Nat.ofDigits` reads them from the end. -/
theorem digitsValue_reverse {digits : List Nat} (hd : ∀ d ∈ digits, d < 10) :
    digitsValue (digits.reverse.map digitChar) = Nat.ofDigits 10 digits := by
  induction digits with
  | nil => rfl
  | cons d digits ih =>
    have hone : d < 10 := hd d (List.mem_cons_self ..)
    have ih := ih fun e he => hd e (List.mem_cons_of_mem d he)
    rw [digitsValue] at ih ⊢
    rw [List.reverse_cons, List.map_append, List.foldl_append, ih, Nat.ofDigits_cons]
    simp only [List.map_cons, List.map_nil, List.foldl_cons, List.foldl_nil, digitChar_toNat hone]
    rw [Nat.add_sub_cancel_left, Nat.add_comm]

theorem digitsValue_decimal (n : Nat) : digitsValue (decimal n) = n := by
  rw [decimal]
  split
  · rename_i h
    rw [h]
    rfl
  · rw [digitsValue_reverse fun d hd => Nat.digits_lt_base (by decide) hd, Nat.ofDigits_digits]

/-- **`atoi` reads a number that `sprintf` has printed.** -/
theorem atoi_decimal (n : Nat) : atoi (decimal n) = n := by
  have htake : (decimal n).takeWhile isDigit = decimal n :=
    List.takeWhile_eq_self_iff.2 fun c hc => isDigit_of_mem_decimal hc
  obtain ⟨c, rest, hcons⟩ := List.exists_cons_of_ne_nil (decimal_ne_nil n)
  have hdigit : isDigit c = true := isDigit_of_mem_decimal (hcons ▸ List.mem_cons_self ..)
  have hrange := isDigit_iff.1 hdigit
  have hspace : isSpace c = false := by
    rw [isSpace, Bool.or_eq_false_iff, Bool.and_eq_false_iff, beq_eq_false_iff_ne]
    refine ⟨fun h => ?_, .inr ?_⟩
    · rw [h] at hrange
      exact absurd hrange.1 (by decide)
    · rw [decide_eq_false_iff_not, UInt8.le_iff_toNat_le]
      have hthirteen : (13 : UInt8).toNat = 13 := rfl
      omega
  have hdrop : (decimal n).dropWhile isSpace = decimal n := by
    rw [hcons, List.dropWhile_cons, if_neg (by rw [hspace]; exact Bool.false_ne_true)]
  have hminus : c ≠ 45 := by
    rintro rfl
    exact absurd hrange.1 (by decide)
  have hplus : c ≠ 43 := by
    rintro rfl
    exact absurd hrange.1 (by decide)
  rw [atoi, hdrop]
  split
  · rename_i rest' heq
    rw [hcons] at heq
    exact absurd (List.cons.inj heq).1 hminus
  · rename_i rest' heq
    rw [hcons] at heq
    exact absurd (List.cons.inj heq).1 hplus
  · rw [htake, digitsValue_decimal]

end Decimal
