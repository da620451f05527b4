import Mathlib

/-!
# Numbers as bytes, and buffers filled piece by piece

* `littleBytes`, `bigBytes` — the `n` low bytes of a number in either order; `ofLittle` and
  `ofBig` read them back.
* `Endian` — a machine stores its numbers in one of the two orders.  `Endian.toNetwork` is the
  number whose stored bytes are the big-endian bytes of the given one: `Endian.bytes_toNetwork`
  for a sender, `Endian.toNetwork_ofBytes` for a receiver.
* `overwrite` — bytes put into a buffer at an offset; `take_overwrite` says that a buffer filled
  from the left holds the concatenation of the pieces.
-/

set_option autoImplicit false

namespace Bytes

/-! ## The two orders -/

/-- The `n` low bytes of `x`, least significant first. -/
def littleBytes (n x : Nat) : List UInt8 := (List.range n).map fun i => UInt8.ofNat (x / 256 ^ i)

/-- The number with the given bytes, least significant first. -/
def ofLittle (bs : List UInt8) : Nat := bs.foldr (fun b acc => b.toNat + 256 * acc) 0

/-- The `n` low bytes of `x`, most significant first. -/
def bigBytes (n x : Nat) : List UInt8 := (littleBytes n x).reverse

/-- The number with the given bytes, most significant first. -/
def ofBig (bs : List UInt8) : Nat := ofLittle bs.reverse

@[simp] theorem littleBytes_length (n x : Nat) : (littleBytes n x).length = n := by
  simp [littleBytes]

@[simp] theorem bigBytes_length (n x : Nat) : (bigBytes n x).length = n := by simp [bigBytes]

theorem littleBytes_succ (n x : Nat) :
    littleBytes (n + 1) x = UInt8.ofNat x :: littleBytes n (x / 256) := by
  simp only [littleBytes, List.range_succ_eq_map, List.map_cons, List.map_map, pow_zero,
    Nat.div_one, List.cons.injEq, true_and]
  refine List.map_congr_left fun i _ => ?_
  simp only [Function.comp_apply, Nat.div_div_eq_div_mul]
  rw [pow_succ']

theorem ofLittle_littleBytes (n x : Nat) : ofLittle (littleBytes n x) = x % 256 ^ n := by
  induction n generalizing x with
  | zero => simp [ofLittle, littleBytes, Nat.mod_one]
  | succ n ih =>
    have hstep := ih (x / 256)
    rw [littleBytes_succ, ofLittle, List.foldr_cons]
    rw [ofLittle] at hstep
    rw [hstep, pow_succ', Nat.mod_mul, UInt8.toNat_ofNat']

theorem littleBytes_ofLittle (bs : List UInt8) : littleBytes bs.length (ofLittle bs) = bs := by
  induction bs with
  | nil => rfl
  | cons b bs ih =>
    have hb : b.toNat < 256 := b.toNat_lt
    have hcons : ofLittle (b :: bs) = b.toNat + 256 * ofLittle bs := rfl
    rw [List.length_cons, littleBytes_succ, hcons, Nat.add_mul_div_left _ _ (by omega),
      Nat.div_eq_of_lt hb, Nat.zero_add, ih]
    congr 1
    apply UInt8.toNat.inj
    rw [UInt8.toNat_ofNat']
    omega

theorem ofLittle_lt (bs : List UInt8) : ofLittle bs < 256 ^ bs.length := by
  induction bs with
  | nil => simp [ofLittle]
  | cons b bs ih =>
    have hb : b.toNat < 256 := b.toNat_lt
    have hcons : ofLittle (b :: bs) = b.toNat + 256 * ofLittle bs := rfl
    rw [hcons, List.length_cons, pow_succ']
    omega

theorem ofBig_bigBytes (n x : Nat) : ofBig (bigBytes n x) = x % 256 ^ n := by
  rw [ofBig, bigBytes, List.reverse_reverse, ofLittle_littleBytes]

/-! ## Machines -/

inductive Endian where
  | little
  | big
  deriving DecidableEq, Repr

/-- The bytes by which a machine stores `x`. -/
def Endian.bytes : Endian → Nat → Nat → List UInt8
  | .little => littleBytes
  | .big => bigBytes

/-- The number that a machine reads out of stored bytes. -/
def Endian.ofBytes : Endian → List UInt8 → Nat
  | .little => ofLittle
  | .big => ofBig

/-- Swap the bytes where the machine's order is not the network's. -/
def Endian.toNetwork : Endian → Nat → Nat → Nat
  | .little, n, x => ofLittle (bigBytes n x)
  | .big, _, x => x

@[simp] theorem Endian.bytes_length (e : Endian) (n x : Nat) : (e.bytes n x).length = n := by
  cases e <;> simp [Endian.bytes]

theorem Endian.toNetwork_lt (e : Endian) {n x : Nat} (h : x < 256 ^ n) :
    e.toNetwork n x < 256 ^ n := by
  cases e with
  | little => simpa [Endian.toNetwork] using ofLittle_lt (bigBytes n x)
  | big => exact h

/-- A converted number is stored in network order. -/
theorem Endian.bytes_toNetwork (e : Endian) (n x : Nat) :
    e.bytes n (e.toNetwork n x) = bigBytes n x := by
  cases e with
  | little =>
    have h := littleBytes_ofLittle (bigBytes n x)
    rwa [bigBytes_length] at h
  | big => rfl

/-- Bytes that came in network order are read right after conversion. -/
theorem Endian.toNetwork_ofBytes (e : Endian) (bs : List UInt8) :
    e.toNetwork bs.length (e.ofBytes bs) = ofBig bs := by
  cases e with
  | little =>
    simp only [Endian.toNetwork, Endian.ofBytes, bigBytes, littleBytes_ofLittle]
    rfl
  | big => rfl

/-! ## Buffers -/

/-- `bs` written into `mem` from `off` on. -/
def overwrite (mem : List UInt8) (off : Nat) (bs : List UInt8) : List UInt8 :=
  mem.take off ++ bs ++ mem.drop (off + bs.length)

theorem overwrite_length {mem : List UInt8} {off : Nat} {bs : List UInt8}
    (h : off + bs.length ≤ mem.length) : (overwrite mem off bs).length = mem.length := by
  simp only [overwrite, List.length_append, List.length_take, List.length_drop]
  omega

theorem take_overwrite {mem : List UInt8} {off : Nat} {bs : List UInt8} (h : off ≤ mem.length) :
    (overwrite mem off bs).take (off + bs.length) = mem.take off ++ bs := by
  have hlen : (mem.take off ++ bs).length = off + bs.length := by
    rw [List.length_append, List.length_take, Nat.min_eq_left h]
  rw [overwrite, ← hlen, List.take_left']
  rfl

end Bytes
