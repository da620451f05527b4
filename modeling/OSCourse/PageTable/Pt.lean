import OSCourse.PageTable.Os

/-!
# The five-level page table (`pt.c`)

The macros keep their names.  `page_walk` goes through the levels `1 … 4`; it returns the table
of the last level, or the sentinel `NO_MAPPING` (here `none`) when an entry is missing and it
was asked not to allocate.
-/

set_option autoImplicit false

namespace OSCourse.PageTable

def OFFSET_BITS : Nat := 12
def VPN_SUB_BIT_SIZE : Nat := 9
def VPN_BIT_SIZE : Nat := 45
def TRIE_DEPTH : Nat := VPN_BIT_SIZE / VPN_SUB_BIT_SIZE
def VPN_BASE_MASK : BitVec 64 := 0x1FF#64

def PHYSICAL_ADDR (ppn offset : BitVec 64) : BitVec 64 := (ppn <<< OFFSET_BITS) ||| offset

def VPN_I (vpn : BitVec 64) (i : Nat) : BitVec 64 :=
  (vpn >>> (VPN_SUB_BIT_SIZE * (TRIE_DEPTH - i))) &&& VPN_BASE_MASK

def IS_VALID_PTE (pte : PtEntry) : Bool := pte &&& 1#64 ≠ 0#64
def SET_VALID (pte : PtEntry) : PtEntry := pte ||| 1#64
def GET_FRAME_N (pte : PtEntry) : BitVec 64 := pte >>> 12
def SET_FRAME_N (pte : PtEntry) (frame_n : BitVec 64) : PtEntry := pte ||| (frame_n <<< 12)

/-- The loop of `page_walk` over the remaining levels. -/
def pageWalkLoop (mmap : Nat → Bool) (vpn : BitVec 64) (allocate : Bool) :
    List Nat → Option VAddr → Memory → Except Stop (Option (Option VAddr) × Memory)
  | [], curr_pt, m => .ok (some curr_pt, m)
  | i :: levels, curr_pt, m => do
    let vpn_i := VPN_I vpn i
    let curr_entry ← m.readEntry curr_pt vpn_i
    if IS_VALID_PTE curr_entry then
      pageWalkLoop mmap vpn allocate levels (physToVirt m (PHYSICAL_ADDR (GET_FRAME_N curr_entry) 0#64)) m
    else if allocate then
      let (frame_n, m) ← allocPageFrame mmap m
      let curr_entry := SET_VALID (SET_FRAME_N curr_entry frame_n)
      let m ← m.writeEntry curr_pt vpn_i curr_entry
      pageWalkLoop mmap vpn allocate levels (physToVirt m (PHYSICAL_ADDR (GET_FRAME_N curr_entry) 0#64)) m
    else
      -- nothing to be done: the sentinel (pt_node_t*)NO_MAPPING
      return (none, m)

/-- The levels of the loop: `for (i = 1; i < TRIE_DEPTH; i++)`. -/
def walkLevels : List Nat := List.range' 1 (TRIE_DEPTH - 1)

/-- `page_walk`. -/
def pageWalk (mmap : Nat → Bool) (base_pt : Option VAddr) (vpn : BitVec 64) (allocate : Bool)
    (m : Memory) : Except Stop (Option (Option VAddr) × Memory) :=
  pageWalkLoop mmap vpn allocate walkLevels base_pt m

/-- `page_table_update`. -/
def pageTableUpdate (mmap : Nat → Bool) (pt vpn ppn : BitVec 64) (m : Memory) :
    Except Stop Memory := do
  let base_pt := physToVirt m (PHYSICAL_ADDR pt 0#64)
  let allocate := decide (ppn ≠ NO_MAPPING)
  let (target_pt, m) ← pageWalk mmap base_pt vpn allocate m
  match target_pt with
  | none => return m
  | some target_pt =>
    let m ← m.writeEntry target_pt (VPN_I vpn TRIE_DEPTH) 0#64
    if allocate then
      let target_entry ← m.readEntry target_pt (VPN_I vpn TRIE_DEPTH)
      m.writeEntry target_pt (VPN_I vpn TRIE_DEPTH) (SET_FRAME_N (SET_VALID target_entry) ppn)
    else return m

/-- `page_table_query`. -/
def pageTableQuery (mmap : Nat → Bool) (pt vpn : BitVec 64) (m : Memory) :
    Except Stop (BitVec 64) := do
  let base_pt := physToVirt m (PHYSICAL_ADDR pt 0#64)
  let (target_pt, m) ← pageWalk mmap base_pt vpn false m
  match target_pt with
  | none => return NO_MAPPING
  | some target_pt =>
    let target_entry ← m.readEntry target_pt (VPN_I vpn TRIE_DEPTH)
    if IS_VALID_PTE target_entry then return GET_FRAME_N target_entry
    else return NO_MAPPING

/-! ## Bit layout of the words -/

theorem VPN_I_toNat (vpn : BitVec 64) (i : Nat) :
    (VPN_I vpn i).toNat = vpn.toNat / 2 ^ (9 * (5 - i)) % 512 := by
  simp only [VPN_I, VPN_BASE_MASK, BitVec.toNat_and, BitVec.toNat_ushiftRight,
    Nat.shiftRight_eq_div_pow]
  exact Nat.and_two_pow_sub_one_eq_mod _ 9

theorem VPN_I_lt (vpn : BitVec 64) (i : Nat) : (VPN_I vpn i).toNat < PT_ENTRIES_NUM := by
  rw [VPN_I_toNat]; exact Nat.mod_lt _ (by decide)

/-- The word that names frame `n`: bit 0 set, bits 1 … 11 clear. -/
def pteOf (n : BitVec 64) : PtEntry := (n <<< 12) ||| 1#64

theorem new_entry_eq (n : BitVec 64) : SET_VALID (SET_FRAME_N 0#64 n) = pteOf n := by
  simp [SET_VALID, SET_FRAME_N, pteOf]

theorem leaf_entry_eq (n : BitVec 64) : SET_FRAME_N (SET_VALID 0#64) n = pteOf n := by
  simp [SET_VALID, SET_FRAME_N, pteOf, BitVec.or_comm]

theorem IS_VALID_PTE_zero : IS_VALID_PTE 0#64 = false := by decide

theorem IS_VALID_PTE_pteOf (n : BitVec 64) : IS_VALID_PTE (pteOf n) = true := by
  have h : (pteOf n &&& 1#64).getLsbD 0 = true := by simp [pteOf]
  simp only [IS_VALID_PTE, ne_eq, decide_eq_true_eq]
  intro h0
  rw [h0] at h; simp at h

theorem GET_FRAME_N_pteOf (n : BitVec 64) :
    GET_FRAME_N (pteOf n) = BitVec.ofNat 64 (n.toNat % 2 ^ 52) := by
  apply BitVec.eq_of_toNat_eq
  have h1 : (pteOf n).toNat = n.toNat * 2 ^ 12 % 2 ^ 64 + 1 := by
    have hd : n.toNat * 2 ^ 12 % 2 ^ 64 = 2 ^ 12 * (n.toNat % 2 ^ 52) := by omega
    rw [pteOf, BitVec.toNat_or, BitVec.toNat_shiftLeft, Nat.shiftLeft_eq, hd]
    exact (Nat.two_pow_add_eq_or_of_lt (by decide) _).symm
  simp only [GET_FRAME_N, BitVec.toNat_ushiftRight, Nat.shiftRight_eq_div_pow, h1, BitVec.toNat_ofNat]
  omega

theorem PHYSICAL_ADDR_page (n : BitVec 64) :
    (PHYSICAL_ADDR n 0#64 >>> 12).toNat = n.toNat % 2 ^ 52 := by
  simp only [PHYSICAL_ADDR, OFFSET_BITS, BitVec.or_zero, BitVec.toNat_ushiftRight,
    BitVec.toNat_shiftLeft, Nat.shiftLeft_eq, Nat.shiftRight_eq_div_pow]
  omega

theorem PHYSICAL_ADDR_off (n : BitVec 64) : PHYSICAL_ADDR n 0#64 &&& 0xfff#64 = 0#64 := by
  apply BitVec.eq_of_toNat_eq
  simp only [PHYSICAL_ADDR, OFFSET_BITS, BitVec.or_zero, BitVec.toNat_and,
    BitVec.toNat_shiftLeft, Nat.shiftLeft_eq]
  have h := Nat.and_two_pow_sub_one_eq_mod (n.toNat * 2 ^ 12 % 2 ^ 64) 12
  simp only [show (2 : Nat) ^ 12 - 1 = 4095 from rfl] at h
  simp only [BitVec.toNat_ofNat, show 4095 % 2 ^ 64 = 4095 from rfl, h]
  omega

/-- Two page numbers take the same five steps iff they agree modulo `2^45`. -/
theorem indices_eq_iff (v w : BitVec 64) :
    (∀ i, 1 ≤ i → i ≤ 5 → VPN_I v i = VPN_I w i) ↔ v.toNat % 2 ^ 45 = w.toNat % 2 ^ 45 := by
  constructor
  · intro h
    have digit : ∀ i, 1 ≤ i → i ≤ 5 →
        v.toNat / 2 ^ (9 * (5 - i)) % 512 = w.toNat / 2 ^ (9 * (5 - i)) % 512 := by
      intro i h1 h5
      rw [← VPN_I_toNat, ← VPN_I_toNat, h i h1 h5]
    have d1 := digit 1 (by omega) (by omega)
    have d2 := digit 2 (by omega) (by omega)
    have d3 := digit 3 (by omega) (by omega)
    have d4 := digit 4 (by omega) (by omega)
    have d5 := digit 5 (by omega) (by omega)
    simp only [Nat.reduceMul, Nat.reduceSub, Nat.reducePow] at d1 d2 d3 d4 d5 ⊢
    omega
  · intro h i h1 h5
    apply BitVec.eq_of_toNat_eq
    rw [VPN_I_toNat, VPN_I_toNat]
    obtain rfl | rfl | rfl | rfl | rfl : i = 1 ∨ i = 2 ∨ i = 3 ∨ i = 4 ∨ i = 5 := by omega
    all_goals simp only [Nat.reduceMul, Nat.reduceSub, Nat.reducePow] at h ⊢; omega

end OSCourse.PageTable
