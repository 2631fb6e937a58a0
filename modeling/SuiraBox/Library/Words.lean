/-
# Fixed-width words: masks, set bits, the lowest set bit

What code that keeps flags and bitmaps in machine words relies on.  A word is a
`BitVec w`; its set bits are the finite set `bits v`, and the two classical
loops over them, clearing the lowest bit with `v & (v - 1)` and shifting right
until bit `0` is set, are described by what they do to that set.
-/

import Mathlib.Data.BitVec
import Mathlib.Data.Finset.Card
import Mathlib.Data.Nat.Bitwise
import Mathlib.Algebra.Order.Group.Nat
import Mathlib.Order.CompletePartialOrder
import Mathlib.Tactic.Ring

namespace Words

variable {w : ℕ}

/-- The positions of the set bits of a word. -/
def bits (v : BitVec w) : Finset ℕ := (Finset.range w).filter fun i => v.getLsbD i = true

variable {n k : ℕ}

@[simp] theorem mem_bits {v : BitVec w} {i : ℕ} : i ∈ bits v ↔ v.getLsbD i = true := by
  rw [bits, Finset.mem_filter, Finset.mem_range]
  exact ⟨And.right, fun h => ⟨BitVec.lt_of_getLsbD h, h⟩⟩

theorem bits_zero : bits (0 : BitVec w) = ∅ := by
  ext i; simp

theorem card_bits_le (v : BitVec w) : (bits v).card ≤ w :=
  (Finset.card_filter_le _ _).trans (Finset.card_range w).le

/-- A nonzero word has a lowest set bit. -/
theorem exists_lowest {v : BitVec w} (hv : v ≠ 0) :
    ∃ k, v.getLsbD k = true ∧ ∀ i < k, v.getLsbD i = false := by
  have hex : ∃ k, v.getLsbD k = true := by
    by_contra hno
    push Not at hno
    refine hv (BitVec.eq_of_getLsbD_eq fun i _ => ?_)
    simpa using hno i
  classical
  exact ⟨Nat.find hex, Nat.find_spec hex, fun i hi => by simpa using Nat.find_min hex hi⟩

/-- A number whose lowest set bit is `k` is an odd multiple of `2 ^ k`. -/
theorem eq_two_pow_mul_odd (hk : n.testBit k = true)
    (hlow : ∀ i < k, n.testBit i = false) : ∃ m, n = 2 ^ k * (2 * m + 1) := by
  have hmod : n % 2 ^ k = 0 := by
    refine Nat.eq_of_testBit_eq fun i => ?_
    rw [Nat.testBit_mod_two_pow, Nat.zero_testBit]
    by_cases hi : i < k
    · simp [hlow i hi]
    · simp [hi]
  have hodd : n / 2 ^ k % 2 = 1 := by
    have h := hk
    rwa [Nat.testBit_eq_decide_div_mod_eq, decide_eq_true_iff] at h
  refine ⟨n / 2 ^ k / 2, ?_⟩
  have h₁ := Nat.div_add_mod n (2 ^ k)
  have h₂ := Nat.div_add_mod (n / 2 ^ k) 2
  rw [hodd] at h₂
  rw [h₂]
  omega

/-- **`n & (n - 1)` clears the lowest set bit** and no other. -/
theorem testBit_land_sub_one (hk : n.testBit k = true)
    (hlow : ∀ i < k, n.testBit i = false) (i : ℕ) :
    (n &&& (n - 1)).testBit i = (n.testBit i && decide (i ≠ k)) := by
  obtain ⟨m, rfl⟩ := eq_two_pow_mul_odd hk hlow
  have hpos : 0 < 2 ^ k := Nat.two_pow_pos k
  have hpred : 2 ^ k * (2 * m + 1) - 1 = 2 ^ k * (2 * m) + (2 ^ k - 1) := by
    rw [Nat.mul_add, Nat.mul_one]; omega
  rw [Nat.testBit_land, hpred, Nat.testBit_two_pow_mul_add _ (by omega), Nat.testBit_two_pow_mul]
  rcases lt_trichotomy i k with h | rfl | h
  · simp [Nat.not_le.2 h]
  · simp
  · have hne : i ≠ k := by omega
    obtain ⟨j, hj⟩ : ∃ j, i - k = j + 1 := ⟨i - k - 1, by omega⟩
    have hodd : (2 * m + 1) / 2 = m := by omega
    simp [Nat.not_lt.2 h.le, h.le, hne, hj, Nat.testBit_succ, hodd]

/-- `v & (v - 1)` clears the lowest set bit. -/
theorem getLsbD_and_sub_one {v : BitVec w} (hk : v.getLsbD k = true)
    (hlow : ∀ i < k, v.getLsbD i = false) (i : ℕ) :
    (v &&& (v - 1)).getLsbD i = (v.getLsbD i && decide (i ≠ k)) := by
  have hkw : k < w := BitVec.lt_of_getLsbD hk
  have hv : v.toNat ≠ 0 := by
    intro h0
    rw [BitVec.getLsbD, h0, Nat.zero_testBit] at hk
    exact Bool.false_ne_true hk
  have hsub : (v - 1).toNat = v.toNat - 1 := by
    have hw : 1 < 2 ^ w := Nat.one_lt_two_pow (by omega)
    have := v.isLt
    rw [BitVec.toNat_sub, BitVec.ofNat_eq_ofNat, BitVec.toNat_ofNat, Nat.mod_eq_of_lt hw,
      show 2 ^ w - 1 + v.toNat = v.toNat - 1 + 2 ^ w by omega, Nat.add_mod_right,
      Nat.mod_eq_of_lt (by omega)]
  rw [BitVec.getLsbD, BitVec.toNat_and, hsub]
  exact testBit_land_sub_one hk hlow i

/-- One round of the bit-counting loop removes exactly one set bit. -/
theorem card_bits_and_sub_one {v : BitVec w} (hv : v ≠ 0) :
    (bits (v &&& (v - 1))).card + 1 = (bits v).card := by
  obtain ⟨k, hk, hlow⟩ := exists_lowest hv
  have herase : bits (v &&& (v - 1)) = (bits v).erase k := by
    ext i
    rw [mem_bits, getLsbD_and_sub_one hk hlow, Finset.mem_erase, mem_bits]
    simp [and_comm]
  rw [herase, Finset.card_erase_add_one (mem_bits.2 hk)]

/-- The low `n` bits set: `(1 << n) - 1`. -/
theorem getLsbD_one_shiftLeft_sub_one (hn : n < w) (i : ℕ) :
    ((1 : BitVec w) <<< n - 1).getLsbD i = decide (i < n) := by
  have hpow : 2 ^ n < 2 ^ w := Nat.pow_lt_pow_right (by omega) hn
  have hpos : 0 < 2 ^ n := Nat.two_pow_pos n
  have h1 : 1 < 2 ^ w := Nat.one_lt_two_pow (by omega)
  have hval : ((1 : BitVec w) <<< n - 1).toNat = 2 ^ n - 1 := by
    rw [BitVec.toNat_sub, BitVec.toNat_shiftLeft, BitVec.ofNat_eq_ofNat, BitVec.toNat_ofNat,
      Nat.mod_eq_of_lt h1, Nat.shiftLeft_eq, Nat.one_mul, Nat.mod_eq_of_lt hpow,
      show 2 ^ w - 1 + 2 ^ n = 2 ^ n - 1 + 2 ^ w by omega, Nat.add_mod_right,
      Nat.mod_eq_of_lt (by omega)]
  rw [BitVec.getLsbD, hval, Nat.testBit_two_pow_sub_one]

/-- A single bit: `1 << n`. -/
theorem getLsbD_one_shiftLeft (hn : n < w) (i : ℕ) :
    ((1 : BitVec w) <<< n).getLsbD i = decide (i = n) := by
  have h1 : (1 : BitVec w) = 1#w := rfl
  rw [h1, BitVec.getLsbD_shiftLeft, BitVec.getLsbD_one]
  by_cases hi : i = n
  · subst hi; simp [hn]; omega
  · by_cases hlt : i < n
    · simp [hlt, hi]
    · have : i - n ≠ 0 := by omega
      simp [hi, this]

/-- Testing one bit with a mask. -/
theorem and_one_shiftLeft_eq_zero_iff (hn : n < w) (v : BitVec w) :
    v &&& (1 : BitVec w) <<< n = 0 ↔ v.getLsbD n = false := by
  constructor
  · intro h
    have hbit : (v &&& (1 : BitVec w) <<< n).getLsbD n = false := by rw [h]; simp
    rw [BitVec.getLsbD_and, getLsbD_one_shiftLeft hn, decide_eq_true rfl, Bool.and_true] at hbit
    exact hbit
  · intro h
    refine BitVec.eq_of_getLsbD_eq fun i _ => ?_
    rw [BitVec.getLsbD_and, getLsbD_one_shiftLeft hn]
    by_cases hi : i = n
    · rw [hi, h, Bool.false_and]; simp
    · simp [hi]

/-- The test of one bit. -/
theorem and_one_shiftLeft_ne_zero_iff (hn : n < w) (v : BitVec w) :
    v &&& (1 : BitVec w) <<< n ≠ 0 ↔ v.getLsbD n = true := by
  rw [ne_eq, and_one_shiftLeft_eq_zero_iff hn, Bool.not_eq_false]

/-- Masking with a run of `len` ones from bit `lo` keeps that field in place. -/
theorem land_run (n lo len : ℕ) :
    n &&& ((2 ^ len - 1) * 2 ^ lo) = n / 2 ^ lo % 2 ^ len * 2 ^ lo := by
  refine Nat.eq_of_testBit_eq fun i => ?_
  rw [Nat.testBit_land, Nat.mul_comm _ (2 ^ lo), Nat.mul_comm _ (2 ^ lo), Nat.testBit_two_pow_mul,
    Nat.testBit_two_pow_mul, Nat.testBit_two_pow_sub_one, Nat.testBit_mod_two_pow,
    Nat.testBit_div_two_pow]
  by_cases hi : lo ≤ i
  · rw [Nat.sub_add_cancel hi]
    simp [hi, Bool.and_comm]
  · simp [hi]

/-- The bits below `k` of a word are its remainder modulo `2 ^ k`. -/
theorem toNat_and_low (v : BitVec w) (hk : k ≤ w) :
    (v &&& BitVec.ofNat w (2 ^ k - 1)).toNat = v.toNat % 2 ^ k := by
  have hpow : 2 ^ k ≤ 2 ^ w := Nat.pow_le_pow_right (by omega) hk
  have hpos : 0 < 2 ^ k := Nat.two_pow_pos k
  rw [BitVec.toNat_and, BitVec.toNat_ofNat, Nat.mod_eq_of_lt (by omega),
    Nat.and_two_pow_sub_one_eq_mod]

/-- The low bits of a word, masked and then cut off. -/
theorem toNat_setWidth_and (v : BitVec w) {mask : BitVec w}
    (hmask : mask.toNat = 2 ^ k - 1) : ((v &&& mask).setWidth k).toNat = v.toNat % 2 ^ k := by
  rw [BitVec.toNat_setWidth, BitVec.toNat_and, hmask, Nat.and_two_pow_sub_one_eq_mod, Nat.mod_mod]

theorem toNat_append {u : ℕ} (x : BitVec w) (y : BitVec u) :
    (x ++ y).toNat = x.toNat * 2 ^ u + y.toNat := by
  rw [BitVec.toNat_append, ← Nat.shiftLeft_add_eq_or_of_lt y.isLt, Nat.shiftLeft_eq]

/-- Clearing the bits below `k` rounds down to a multiple of `2 ^ k`. -/
theorem toNat_and_not_low (v : BitVec w) (hk : k ≤ w) {low : BitVec w}
    (hlow : low = BitVec.ofNat w (2 ^ k - 1)) :
    (v &&& ~~~low).toNat = v.toNat / 2 ^ k * 2 ^ k := by
  subst hlow
  have hpow : 2 ^ k ≤ 2 ^ w := Nat.pow_le_pow_right (by omega) hk
  have hpos : 0 < 2 ^ k := Nat.two_pow_pos k
  have hsplit : 2 ^ w = 2 ^ (w - k) * 2 ^ k := by rw [← Nat.pow_add, Nat.sub_add_cancel hk]
  have hmask : (~~~(BitVec.ofNat w (2 ^ k - 1))).toNat = (2 ^ (w - k) - 1) * 2 ^ k := by
    rw [BitVec.toNat_not, BitVec.toNat_ofNat, Nat.mod_eq_of_lt (by omega), Nat.sub_mul, ← hsplit]
    omega
  have hlt : v.toNat / 2 ^ k < 2 ^ (w - k) := by
    rw [Nat.div_lt_iff_lt_mul hpos, ← hsplit]
    exact v.isLt
  rw [BitVec.toNat_and, hmask, land_run, Nat.mod_eq_of_lt hlt]

/-- Bits below `k` are added to a multiple of `2 ^ k`. -/
theorem toNat_or_of_lt {x y : BitVec w} {q : ℕ} (hx : x.toNat = 2 ^ k * q)
    (hy : y.toNat < 2 ^ k) : (x ||| y).toNat = x.toNat + y.toNat := by
  rw [BitVec.toNat_or, hx, Nat.two_pow_add_eq_or_of_lt hy]

/-- A field put above the bits below `k`. -/
theorem toNat_or_shiftLeft {x y : BitVec w} (hy : y.toNat < 2 ^ k)
    (hx : x.toNat * 2 ^ k < 2 ^ w) : (y ||| x <<< k).toNat = y.toNat + x.toNat * 2 ^ k := by
  have hshift : (x <<< k).toNat = 2 ^ k * x.toNat := by
    rw [BitVec.toNat_shiftLeft, Nat.shiftLeft_eq, Nat.mod_eq_of_lt hx, Nat.mul_comm]
  rw [BitVec.or_comm, toNat_or_of_lt hshift hy, hshift, Nat.add_comm, Nat.mul_comm]

/-- Overwriting the low `w` bits of a word changes nothing exactly when they
hold the new value already. -/
theorem insert_low_eq_iff {w : ℕ} (hw : w ≤ 64) (v : BitVec 64) (x : BitVec w) :
    v &&& ~~~((BitVec.allOnes w).setWidth 64) ||| x.setWidth 64 = v ↔ v.setWidth w = x := by
  constructor
  · intro h
    refine BitVec.eq_of_getLsbD_eq fun i hi => ?_
    have hbit := congrArg (BitVec.getLsbD · i) h
    have hi' : i < 64 := by omega
    simp only [BitVec.getLsbD_or, BitVec.getLsbD_and, BitVec.getLsbD_not, BitVec.getLsbD_setWidth,
      BitVec.getLsbD_allOnes, hi, hi', decide_true, Bool.and_true, Bool.not_true, Bool.and_false,
      Bool.true_and, Bool.false_or] at hbit ⊢
    exact hbit.symm
  · rintro rfl
    refine BitVec.eq_of_getLsbD_eq fun i hi => ?_
    rcases Nat.lt_or_ge i w with h | h
    · simp [hi, h]
    · simp [hi, h]

/-- The low bits of a word into which `x` has been inserted. -/
theorem setWidth_insert_low {w : ℕ} (hw : w ≤ 64) (v : BitVec 64) (x : BitVec w) :
    (v &&& ~~~((BitVec.allOnes w).setWidth 64) ||| x.setWidth 64).setWidth w = x := by
  refine BitVec.eq_of_getLsbD_eq fun i hi => ?_
  have hi' : i < 64 := by omega
  simp [hi, hi']

end Words
