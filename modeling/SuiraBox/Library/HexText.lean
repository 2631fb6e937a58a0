/-
# Hexadecimal text

Numbers written with the digits `0` to `9` and `A` to `F`, most significant digit first: with a
fixed number of digits, taken from a machine word by shifts, and with as many as it takes.  Both are
read back.
-/

import SuiraBox.Library.Words
import Mathlib.Data.Nat.Digits.Defs

namespace HexText

def digits : List Char := "0123456789ABCDEF".toList

/-- The digit for `n`. -/
def digit (n : ℕ) : Char := digits.getD n '?'

/-- What a digit stands for. -/
def value (c : Char) : ℕ := digits.idxOf c

theorem value_digit {n : ℕ} (hn : n < 16) : value (digit n) = n := by
  have hall : ∀ k : Fin 16, value (digit k) = k := by decide
  exact hall ⟨n, hn⟩

/-- The number that a text stands for. -/
def read (s : List Char) : ℕ := s.foldl (fun n c => 16 * n + value c) 0

theorem read_concat (s : List Char) (c : Char) : read (s ++ [c]) = 16 * read s + value c :=
  List.foldl_concat ..

theorem read_cons (c : Char) (s : List Char) :
    read (c :: s) = value c * 16 ^ s.length + read s := by
  induction s using List.reverseRecOn with
  | nil => simp [read]
  | append_singleton s d ih =>
    rw [← List.cons_append, read_concat, read_concat, ih, List.length_append, List.length_singleton,
      Nat.pow_succ]
    ring

/-! ### A fixed number of digits -/

section Fixed

variable {w : ℕ} (v : BitVec w)

/-- The digit of the four bits from `shift` on. -/
def nibble (shift : ℕ) : Char := digit ((v >>> shift) &&& 0xF).toNat

/-- The last `k` digits. -/
def fixed (k : ℕ) : List Char := (List.range k).map fun i => nibble v (4 * (k - 1 - i))

@[simp] theorem length_fixed (k : ℕ) : (fixed v k).length = k := by
  rw [fixed, List.length_map, List.length_range]

/-- The first digit and the rest. -/
theorem fixed_succ (k : ℕ) : fixed v (k + 1) = nibble v (4 * k) :: fixed v k := by
  rw [fixed, List.range_succ_eq_map, List.map_cons, List.map_map]
  refine congrArg _ (List.map_congr_left fun i _ => congrArg (nibble v) ?_)
  omega

theorem value_nibble (hw : 4 ≤ w) (shift : ℕ) :
    value (nibble v shift) = v.toNat / 2 ^ shift % 16 := by
  have hmask : (0xF : BitVec w).toNat = 2 ^ 4 - 1 :=
    (BitVec.toNat_ofNat ..).trans (Nat.mod_eq_of_lt (Nat.lt_of_lt_of_le (by decide)
      (Nat.pow_le_pow_right (by decide) hw)))
  have hlow : ((v >>> shift) &&& 0xF).toNat = v.toNat / 2 ^ shift % 16 := by
    rw [BitVec.toNat_and, hmask, Nat.and_two_pow_sub_one_eq_mod, BitVec.toNat_ushiftRight,
      Nat.shiftRight_eq_div_pow]
  rw [nibble, value_digit (hlow ▸ Nat.mod_lt _ (by decide)), hlow]

/-- **Fixed digits are read back.** -/
theorem read_fixed (hw : 4 ≤ w) (k : ℕ) : read (fixed v k) = v.toNat % 16 ^ k := by
  induction k with
  | zero => exact (Nat.mod_one _).symm
  | succ k ih =>
    have hpow : 2 ^ (4 * k) = 16 ^ k := by rw [Nat.pow_mul]
    rw [fixed_succ, read_cons, value_nibble v hw, length_fixed, ih, hpow, Nat.pow_succ, Nat.mod_mul]
    ring

/-- Two words with the same digits are equal. -/
theorem fixed_injective {k : ℕ} (hw : w = 4 * k) (hk : 0 < k) {u : BitVec w}
    (h : fixed v k = fixed u k) : v = u := by
  have hpow : 2 ^ w = 16 ^ k := by rw [hw, Nat.pow_mul]
  have hread := congrArg read h
  rw [read_fixed v (by omega), read_fixed u (by omega), ← hpow, Nat.mod_eq_of_lt v.isLt,
    Nat.mod_eq_of_lt u.isLt] at hread
  exact BitVec.eq_of_toNat_eq hread

end Fixed

/-! ### As many digits as it takes -/

/-- The digits of a number, none for zero. -/
def natural (n : ℕ) : List Char := ((Nat.digits 16 n).map digit).reverse

/-- **A number is read back from its digits.** -/
theorem read_natural (n : ℕ) : read (natural n) = n := by
  have hread : ∀ l : List ℕ, (∀ d ∈ l, d < 16) →
      read (l.map digit).reverse = Nat.ofDigits 16 l := by
    intro l hl
    induction l with
    | nil => rfl
    | cons d l ih =>
      rw [List.map_cons, List.reverse_cons, read_concat, ih fun e he =>
        hl e (List.mem_cons_of_mem _ he), value_digit (hl d List.mem_cons_self), Nat.ofDigits_cons]
      ring
  rw [natural, hread _ fun d hd => Nat.digits_lt_base (by decide) hd, Nat.ofDigits_digits]

end HexText
