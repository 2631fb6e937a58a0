/-
# Byte-addressed memory, little-endian

A memory is a function from addresses to bytes.  Numbers of `n` bytes are read
and written least significant byte first; the widths that code uses are the
cases `n = 2, 4, 8`.  Addresses are natural numbers, so that two accesses are
apart when their intervals are.
-/

import Mathlib.Data.Nat.Notation
import Mathlib.Algebra.Order.Group.Nat
import Mathlib.Data.List.Induction
import Mathlib.Tactic.Ring

namespace ByteMem

/-- A memory: one byte at every address. -/
abbrev Mem := ℕ → BitVec 8

/-- The number in the `n` bytes from `a` on. -/
def readLE (m : Mem) : ℕ → ℕ → ℕ
  | _, 0 => 0
  | a, n + 1 => (m a).toNat + 256 * readLE m (a + 1) n

/-- The low `n` bytes of `v` stored from `a` on. -/
def writeLE (m : Mem) (a n v : ℕ) : Mem := fun x =>
  if a ≤ x ∧ x < a + n then BitVec.ofNat 8 (v / 256 ^ (x - a)) else m x

/-- A 16-bit load. -/
def read16 (m : Mem) (a : ℕ) : BitVec 16 := BitVec.ofNat 16 (readLE m a 2)

/-- A 32-bit load. -/
def read32 (m : Mem) (a : ℕ) : BitVec 32 := BitVec.ofNat 32 (readLE m a 4)

/-- A 64-bit load. -/
def read64 (m : Mem) (a : ℕ) : BitVec 64 := BitVec.ofNat 64 (readLE m a 8)

/-- A 64-bit store. -/
def write64 (m : Mem) (a : ℕ) (v : BitVec 64) : Mem := writeLE m a 8 v.toNat

/-- A byte store. -/
def write8 (m : Mem) (a : ℕ) (v : BitVec 8) : Mem := fun x => if x = a then v else m x

variable {m m' : Mem} {a n x : ℕ}

/-- A number of `n` bytes is below `256 ^ n`. -/
theorem readLE_lt (m : Mem) (a n : ℕ) : readLE m a n < 256 ^ n := by
  induction n generalizing a with
  | zero => exact Nat.one_pos
  | succ n ih =>
    have h₁ := (m a).isLt
    have h₂ := ih (a + 1)
    rw [readLE, pow_succ]
    omega

/-- A load depends on the bytes it covers only. -/
theorem readLE_congr (h : ∀ x, a ≤ x → x < a + n → m x = m' x) :
    readLE m a n = readLE m' a n := by
  induction n generalizing a with
  | zero => rfl
  | succ n ih =>
    rw [readLE, readLE, h a le_rfl (by omega), ih fun x h₁ h₂ => h x (by omega) (by omega)]

/-- Lowering bytes lowers the number they make. -/
theorem readLE_mono (h : ∀ x, a ≤ x → x < a + n →
    (m x).toNat ≤ (m' x).toNat) : readLE m a n ≤ readLE m' a n := by
  induction n generalizing a with
  | zero => exact le_rfl
  | succ n ih =>
    have h₁ := h a le_rfl (by omega)
    have h₂ := ih (a := a + 1) fun x hx₁ hx₂ => h x (by omega) (by omega)
    rw [readLE, readLE]
    omega

theorem toNat_read64 (m : Mem) (a : ℕ) : (read64 m a).toNat = readLE m a 8 := by
  have := readLE_lt m a 8
  rw [read64, BitVec.toNat_ofNat, Nat.mod_eq_of_lt (by omega)]

theorem readLE_zero (h : ∀ x, a ≤ x → x < a + n → m x = 0) :
    readLE m a n = 0 := by
  induction n generalizing a with
  | zero => rfl
  | succ n ih =>
    rw [readLE, h a le_rfl (by omega), ih fun x h₁ h₂ => h x (by omega) (by omega)]
    rfl

/-- A load reads back the store at the same place. -/
theorem readLE_writeLE_same (m : Mem) (a n v : ℕ) : readLE (writeLE m a n v) a n = v % 256 ^ n := by
  induction n generalizing m a v with
  | zero => rw [readLE, pow_zero, Nat.mod_one]
  | succ n ih =>
    have hrest : readLE (writeLE m a (n + 1) v) (a + 1) n =
        readLE (writeLE m (a + 1) n (v / 256)) (a + 1) n := by
      refine readLE_congr fun x h₁ h₂ => ?_
      unfold writeLE
      rw [if_pos (by omega), if_pos (by omega), Nat.div_div_eq_div_mul, ← pow_succ',
        show x - (a + 1) + 1 = x - a by omega]
    have hfirst : writeLE m a (n + 1) v a = BitVec.ofNat 8 v := by
      unfold writeLE
      rw [if_pos (by omega), Nat.sub_self, pow_zero, Nat.div_one]
    rw [readLE, hrest, ih, hfirst, BitVec.toNat_ofNat, show 256 ^ (n + 1) = 256 * 256 ^ n
      from pow_succ' .., Nat.mod_mul]

/-- A store changes no byte outside its interval. -/
theorem writeLE_of_outside (m : Mem) {v : ℕ} (h : x < a ∨ a + n ≤ x) :
    writeLE m a n v x = m x := by
  unfold writeLE
  rw [if_neg (by omega)]

/-- What has been written is read. -/
@[simp] theorem read64_write64 (m : Mem) (a : ℕ) (v : BitVec 64) :
    read64 (write64 m a v) a = v := by
  rw [read64, write64, readLE_writeLE_same]
  apply BitVec.eq_of_toNat_eq
  rw [BitVec.toNat_ofNat]
  have := v.isLt
  omega

theorem read16_congr (h : ∀ x, a ≤ x → x < a + 2 → m x = m' x) :
    read16 m a = read16 m' a := by
  rw [read16, read16, readLE_congr h]

theorem read32_congr (h : ∀ x, a ≤ x → x < a + 4 → m x = m' x) :
    read32 m a = read32 m' a := by
  rw [read32, read32, readLE_congr h]

theorem read64_congr (h : ∀ x, a ≤ x → x < a + 8 → m x = m' x) :
    read64 m a = read64 m' a := by
  rw [read64, read64, readLE_congr h]

/-- A load is not affected by a store that is apart from it. -/
theorem read64_write64_of_apart (m : Mem) {b : ℕ} (v : BitVec 64) (h : a + 8 ≤ b ∨ b + 8 ≤ a) :
    read64 (write64 m a v) b = read64 m b :=
  read64_congr fun x h₁ h₂ => writeLE_of_outside m (by omega)

/-- A 64-bit write leaves the bytes around it. -/
theorem write64_of_outside (m : Mem) (v : BitVec 64) (h : x < a ∨ a + 8 ≤ x) :
    write64 m a v x = m x := writeLE_of_outside m h

/-- Eight zero bytes are the word zero. -/
theorem read64_eq_zero (h : ∀ x, a ≤ x → x < a + 8 → m x = 0) :
    read64 m a = 0 := by
  rw [read64, readLE_zero h]
  rfl

/-- Storing the word zero stores eight zero bytes. -/
theorem write64_zero (m : Mem) (a x : ℕ) :
    write64 m a 0 x = if a ≤ x ∧ x < a + 8 then 0 else m x := by
  rw [write64, writeLE]
  simp

/-- The bytes of a number that has been read. -/
theorem readLE_byte (m : Mem) {i : ℕ} (hi : i < n) :
    BitVec.ofNat 8 (readLE m a n / 256 ^ i) = m (a + i) := by
  induction n generalizing a i with
  | zero => exact absurd hi (Nat.not_lt_zero i)
  | succ n ih =>
    have hbyte := (m a).isLt
    rw [readLE]
    cases i with
    | zero =>
      refine BitVec.eq_of_toNat_eq ?_
      rw [pow_zero, Nat.div_one, BitVec.toNat_ofNat]
      change _ = (m a).toNat
      omega
    | succ i =>
      rw [pow_succ', ← Nat.div_div_eq_div_mul,
          show ((m a).toNat + 256 * readLE m (a + 1) n) / 256 = readLE m (a + 1) n by
        omega, ih (by omega), Nat.add_right_comm, Nat.add_assoc]

/-- A word that is carried over from another memory. -/
theorem write64_read64 (m m' : Mem) (a x : ℕ) :
    write64 m' a (read64 m a) x = if a ≤ x ∧ x < a + 8 then m x else m' x := by
  rw [write64, writeLE, toNat_read64]
  refine if_ctx_congr Iff.rfl (fun hin => ?_) fun _ => rfl
  obtain ⟨i, rfl⟩ := Nat.exists_eq_add_of_le hin.1
  rw [Nat.add_sub_cancel_left, readLE_byte m (by omega)]

/-- Bytes stored one by one, each at an address of its own, are there in the end. -/
theorem foldl_write8 {ι : Type*} {address : ι → ℕ} (haddress : Function.Injective address)
    (value : ι → BitVec 8) (m : Mem) {l : List ι} {i : ι} (hi : i ∈ l) :
    l.foldl (fun m i => write8 m (address i) (value i)) m (address i) = value i := by
  induction l using List.reverseRecOn with
  | nil => exact absurd hi List.not_mem_nil
  | append_singleton l j ih =>
    rw [List.foldl_append, List.foldl_cons, List.foldl_nil, write8]
    split_ifs with h
    · rw [haddress h]
    · refine ih ((List.mem_append.1 hi).resolve_right fun hj => h ?_)
      rw [List.mem_singleton.1 hj]

/-- Words stored one after the other from `a` on. -/
def writeWords (m : Mem) (a : ℕ) : List (BitVec 64) → Mem
  | [] => m
  | v :: vs => writeWords (write64 m a v) (a + 8) vs

theorem writeWords_append (m : Mem) (a : ℕ) (vs ws : List (BitVec 64)) :
    writeWords m a (vs ++ ws) = writeWords (writeWords m a vs) (a + 8 * vs.length) ws := by
  induction vs generalizing m a with
  | nil => rfl
  | cons v vs ih =>
    rw [List.cons_append, writeWords, ih, writeWords, List.length_cons,
      show a + 8 + 8 * vs.length = a + 8 * (vs.length + 1) by omega]

/-- Writing words leaves the bytes around them. -/
theorem writeWords_of_outside (m : Mem) {vs : List (BitVec 64)}
    (h : x < a ∨ a + 8 * vs.length ≤ x) : writeWords m a vs x = m x := by
  induction vs generalizing m a with
  | nil => rfl
  | cons v vs ih =>
    rw [List.length_cons] at h
    rw [writeWords, ih _ (by omega), write64_of_outside _ _ (by omega)]

/-- A load of one of the words. -/
theorem read64_writeWords (m : Mem) (a : ℕ) {vs : List (BitVec 64)} {j : ℕ} {v : BitVec 64}
    (hv : vs[j]? = some v) : read64 (writeWords m a vs) (a + 8 * j) = v := by
  induction vs generalizing m a j with
  | nil => cases hv
  | cons w vs ih =>
    rw [writeWords]
    cases j with
    | zero =>
      obtain rfl := Option.some.inj hv
      rw [read64_congr fun x h₁ h₂ => writeWords_of_outside _ (by omega), Nat.mul_zero,
        Nat.add_zero, read64_write64]
    | succ j =>
      rw [show a + 8 * (j + 1) = a + 8 + 8 * j by omega]
      exact ih _ _ hv

/-- A memory that holds `bytes` from `a` on and zeros elsewhere. -/
def bytesAt (a : ℕ) (bytes : List (BitVec 8)) : Mem := fun x =>
  if a ≤ x then bytes.getD (x - a) 0 else 0

/-! ### Copies -/

/-- The `n` bytes of `src` from `b` on, copied to `dst` from `a` on. -/
def copy (dst : Mem) (a : ℕ) (src : Mem) (b n : ℕ) : Mem := fun x =>
  if a ≤ x ∧ x < a + n then src (b + (x - a)) else dst x

@[simp] theorem copy_zero (dst : Mem) (a : ℕ) (src : Mem) (b : ℕ) : copy dst a src b 0 = dst := by
  funext x
  exact if_neg (by omega)

/-- A byte that is copied. -/
theorem copy_of_inside (dst src : Mem) {b i : ℕ} (hi : i < n) :
    copy dst a src b n (a + i) = src (b + i) := by
  rw [copy, if_pos (by omega), Nat.add_sub_cancel_left]

/-- A byte that is not. -/
theorem copy_of_outside (dst src : Mem) {b : ℕ} (h : x < a ∨ a + n ≤ x) :
    copy dst a src b n x = dst x := if_neg (by omega)

/-- Writing a byte of a memory is copying one byte. -/
theorem write8_eq_copy (dst : Mem) (a : ℕ) (src : Mem) (b : ℕ) :
    write8 dst a (src b) = copy dst a src b 1 := by
  funext x
  rw [write8]
  by_cases hx : x = a
  · rw [if_pos hx, copy, if_pos (by omega), hx, Nat.sub_self, Nat.add_zero]
  · rw [if_neg hx, copy, if_neg (by omega)]

/-- A copy goes on where another one has ended. -/
theorem copy_copy (dst : Mem) (a : ℕ) (src : Mem) (b m n : ℕ) :
    copy (copy dst a src b m) (a + m) src (b + m) n = copy dst a src b (m + n) := by
  funext x
  by_cases hfirst : x < a + m
  · rw [copy_of_outside _ _ (Or.inl hfirst)]
    by_cases ha : a ≤ x
    · rw [copy, if_pos ⟨ha, hfirst⟩, copy, if_pos ⟨ha, by omega⟩]
    · rw [copy, if_neg (by omega), copy, if_neg (by omega)]
  · by_cases hend : x < a + m + n
    · rw [copy, if_pos ⟨by omega, hend⟩, copy, if_pos ⟨by omega, by omega⟩]
      congr 1
      omega
    · rw [copy_of_outside _ _ (by omega), copy_of_outside _ _ (by omega),
        copy_of_outside _ _ (by omega)]

end ByteMem
