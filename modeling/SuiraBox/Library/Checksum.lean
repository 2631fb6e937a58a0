/-
# Checksums and corrupted bytes

A record on a disk is a list of bytes, and its numbers are little-endian (`leBytes`, `ofLE`).  Two
lists that have the same length and differ in one place only are the record before and after the
corruption of one byte (`DiffersAt`).

A checksum runs over the bytes with one step for each.  If a step loses neither the state nor the
byte, the checksums of two such lists differ (`DiffersAt.foldl_ne`).
-/

import Mathlib.Logic.Function.Basic
import Mathlib.Data.List.Basic
import Mathlib.Data.Nat.Notation
import Mathlib.Algebra.Order.Group.Nat

namespace Checksum

/-! ### Little-endian numbers -/

/-- The low `n` bytes of `v`. -/
def leBytes : ℕ → ℕ → List (BitVec 8)
  | 0, _ => []
  | n + 1, v => BitVec.ofNat 8 v :: leBytes n (v / 256)

/-- The number that the bytes make. -/
def ofLE : List (BitVec 8) → ℕ
  | [] => 0
  | b :: bs => b.toNat + 256 * ofLE bs

@[simp] theorem length_leBytes (n v : ℕ) : (leBytes n v).length = n := by
  induction n generalizing v with
  | zero => rfl
  | succ n ih => rw [leBytes, List.length_cons, ih]

/-- A number of so many bytes. -/
theorem ofLE_lt (bs : List (BitVec 8)) : ofLE bs < 256 ^ bs.length := by
  induction bs with
  | nil => exact Nat.one_pos
  | cons b bs ih =>
    have hb := b.isLt
    rw [ofLE, List.length_cons, Nat.pow_succ]
    omega

/-- Bytes come back from their number. -/
theorem leBytes_ofLE (bs : List (BitVec 8)) : leBytes bs.length (ofLE bs) = bs := by
  induction bs with
  | nil => rfl
  | cons b bs ih =>
    have hb := b.isLt
    have hlow : BitVec.ofNat 8 (b.toNat + 256 * ofLE bs) = b := by
      refine BitVec.eq_of_toNat_eq ?_
      rw [BitVec.toNat_ofNat]
      omega
    have hhigh : (b.toNat + 256 * ofLE bs) / 256 = ofLE bs := by omega
    rw [List.length_cons, ofLE, leBytes, hlow, hhigh, ih]

/-- A number comes back from its bytes, if it fits. -/
theorem ofLE_leBytes (n v : ℕ) : ofLE (leBytes n v) = v % 256 ^ n := by
  induction n generalizing v with
  | zero => rw [leBytes, ofLE, Nat.pow_zero, Nat.mod_one]
  | succ n ih =>
    have hmod : v % 256 ^ (n + 1) = v % 256 + 256 * (v / 256 % 256 ^ n) := by
      rw [Nat.pow_succ', Nat.mod_mul]
    rw [leBytes, ofLE, ih, BitVec.toNat_ofNat, hmod]

/-- A word of `w` bits is determined by its bytes. -/
theorem leBytes_toNat_inj {w n : ℕ} (hw : w ≤ 8 * n) {x y : BitVec w}
    (h : leBytes n x.toNat = leBytes n y.toNat) : x = y := by
  have hpow : 2 ^ w ≤ 256 ^ n := by
    rw [show 256 = 2 ^ 8 from rfl, ← Nat.pow_mul]
    exact Nat.pow_le_pow_right (by decide) hw
  have hof := congrArg ofLE h
  rw [ofLE_leBytes, ofLE_leBytes, Nat.mod_eq_of_lt (x.isLt.trans_le hpow),
    Nat.mod_eq_of_lt (y.isLt.trans_le hpow)] at hof
  exact BitVec.eq_of_toNat_eq hof

/-- The bytes of the word that was made of them. -/
theorem leBytes_ofNat {w : ℕ} (bs : List (BitVec 8)) (hw : w = 8 * bs.length) :
    leBytes bs.length (BitVec.ofNat w (ofLE bs)).toNat = bs := by
  have hlt := ofLE_lt bs
  have hpow : 256 ^ bs.length = 2 ^ w := by rw [show 256 = 2 ^ 8 from rfl, ← Nat.pow_mul, hw]
  rw [BitVec.toNat_ofNat, Nat.mod_eq_of_lt (hpow ▸ hlt), leBytes_ofLE]

/-! ### One corrupted place -/

section Differs

variable {α σ : Type*} {i : ℕ} {xs ys zs ws : List α} {f : σ → α → σ}

/-- The lists differ in place `i` and nowhere else. -/
structure DiffersAt (i : ℕ) (xs ys : List α) : Prop where
  length : xs.length = ys.length
  here : xs[i]? ≠ ys[i]?
  elsewhere : ∀ j, j ≠ i → xs[j]? = ys[j]?

theorem differsAt_set (hi : i < xs.length) {b : α} (hb : xs[i]? ≠ some b) :
    DiffersAt i xs (xs.set i b) := by
  refine ⟨(List.length_set ..).symm, ?_, fun j hj => (List.getElem?_set_ne hj.symm).symm⟩
  rw [List.getElem?_set_self hi]
  exact hb

theorem DiffersAt.ne (h : DiffersAt i xs ys) : xs ≠ ys := fun he => h.here (by rw [he])

/-- A difference in the first part: the second parts are the same. -/
theorem DiffersAt.of_append_left (h : DiffersAt i (xs ++ zs) (ys ++ ws))
    (hlen : xs.length = ys.length) (hi : i < xs.length) : DiffersAt i xs ys ∧ zs = ws := by
  have hhere := h.here
  rw [List.getElem?_append_left hi, List.getElem?_append_left (hlen ▸ hi)] at hhere
  refine ⟨⟨hlen, hhere, fun j hj => ?_⟩, List.ext_getElem? fun j => ?_⟩
  · have hsame := h.elsewhere j hj
    rcases Nat.lt_or_ge j xs.length with hlt | hge
    · rwa [List.getElem?_append_left hlt, List.getElem?_append_left (hlen ▸ hlt)] at hsame
    · rw [List.getElem?_eq_none hge, List.getElem?_eq_none (hlen ▸ hge)]
  · have hsame := h.elsewhere (xs.length + j) (by omega)
    rwa [List.getElem?_append_right (by omega), List.getElem?_append_right (by omega), ← hlen,
      Nat.add_sub_cancel_left] at hsame

/-- A difference behind the first part: that part is the same. -/
theorem DiffersAt.of_append_right (h : DiffersAt i (xs ++ zs) (ys ++ ws))
    (hlen : xs.length = ys.length) (hi : xs.length ≤ i) : xs = ys := by
  refine List.ext_getElem? fun j => ?_
  rcases Nat.lt_or_ge j xs.length with hlt | hge
  · have hsame := h.elsewhere j (by omega)
    rwa [List.getElem?_append_left hlt, List.getElem?_append_left (hlen ▸ hlt)] at hsame
  · rw [List.getElem?_eq_none hge, List.getElem?_eq_none (hlen ▸ hge)]

/-- The same list behind both. -/
theorem DiffersAt.append (h : DiffersAt i xs ys) (zs : List α) :
    DiffersAt i (xs ++ zs) (ys ++ zs) := by
  have hi : i < xs.length := by
    by_contra hge
    rw [Nat.not_lt] at hge
    exact h.here (by rw [List.getElem?_eq_none hge, List.getElem?_eq_none (h.length ▸ hge)])
  refine ⟨by rw [List.length_append, List.length_append, h.length], ?_, fun j hj => ?_⟩
  · rw [List.getElem?_append_left hi, List.getElem?_append_left (h.length ▸ hi)]
    exact h.here
  · rcases Nat.lt_or_ge j xs.length with hlt | hge
    · rw [List.getElem?_append_left hlt, List.getElem?_append_left (h.length ▸ hlt)]
      exact h.elsewhere j hj
    · rw [List.getElem?_append_right hge, List.getElem?_append_right (h.length ▸ hge), h.length]

/-- Two states stay different. -/
theorem foldl_injective (hstate : ∀ b, Function.Injective fun s => f s b) (xs : List α) :
    Function.Injective fun s => xs.foldl f s := by
  induction xs with
  | nil => exact fun _ _ h => h
  | cons x xs ih => exact ih.comp (hstate x)

/-- **One corrupted place changes the checksum.** -/
theorem DiffersAt.foldl_ne (h : DiffersAt i xs ys) (hstate : ∀ b, Function.Injective fun s => f s b)
    (hinput : ∀ s, Function.Injective (f s)) (s : σ) : xs.foldl f s ≠ ys.foldl f s := by
  induction xs generalizing ys i s with
  | nil =>
    have hys : ys = [] := List.eq_nil_of_length_eq_zero h.length.symm
    exact absurd hys.symm h.ne
  | cons x xs ih =>
    cases ys with
    | nil => exact absurd h.length (Nat.succ_ne_zero _)
    | cons y ys =>
      have hlen : xs.length = ys.length := Nat.succ.inj h.length
      cases i with
      | zero =>
        -- the first bytes differ, the states after them too, and the rest is the same
        have hxy : x ≠ y := fun he => h.here (congrArg some he)
        have hrest : xs = ys := List.ext_getElem? fun j => h.elsewhere (j + 1) (Nat.succ_ne_zero j)
        rw [hrest]
        exact fun he => hxy (hinput s (foldl_injective hstate ys he))
      | succ i =>
        have hxy : x = y := Option.some.inj (h.elsewhere 0 (Nat.succ_ne_zero i).symm)
        rw [hxy]
        exact ih ⟨hlen, h.here, fun j hj => h.elsewhere (j + 1) fun he => hj (Nat.succ.inj he)⟩ _

end Differs

end Checksum
