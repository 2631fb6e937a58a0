/-
# Rotation on a ring

A token goes around the places `0, …, n - 1` of a ring, one place at a turn, from the last one
back to the first.  Two questions have the same answer for every ring.

* The ring may grow at its end while the token goes around: `turns` gives the places it comes to
  when the sizes at the turns are known.  Between two visits of a place it comes to every other
  place exactly once.
* The token rests for `q` moments on every place: `share` counts the moments of one place.  The
  shares of all places are all moments, and no two places are more than `q` moments apart.
-/

import Mathlib.Data.Nat.Count
import Mathlib.Data.List.Count
import Mathlib.Algebra.BigOperators.Group.Finset.Basic
import Mathlib.Algebra.BigOperators.Group.Finset.Piecewise

namespace Rotation

/-- Every place is ahead, at most once around. -/
theorem exists_ahead {c n i : ℕ} (hc : c < n) (hi : i < n) :
    ∃ k, 1 ≤ k ∧ k ≤ n ∧ (c + k) % n = i := by
  rcases Nat.lt_or_ge c i with hlt | hge
  · refine ⟨i - c, by omega, by omega, ?_⟩
    rw [Nat.add_sub_cancel' hlt.le, Nat.mod_eq_of_lt hi]
  · refine ⟨i + n - c, by omega, by omega, ?_⟩
    rw [Nat.add_sub_cancel' (by omega), Nat.add_mod_right, Nat.mod_eq_of_lt hi]

/-! ### A ring that grows -/

/-- The places that a token at `p` comes to, with the size of the ring at each turn. -/
def turns : ℕ → List ℕ → List ℕ
  | _, [] => []
  | p, n :: sizes => (p + 1) % n :: turns ((p + 1) % n) sizes

variable {i j n p : ℕ} {sizes l : List ℕ}

/-- On the way up to `i` the token comes to the places below it. -/
theorem turns_up (hp : p < i) (hsizes : ∀ n ∈ sizes, i < n) (hturns : turns p sizes = l ++ [i])
    (hi : i ∉ l) : l = List.range' (p + 1) (i - 1 - p) := by
  induction sizes generalizing p l with
  | nil => exact absurd hturns.symm (by simp [turns])
  | cons n sizes ih =>
    have hn := hsizes n List.mem_cons_self
    rw [turns, Nat.mod_eq_of_lt (by omega)] at hturns
    cases l with
    | nil =>
      obtain ⟨hlast, -⟩ := List.cons.inj hturns
      rw [show i - 1 - p = 0 by omega]
      rfl
    | cons a l =>
      obtain ⟨rfl, hrest⟩ := List.cons.inj hturns
      rw [List.mem_cons, not_or] at hi
      rw [ih (by omega) (fun n hn => hsizes n (List.mem_cons_of_mem _ hn)) hrest hi.2,
        show i - 1 - p = i - 1 - (p + 1) + 1 by omega, List.range'_succ]

/-- From a place not below `i` the token first goes up to the end of the ring, wherever that is
by then, and then to the places below `i`. -/
theorem turns_around (hp : i ≤ p) (hsizes : ∀ n ∈ sizes, p < n) (hgrow : sizes.Pairwise (· ≤ ·))
    (hturns : turns p sizes = l ++ [i]) (hi : i ∉ l) :
    ∃ n ∈ sizes, l = List.range' (p + 1) (n - 1 - p) ++ List.range' 0 i := by
  induction sizes generalizing p l with
  | nil => exact absurd hturns.symm (by simp [turns])
  | cons n sizes ih =>
    have hn := hsizes n List.mem_cons_self
    obtain ⟨hle, hgrow⟩ := List.pairwise_cons.1 hgrow
    rw [turns] at hturns
    rcases Nat.lt_or_ge (p + 1) n with hlt | hge
    · rw [Nat.mod_eq_of_lt hlt] at hturns
      cases l with
      | nil =>
        obtain ⟨hlast, -⟩ := List.cons.inj hturns
        omega
      | cons a l =>
        obtain ⟨rfl, hrest⟩ := List.cons.inj hturns
        rw [List.mem_cons, not_or] at hi
        obtain ⟨m, hm, rfl⟩ := ih (by omega) (fun m hm => hlt.trans_le (hle m hm)) hgrow hrest hi.2
        have hnm := hle m hm
        refine ⟨m, List.mem_cons_of_mem _ hm, ?_⟩
        rw [show m - 1 - p = m - 1 - (p + 1) + 1 by omega, List.range'_succ, List.cons_append]
    · -- the end of the ring
      obtain rfl : n = p + 1 := by omega
      rw [Nat.mod_self] at hturns
      refine ⟨p + 1, List.mem_cons_self, ?_⟩
      rw [Nat.add_sub_cancel, Nat.sub_self, List.range'_zero, List.nil_append]
      cases l with
      | nil =>
        obtain ⟨rfl, -⟩ := List.cons.inj hturns
        rfl
      | cons a l =>
        obtain ⟨rfl, hrest⟩ := List.cons.inj hturns
        rw [List.mem_cons, not_or] at hi
        have hpos : 0 < i := Nat.pos_of_ne_zero hi.1
        rw [turns_up hpos (fun m hm => lt_of_lt_of_le (by omega) (hle m hm)) hrest hi.2,
          show List.range' 0 i = List.range' 0 (i - 1 - 0 + 1) by
            rw [Nat.sub_zero, Nat.sub_add_cancel hpos],
          List.range'_succ]

/-- **Round robin.**  A token that leaves `i` and comes back to it has been once on every other
place that the ring had when it left. -/
theorem count_turns (hin : i < n) (hsizes : ∀ m ∈ sizes, n ≤ m) (hgrow : sizes.Pairwise (· ≤ ·))
    (hturns : turns i sizes = l ++ [i]) (hi : i ∉ l) (hj : j < n) (hne : j ≠ i) :
    l.count j = 1 := by
  obtain ⟨m, hm, rfl⟩ :=
    turns_around le_rfl (fun m hm => hin.trans_le (hsizes m hm)) hgrow hturns hi
  have hnm := hsizes m hm
  rw [List.count_append]
  rcases Nat.lt_or_gt_of_ne hne with hlt | hgt
  · rw [List.count_eq_zero.2 fun h => by have := List.mem_range'_1.1 h; omega,
      List.count_eq_one_of_mem List.nodup_range' (List.mem_range'_1.2 ⟨Nat.zero_le _, by omega⟩)]
  · rw [List.count_eq_one_of_mem List.nodup_range' (List.mem_range'_1.2 ⟨hgt, by omega⟩),
      List.count_eq_zero.2 fun h => by have := List.mem_range'_1.1 h; omega]

/-! ### A ring of fixed size -/

/-- The moments, of the first `N`, at which a token that starts at `c` and rests for `q` moments
on every place is at `i`. -/
def share (q n c N i : ℕ) : ℕ := Nat.count (fun t => (c + t / q) % n = i) N

variable {q c d N : ℕ}

/-- One more turn. -/
theorem share_succ (q n c N i : ℕ) :
    share q n c (N + 1) i = share q n c N i + if (c + N / q) % n = i then 1 else 0 :=
  Nat.count_succ ..

theorem share_le (q n c N i : ℕ) : share q n c N i ≤ N := Nat.count_le _

/-- At every moment the token is somewhere. -/
theorem sum_share (hn : 0 < n) (N : ℕ) : ∑ i ∈ Finset.range n, share q n c N i = N := by
  induction N with
  | zero => exact Finset.sum_eq_zero fun i _ => Nat.count_zero _
  | succ N ih =>
    simp only [share_succ, Finset.sum_add_distrib, ih, Finset.sum_ite_eq, Finset.mem_range,
      if_pos (Nat.mod_lt _ hn)]

/-- The token is at `i` whenever the number of turns has a certain remainder. -/
theorem exists_remainder (hc : c < n) (hi : i < n) : ∃ d < n, ∀ k, (c + k) % n = i ↔ k % n = d := by
  -- what `i` is ahead of `c`, around the ring
  refine ⟨if c ≤ i then i - c else i + n - c, by split_ifs <;> omega, fun k => ?_⟩
  have hk := Nat.mod_lt k (Nat.zero_lt_of_lt hc)
  rw [Nat.add_mod, Nat.mod_eq_of_lt hc]
  rcases Nat.lt_or_ge (c + k % n) n with hlt | hge
  · rw [Nat.mod_eq_of_lt hlt]
    split_ifs <;> omega
  · rw [Nat.mod_eq_sub_mod hge, Nat.mod_eq_of_lt (by omega)]
    split_ifs <;> omega

/-- All whole rounds give a place `q` moments each, and the last round gives what it has. -/
theorem count_rounds (hq : 0 < q) (hd : d < n) (N : ℕ) :
    Nat.count (fun t => t / q % n = d) N = q * (N / (q * n)) + min q (N % (q * n) - d * q) := by
  have hround : d * q + q ≤ q * n := by
    rw [← Nat.succ_mul, Nat.mul_comm]
    exact Nat.mul_le_mul_left q hd
  induction N with
  | zero => simp
  | succ N ih =>
    have hpos : 0 < q * n := by omega
    have hrest := Nat.mod_lt N hpos
    have hwhole := Nat.mod_add_div N (q * n)
    have hhere : N / q % n = d ↔ d * q ≤ N % (q * n) ∧ N % (q * n) < d * q + q := by
      rw [← Nat.mod_mul_right_div_self, Nat.div_eq_iff hq]
      omega
    rw [Nat.count_succ, ih]
    simp only [hhere]
    rcases Nat.lt_or_ge (N % (q * n) + 1) (q * n) with hlt | hge
    · obtain ⟨hdiv, hmod⟩ := (Nat.div_mod_unique hpos (a := N + 1) (c := N % (q * n) + 1)
        (d := N / (q * n))).2 ⟨by omega, hlt⟩
      rw [hdiv, hmod]
      split_ifs <;> omega
    · -- the round is over
      obtain ⟨hdiv, hmod⟩ := (Nat.div_mod_unique hpos (a := N + 1) (c := 0)
        (d := N / (q * n) + 1)).2 ⟨by rw [Nat.mul_succ]; omega, hpos⟩
      rw [hdiv, hmod, Nat.mul_succ]
      split_ifs <;> omega

/-- **Fair shares.**  The shares of two places differ by at most `q` moments. -/
theorem share_le_add (hq : 0 < q) (hc : c < n) (hi : i < n) (hj : j < n) (N : ℕ) :
    share q n c N i ≤ share q n c N j + q := by
  have hshare : ∀ k < n, q * (N / (q * n)) ≤ share q n c N k ∧
      share q n c N k ≤ q * (N / (q * n)) + q := by
    intro k hk
    obtain ⟨d, hd, hiff⟩ := exists_remainder hc hk
    rw [share]
    simp only [hiff]
    rw [count_rounds hq hd]
    omega
  have := hshare i hi
  have := hshare j hj
  omega

end Rotation
