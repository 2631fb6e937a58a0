/-
# Strings in memory

Strings of bytes that a zero byte ends, as C has them, and fields of a fixed size that are
padded at the end, as file formats have them.  A string is the list of its characters; which
string begins at an address is determined by the memory (`HasString.unique`).
-/

import SuiraBox.Library.ByteMem

namespace Strings

open ByteMem

variable {m : Mem} {a i n : ℕ} {s t : List (BitVec 8)}

/-- The string at `a` has the characters `s`, and then a zero byte. -/
def HasString (m : Mem) : ℕ → List (BitVec 8) → Prop
  | a, [] => m a = 0
  | a, c :: s => c ≠ 0 ∧ m a = c ∧ HasString m (a + 1) s

instance decidableHasString (m : Mem) : ∀ a s, Decidable (HasString m a s)
  | a, [] => inferInstanceAs (Decidable (m a = 0))
  | a, c :: s =>
    have := decidableHasString m (a + 1) s
    inferInstanceAs (Decidable (c ≠ 0 ∧ m a = c ∧ HasString m (a + 1) s))

/-- A string has one list of characters. -/
theorem HasString.unique (h : HasString m a s) (h' : HasString m a t) : s = t := by
  induction s generalizing a t with
  | nil =>
    cases t with
    | nil => rfl
    | cons d t => exact absurd (h'.2.1.symm.trans h) h'.1
  | cons c s ih =>
    cases t with
    | nil => exact absurd (h.2.1.symm.trans h') h.1
    | cons d t => rw [← h.2.1, ← h'.2.1, ih h.2.2 h'.2.2]

/-- Only the bytes of a string and the zero byte count. -/
theorem HasString.congr {m' : Mem} (h : HasString m a s) (hsame : ∀ x, a ≤ x → x ≤ a + s.length →
    m' x = m x) : HasString m' a s := by
  induction s generalizing a with
  | nil => exact (hsame a le_rfl le_rfl).trans h
  | cons c s ih =>
    rw [List.length_cons] at hsame
    exact ⟨h.1, (hsame a le_rfl (by omega)).trans h.2.1, ih h.2.2 fun x hlo hhi =>
      hsame x (by omega) (by omega)⟩

/-- Two memories have the same string at their beginning. -/
def SameString (m m' : Mem) : Prop := ∃ s, HasString m 0 s ∧ HasString m' 0 s

/-- Bytes stored one after the other from `a` on. -/
def writeBytes (m : Mem) : ℕ → List (BitVec 8) → Mem
  | _, [] => m
  | a, c :: s => writeBytes (write8 m a c) (a + 1) s

theorem writeBytes_append (m : Mem) (a : ℕ) (s t : List (BitVec 8)) :
    writeBytes m a (s ++ t) = writeBytes (writeBytes m a s) (a + s.length) t := by
  induction s generalizing m a with
  | nil => rfl
  | cons c s ih =>
    rw [List.cons_append, writeBytes, ih, writeBytes, List.length_cons, Nat.add_right_comm,
      Nat.add_assoc]

/-- Bytes below the first one are left alone. -/
theorem writeBytes_of_lt (m : Mem) (s : List (BitVec 8)) (h : i < a) :
    writeBytes m a s i = m i := by
  induction s generalizing m a with
  | nil => rfl
  | cons c s ih => rw [writeBytes, ih _ (by omega), write8, if_neg (by omega)]

/-- A string that has been stored with its zero byte is there. -/
theorem hasString_writeBytes (m : Mem) (a : ℕ) (h : ∀ c ∈ s, c ≠ 0) :
    HasString (writeBytes m a (s ++ [0])) a s := by
  induction s generalizing m a with
  | nil => simp [HasString, writeBytes, write8]
  | cons c s ih =>
    refine ⟨h c (List.mem_cons_self ..), ?_, ih _ _ fun d hd => h d (List.mem_cons_of_mem c hd)⟩
    rw [List.cons_append, writeBytes, writeBytes_of_lt _ _ (Nat.lt_succ_self a), write8, if_pos rfl]

/-! ### Padded fields -/

/-- The characters of a field of `n` bytes from `i` on, up to the first `pad`. -/
def field (m : Mem) (pad : BitVec 8) : ℕ → ℕ → List (BitVec 8)
  | 0, _ => []
  | n + 1, i => if m i = pad then [] else m i :: field m pad n (i + 1)

theorem length_field_le (m : Mem) (pad : BitVec 8) (n i : ℕ) : (field m pad n i).length ≤ n := by
  induction n generalizing i with
  | zero => rfl
  | succ n ih =>
    rw [field]
    split_ifs with h
    · exact Nat.zero_le _
    · exact Nat.succ_le_succ (ih _)

/-- A list that is padded at the end is the content of its field. -/
theorem field_of_padded {pad : BitVec 8} (hlen : s.length ≤ n) (hpad : pad ∉ s)
    (h : ∀ k < n, m (i + k) = s.getD k pad) : field m pad n i = s := by
  induction n generalizing i s with
  | zero => rw [field, List.eq_nil_of_length_eq_zero (Nat.le_zero.1 hlen)]
  | succ n ih =>
    have hfirst := h 0 (Nat.succ_pos n)
    rw [Nat.add_zero] at hfirst
    rw [field, hfirst]
    cases s with
    | nil => exact if_pos rfl
    | cons c s =>
      have hrest : ∀ k < n, m (i + 1 + k) = s.getD k pad := fun k hk => by
        have := h (k + 1) (Nat.succ_lt_succ hk)
        rwa [← Nat.add_assoc, Nat.add_right_comm] at this
      have hne : c ≠ pad := fun he => hpad (he ▸ List.mem_cons_self ..)
      rw [List.getD_cons_zero, if_neg hne,
        ih (Nat.le_of_succ_le_succ hlen) (fun hmem => hpad (List.mem_cons_of_mem c hmem)) hrest]

/-- A field depends on its own bytes only. -/
theorem field_congr {m' : Mem} {pad : BitVec 8} (h : ∀ k < n, m (i + k) = m' (i + k)) :
    field m pad n i = field m' pad n i := by
  induction n generalizing i with
  | zero => rfl
  | succ n ih =>
    have hfirst := h 0 (Nat.succ_pos n)
    rw [Nat.add_zero] at hfirst
    have hrest : ∀ k < n, m (i + 1 + k) = m' (i + 1 + k) := fun k hk => by
      rw [Nat.add_right_comm]
      exact h (k + 1) (Nat.succ_lt_succ hk)
    rw [field, field, hfirst, ih hrest]

/-- A separator that is in neither part splits a list in one way. -/
theorem append_separator_inj {α : Type*} {sep : α} {s s' t t' : List α} (hs : sep ∉ s)
    (hs' : sep ∉ s') (h : s ++ sep :: t = s' ++ sep :: t') : s = s' ∧ t = t' := by
  induction s generalizing s' with
  | nil =>
    cases s' with
    | nil => exact ⟨rfl, (List.cons.inj h).2⟩
    | cons d s' => exact absurd ((List.cons.inj h).1 ▸ List.mem_cons_self ..) hs'
  | cons c s ih =>
    cases s' with
    | nil => exact absurd ((List.cons.inj h).1 ▸ List.mem_cons_self ..) hs
    | cons d s' =>
      obtain ⟨rfl, hrest⟩ := List.cons.inj h
      obtain ⟨hst, htt⟩ := ih (fun hm => hs (List.mem_cons_of_mem c hm))
        (fun hm => hs' (List.mem_cons_of_mem c hm)) hrest
      exact ⟨congrArg _ hst, htt⟩

end Strings
