/-
# Counting loops

`for (i = start; i < stop; ++i)` over machine integers.  The index of such a loop stays
below `stop` and so never wraps around: the loop is a fold over `start, …, stop - 1`
(`forUp`), and it satisfies the equation of the loop (`forUp_eq`).

A loop records the events of its rounds, and a loop in a loop is one fold over the pairs
of both indices, row by row.
-/

import SuiraBox.Library.Trace

namespace Trace

variable {ε α : Type} {w : ℕ}

instance : LawfulMonad (Traced ε) := LawfulMonad.mk' (Traced ε)
  (fun x => congrArg (Traced.mk x.value) (List.append_nil x.events)) (fun _ _ => rfl)
  fun _ _ _ => congrArg (Traced.mk _) (List.append_assoc ..)

/-- A result alone records nothing. -/
@[simp] theorem events_pure (a : α) : (pure a : Traced ε α).events = [] := rfl

/-- The indices of a loop from `start` up to `stop`. -/
def indices (start stop : BitVec w) : List (BitVec w) :=
  (List.range' start.toNat (stop.toNat - start.toNat)).map (BitVec.ofNat w)

/-- `for (i = start; i < stop; ++i)`. -/
def forUp (start stop : BitVec w) (body : BitVec w → α → Traced ε α) (a : α) : Traced ε α :=
  (indices start stop).foldlM (fun a i => body i a) a

/-- The indices of a loop. -/
theorem mem_indices {start stop i : BitVec w} : i ∈ indices start stop ↔ start ≤ i ∧ i < stop := by
  simp only [indices, List.mem_map, List.mem_range'_1, BitVec.le_def, BitVec.lt_def]
  constructor
  · rintro ⟨n, hn, rfl⟩
    have := stop.isLt
    rw [BitVec.toNat_ofNat, Nat.mod_eq_of_lt (by omega)]
    omega
  · rintro ⟨hlo, hhi⟩
    exact ⟨i.toNat, by omega, by rw [BitVec.ofNat_toNat, BitVec.setWidth_eq]⟩

/-- The first index and the rest. -/
theorem indices_eq (start stop : BitVec w) : indices start stop =
    if start < stop then start :: indices (start + 1) stop else [] := by
  have hstop := stop.isLt
  split_ifs with h
  · rw [BitVec.lt_def] at h
    have hnext : (start + 1).toNat = start.toNat + 1 := by
      have hone : (1 : BitVec w).toNat = 1 :=
        (BitVec.toNat_ofNat ..).trans (Nat.mod_eq_of_lt (show 1 < 2 ^ w by omega))
      rw [BitVec.toNat_add, hone]
      exact Nat.mod_eq_of_lt (by omega)
    rw [indices, indices, hnext,
      show stop.toNat - start.toNat = stop.toNat - (start.toNat + 1) + 1 by omega,
      List.range'_succ, List.map_cons, BitVec.ofNat_toNat, BitVec.setWidth_eq]
  · rw [BitVec.lt_def] at h
    rw [indices, Nat.sub_eq_zero_of_le (by omega)]
    rfl

/-- One more index. -/
theorem indices_concat {start stop : BitVec w} (h : start ≤ stop) (hfit : stop.toNat + 1 < 2 ^ w) :
    indices start (stop + 1) = indices start stop ++ [stop] := by
  have hone : (1 : BitVec w).toNat = 1 :=
    (BitVec.toNat_ofNat ..).trans (Nat.mod_eq_of_lt (show 1 < 2 ^ w by omega))
  have hnext : (stop + 1).toNat = stop.toNat + 1 := by
    rw [BitVec.toNat_add, hone]
    exact Nat.mod_eq_of_lt hfit
  rw [BitVec.le_def] at h
  rw [indices, indices, hnext,
    show stop.toNat + 1 - start.toNat = stop.toNat - start.toNat + 1 by omega,
    List.range'_concat, List.map_append, Nat.one_mul, Nat.add_sub_cancel' h]
  simp

/-- The loop, as C has it. -/
theorem forUp_eq (start stop : BitVec w) (body : BitVec w → α → Traced ε α) (a : α) :
    forUp start stop body a =
      if start < stop then do forUp (start + 1) stop body (← body start a) else pure a := by
  rw [forUp, indices_eq]
  split_ifs
  · rw [List.foldlM_cons]
    rfl
  · rfl

/-- A loop without rounds. -/
theorem forUp_of_le {start stop : BitVec w} (h : stop ≤ start) (body : BitVec w → α → Traced ε α)
    (a : α) : forUp start stop body a = pure a := by
  rw [forUp_eq, if_neg (BitVec.not_lt.2 h)]

/-- A loop whose rounds do nothing. -/
theorem forUp_pure (start stop : BitVec w) (a : α) :
    forUp start stop (fun _ => pure) a = (pure a : Traced ε α) := by
  rw [forUp]
  generalize indices start stop = l
  induction l with
  | nil => rfl
  | cons i l ih => rw [List.foldlM_cons, pure_bind, ih]

/-- Only the elements of the list count. -/
theorem foldlM_congr {ι : Type} {l : List ι} {f g : α → ι → Traced ε α}
    (h : ∀ i ∈ l, ∀ a, f a i = g a i) (a : α) : l.foldlM f a = l.foldlM g a := by
  induction l generalizing a with
  | nil => rfl
  | cons i l ih =>
    rw [List.foldlM_cons, List.foldlM_cons, h i List.mem_cons_self]
    exact bind_congr fun a => ih (fun j hj => h j (List.mem_cons_of_mem _ hj)) a

/-- The value of a loop is that of the loop without its events. -/
theorem value_forUp (start stop : BitVec w) (body : BitVec w → α → Traced ε α) (a : α) :
    (forUp start stop body a).value = (indices start stop).foldl (fun a i =>
      (body i a).value) a := by
  rw [forUp]
  induction indices start stop generalizing a with
  | nil => rfl
  | cons i l ih => rw [List.foldlM_cons, List.foldl_cons, value_bind, ih]

/-- Only the rounds of the loop count. -/
theorem forUp_congr {start stop : BitVec w} {body body' : BitVec w → α → Traced ε α}
    (h : ∀ i, start ≤ i → i < stop → body i = body' i) (a : α) :
    forUp start stop body a = forUp start stop body' a :=
  foldlM_congr (fun i hi a => congrFun (h i (mem_indices.1 hi).1 (mem_indices.1 hi).2) a) a

/-- Counting from `0` instead of from `start`. -/
theorem forUp_shift {start n : BitVec w} (hfit : start.toNat + n.toNat < 2 ^ w)
    (body : BitVec w → α → Traced ε α) (a : α) :
    forUp 0 n (fun i => body (start + i)) a = forUp start (start + n) body a := by
  have hindices : indices start (start + n) = (indices 0 n).map (start + ·) := by
    have hzero : (0 : BitVec w).toNat = 0 := (BitVec.toNat_ofNat ..).trans (Nat.zero_mod _)
    rw [indices, indices, BitVec.toNat_add, Nat.mod_eq_of_lt hfit, Nat.add_sub_cancel_left,
      List.range'_eq_map_range, List.map_map, hzero, Nat.sub_zero, ← List.range_eq_range',
      List.map_map]
    refine List.map_congr_left fun i hi => BitVec.eq_of_toNat_eq ?_
    simp only [Function.comp_apply, BitVec.toNat_add, BitVec.toNat_ofNat, Nat.add_mod_mod]
  rw [forUp, forUp, hindices, List.foldlM_map]

/-- The events of a loop are those of its rounds, where these do not depend on the state. -/
theorem mem_events_forUp {start stop : BitVec w} {body : BitVec w → α → Traced ε α}
    {P : BitVec w → ε → Prop} (hbody : ∀ i a e, e ∈ (body i a).events ↔ P i e) {a : α} {e : ε} :
    e ∈ (forUp start stop body a).events ↔ ∃ i, start ≤ i ∧ i < stop ∧ P i e := by
  have hlist : ∀ (l : List (BitVec w)) a,
      e ∈ (l.foldlM (fun a i => body i a) a).events ↔ ∃ i ∈ l, P i e := by
    intro l
    induction l with
    | nil => simp
    | cons i l ih =>
      intro a
      rw [List.foldlM_cons]
      refine List.mem_append.trans ?_
      rw [hbody, ih]
      simp
  rw [forUp, hlist]
  simp only [mem_indices, and_assoc]

/-- A loop in a loop. -/
theorem forUp_forUp {u : ℕ} (start stop : BitVec w) (start' stop' : BitVec u)
    (body : BitVec w → BitVec u → α → Traced ε α) (a : α) :
    forUp start stop (fun i => forUp start' stop' (body i)) a =
      ((indices start stop).flatMap fun i => (indices start' stop').map (Prod.mk i)).foldlM
        (fun a p => body p.1 p.2 a) a := by
  rw [forUp]
  generalize indices start stop = l
  induction l generalizing a with
  | nil => rfl
  | cons i l ih =>
    rw [List.foldlM_cons, List.flatMap_cons, List.foldlM_append, List.foldlM_map]
    exact bind_congr ih

end Trace
