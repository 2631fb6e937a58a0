/-
# Computations that record what they do

A `Traced` value comes with the list of the events on the way to it.  The events
here are the accesses of code that reads a byte memory and computes offsets in 32
bits: loads, additions and subtractions.  A computation is safe when every event
satisfies a predicate; safety of a sequence is safety of its parts, with the
value of the first handed to the second.
-/

import SuiraBox.Library.ByteMem

namespace Trace

open ByteMem

/-- A value, and the events on the way to it. -/
structure Traced (ε α : Type) where
  value : α
  events : List ε

variable {ε α β : Type} {P Q : ε → Prop}

instance : Monad (Traced ε) where
  pure a := ⟨a, []⟩
  bind x f := ⟨(f x.value).value, x.events ++ (f x.value).events⟩

/-- A value that was got by one event. -/
def tell (e : ε) (a : α) : Traced ε α := ⟨a, [e]⟩

/-- Every event satisfies `P`. -/
def Safe (P : ε → Prop) (x : Traced ε α) : Prop := ∀ e ∈ x.events, P e

/-- A value that is returned. -/
@[simp] theorem value_pure (a : α) : (pure a : Traced ε α).value = a := rfl

/-- The value of a sequence does not depend on what the first part has recorded. -/
@[simp] theorem value_bind (x : Traced ε α) (f : α → Traced ε β) :
    (x >>= f).value = (f x.value).value := rfl

/-- Recording an access keeps the value. -/
@[simp] theorem value_tell (e : ε) (a : α) : (tell e a).value = a := rfl

/-- The value of a branch. -/
@[simp] theorem value_ite (c : Prop) [Decidable c] (x y : Traced ε α) :
    (if c then x else y).value = if c then x.value else y.value := by split_ifs <;> rfl

/-- A computation without accesses is safe. -/
@[simp] theorem safe_pure (a : α) : Safe P (pure a : Traced ε α) :=
  fun _ he => absurd he (by simp [pure])

/-- One access is safe when it satisfies the predicate. -/
@[simp] theorem safe_tell (e : ε) (a : α) : Safe P (tell e a) ↔ P e := by simp [Safe, tell]

/-- A sequence is safe when its parts are, the second one on the value of the first. -/
@[simp] theorem safe_bind (x : Traced ε α) (f : α → Traced ε β) :
    Safe P (x >>= f) ↔ Safe P x ∧ Safe P (f x.value) := by
  simp only [Safe, bind, List.mem_append]
  exact ⟨fun h => ⟨fun e he => h e (Or.inl he), fun e he => h e (Or.inr he)⟩,
    fun h e he => he.elim (h.1 e) (h.2 e)⟩

/-- A branch is safe when each side is safe where it is taken. -/
theorem safe_ite {c : Prop} [Decidable c] {x y : Traced ε α} (hx : c → Safe P x)
    (hy : ¬ c → Safe P y) : Safe P (if c then x else y) := by
  split_ifs with h
  · exact hx h
  · exact hy h

/-- A weaker predicate holds of no fewer accesses. -/
theorem Safe.mono {x : Traced ε α} (h : Safe P x) (hPQ : ∀ e, P e → Q e) : Safe Q x :=
  fun e he => hPQ e (h e he)

/-- Going on with the value there is, or stopping with `stop`. -/
def onSome (x : Traced ε (Option α)) (stop : β) (f : α → Traced ε β) : Traced ε β := do
  match ← x with
  | none => pure stop
  | some a => f a

/-- Going on only with a result: the value. -/
@[simp] theorem value_onSome (x : Traced ε (Option α)) (stop : β) (f : α → Traced ε β) :
    (onSome x stop f).value = x.value.elim stop fun a => (f a).value := by
  rw [onSome, value_bind]
  cases x.value with
  | none => rfl
  | some a => rfl

/-- Going on only with a result: the second part counts only if there is one. -/
theorem safe_onSome {x : Traced ε (Option α)} {stop : β} {f : α → Traced ε β} :
    Safe P (onSome x stop f) ↔ Safe P x ∧ ∀ a, x.value = some a → Safe P (f a) := by
  rw [onSome, safe_bind]
  cases x.value with
  | none => simp
  | some a => simp

/-! ### Accesses -/

/-- What code that walks a block of memory does. -/
inductive Access
  | load (a n : ℕ)
  | add (x y : BitVec 32)
  | sub (x y : BitVec 32)

/-- Loads stay inside the `len` bytes from `base` on, and no sum or difference
wraps around. -/
def Access.Within (base len : ℕ) : Access → Prop
  | .load a n => base ≤ a ∧ a + n ≤ base + len
  | .add x y => x.toNat + y.toNat < 2 ^ 32
  | .sub x y => y.toNat ≤ x.toNat

def load8 (m : Mem) (a : ℕ) : Traced Access (BitVec 8) := tell (.load a 1) (m a)

def load32 (m : Mem) (a : ℕ) : Traced Access (BitVec 32) := tell (.load a 4) (read32 m a)

def load64 (m : Mem) (a : ℕ) : Traced Access (BitVec 64) := tell (.load a 8) (read64 m a)

def add32 (x y : BitVec 32) : Traced Access (BitVec 32) := tell (.add x y) (x + y)

def sub32 (x y : BitVec 32) : Traced Access (BitVec 32) := tell (.sub x y) (x - y)

/-- A load of one byte has the byte as its value. -/
@[simp] theorem value_load8 (m : Mem) (a : ℕ) : (load8 m a).value = m a := rfl

/-- A load of 32 bits. -/
@[simp] theorem value_load32 (m : Mem) (a : ℕ) : (load32 m a).value = read32 m a := rfl

/-- A checked subtraction has the wrapped difference as its value. -/
@[simp] theorem value_sub32 (x y : BitVec 32) : (sub32 x y).value = x - y := rfl

section Within

variable {base len : ℕ}

/-- A byte is read inside the range when its address is. -/
@[simp] theorem within_load8 (m : Mem) (a : ℕ) :
    Safe (Access.Within base len) (load8 m a) ↔ base ≤ a ∧ a + 1 ≤ base + len := safe_tell ..

/-- Four bytes are read inside the range when all of them are. -/
@[simp] theorem within_load32 (m : Mem) (a : ℕ) :
    Safe (Access.Within base len) (load32 m a) ↔ base ≤ a ∧ a + 4 ≤ base + len := safe_tell ..

/-- Eight bytes are read inside the range when all of them are. -/
@[simp] theorem within_load64 (m : Mem) (a : ℕ) :
    Safe (Access.Within base len) (load64 m a) ↔ base ≤ a ∧ a + 8 ≤ base + len := safe_tell ..

/-- A checked addition is safe when it does not wrap. -/
@[simp] theorem within_add32 (x y : BitVec 32) :
    Safe (Access.Within base len) (add32 x y) ↔ x.toNat + y.toNat < 2 ^ 32 := safe_tell ..

/-- A checked subtraction is safe when it does not go below zero. -/
@[simp] theorem within_sub32 (x y : BitVec 32) :
    Safe (Access.Within base len) (sub32 x y) ↔ y.toNat ≤ x.toNat := safe_tell ..

end Within

/-! ### Scanning a string -/

/-- A loop over the bytes from `p` on, until one of them, byte number `i`, gives an
answer. -/
def scan {β : Type} (m : Mem) (answer : ℕ → BitVec 8 → Option β) :
    ℕ → ℕ → BitVec 64 → Traced Access (Option β)
  | 0, _, _ => pure none
  | fuel + 1, i, p => do
    let c ← load8 m p.toNat
    match answer i c with
    | some r => pure (some r)
    | none => scan m answer fuel (i + 1) (p + 1)

section Scan

variable {m : Mem} {answer : ℕ → BitVec 8 → Option β} {base len fuel i : ℕ} {p : BitVec 64}

/-- One round of a scan: the byte at `p` answers, or the scan goes on. -/
theorem value_scan_succ (m : Mem) (answer : ℕ → BitVec 8 → Option β) (fuel i : ℕ) (p : BitVec 64) :
    (scan m answer (fuel + 1) i p).value =
      match answer i (m p.toNat) with
      | some r => some r
      | none => (scan m answer fuel (i + 1) (p + 1)).value := by
  rw [scan, value_bind, value_load8]
  cases answer i (m p.toNat) with
  | some r => rfl
  | none => rfl

/-- One round of a scan reads one byte, and the others only if that one does not answer. -/
theorem safe_scan_succ {P : Access → Prop} : Safe P (scan m answer (fuel + 1) i p) ↔
    P (.load p.toNat 1) ∧
      (answer i (m p.toNat) = none → Safe P (scan m answer fuel (i + 1) (p + 1))) := by
  rw [scan, safe_bind, load8, safe_tell, value_tell]
  cases answer i (m p.toNat) with
  | some r => simp
  | none => simp

/-- A scan that has stayed inside has found its answer there. -/
theorem scan_answer (hfit : base + len < 2 ^ 64) {r : β}
    (hvalue : (scan m answer fuel i p).value = some r)
    (hsafe : Safe (Access.Within base len) (scan m answer fuel i p)) :
    ∃ k, p.toNat + k < base + len ∧ answer (i + k) (m (p.toNat + k)) = some r ∧
      ∀ j < k, answer (i + j) (m (p.toNat + j)) = none := by
  induction fuel generalizing i p with
  | zero => exact absurd hvalue (by simp [scan])
  | succ fuel ih =>
    rw [value_scan_succ] at hvalue
    obtain ⟨hload, hrest⟩ := safe_scan_succ.1 hsafe
    have hin : p.toNat + 1 ≤ base + len := hload.2
    rcases hanswer : answer i (m p.toNat) with _ | r'
    · rw [hanswer] at hvalue
      have hnext : (p + 1).toNat = p.toNat + 1 := by bv_omega
      obtain ⟨k, hk, hat, hbefore⟩ := ih hvalue (hrest hanswer)
      rw [hnext] at hk hat hbefore
      refine ⟨k + 1, by omega, ?_, fun j hj => ?_⟩
      · rw [show i + (k + 1) = i + 1 + k by omega,
          show p.toNat + (k + 1) = p.toNat + 1 + k by omega]
        exact hat
      · rcases j with _ | j
        · exact hanswer
        · rw [show i + (j + 1) = i + 1 + j by omega,
            show p.toNat + (j + 1) = p.toNat + 1 + j by omega]
          exact hbefore j (by omega)
    · rw [hanswer] at hvalue
      exact ⟨0, by omega, hanswer.trans hvalue, fun j hj => absurd hj (Nat.not_lt_zero j)⟩

/-- A scan with an answer inside stays inside, and finds one. -/
theorem scan_within (hfit : base + len < 2 ^ 64) (hbase : base ≤ p.toNat) {k : ℕ}
    (hk : p.toNat + k < base + len) (hanswer : answer (i + k) (m (p.toNat + k)) ≠ none) (fuel : ℕ)
    (hfuel : k < fuel) :
    Safe (Access.Within base len) (scan m answer fuel i p) ∧
      (scan m answer fuel i p).value ≠ none := by
  induction k generalizing i p fuel with
  | zero =>
    obtain ⟨fuel, rfl⟩ := Nat.exists_eq_succ_of_ne_zero (by omega : fuel ≠ 0)
    obtain ⟨r, hr⟩ := Option.ne_none_iff_exists'.1 hanswer
    have hr : answer i (m p.toNat) = some r := hr
    rw [safe_scan_succ, value_scan_succ, hr]
    exact ⟨⟨⟨hbase, by omega⟩, fun h => absurd h (by simp)⟩, by simp⟩
  | succ k ih =>
    obtain ⟨fuel, rfl⟩ := Nat.exists_eq_succ_of_ne_zero (by omega : fuel ≠ 0)
    have hnext : (p + 1).toNat = p.toNat + 1 := by bv_omega
    have hrest := ih (i := i + 1) (p := p + 1) (by omega) (by omega)
      (by rwa [hnext, Nat.add_right_comm i, Nat.add_right_comm p.toNat]) fuel (by omega)
    rw [safe_scan_succ, value_scan_succ]
    refine ⟨⟨⟨hbase, by omega⟩, fun _ => hrest.1⟩, ?_⟩
    cases answer i (m p.toNat) with
    | some r => simp
    | none => exact hrest.2

end Scan

end Trace
