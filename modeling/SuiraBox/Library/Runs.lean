/-
# Runs of a machine

A machine is a step function from a state and an input to an output and a next
state.  `run` feeds it a list of inputs, `outputs` collects what it answers.
An invariant and a simulation are each checked on one step and then hold along
every run.

A loop without input, on finitely many states, stops exactly when it comes to no
state twice.  A chain of links is a loop whose step may have no next state.
-/

import Mathlib.Data.List.Basic
import Mathlib.Data.List.Induction
import Mathlib.Data.List.Infix
import Mathlib.Dynamics.PeriodicPts.Defs
import Mathlib.Data.Fintype.Pigeonhole

namespace Runs

variable {σ τ ι ο : Type*}

/-- The state after a list of inputs. -/
def run (step : σ → ι → ο × σ) : σ → List ι → σ
  | s, [] => s
  | s, i :: is => run step (step s i).2 is

/-- The outputs along a list of inputs. -/
def outputs (step : σ → ι → ο × σ) : σ → List ι → List ο
  | _, [] => []
  | s, i :: is => (step s i).1 :: outputs step (step s i).2 is

/-- An empty run stays where it is. -/
@[simp] theorem run_nil (step : σ → ι → ο × σ) (s : σ) : run step s [] = s := rfl

/-- The first step of a run. -/
@[simp] theorem run_cons (step : σ → ι → ο × σ) (s : σ) (i : ι) (is : List ι) :
    run step s (i :: is) = run step (step s i).2 is := rfl

/-- A run in two parts. -/
theorem run_append (step : σ → ι → ο × σ) (s : σ) (is js : List ι) :
    run step s (is ++ js) = run step (run step s is) js := by
  induction is generalizing s with
  | nil => rfl
  | cons i is ih => exact ih _

/-- The outputs of a run in two parts. -/
theorem outputs_append (step : σ → ι → ο × σ) (s : σ) (is js : List ι) :
    outputs step s (is ++ js) = outputs step s is ++ outputs step (run step s is) js := by
  induction is generalizing s with
  | nil => rfl
  | cons i is ih => exact congrArg _ (ih _)

/-- **Invariant rule.**  What every step keeps, every run keeps. -/
theorem run_invariant {step : σ → ι → ο × σ} {P : σ → Prop} (hstep : ∀ s i, P s → P (step s i).2)
    (is : List ι) {s : σ} (hs : P s) : P (run step s is) := by
  induction is generalizing s with
  | nil => exact hs
  | cons i is ih => exact ih (hstep s i hs)

/-- The same when only the inputs of the run have to keep it. -/
theorem run_invariant_of_mem {step : σ → ι → ο × σ} {P : σ → Prop} {is : List ι}
    (hstep : ∀ s, ∀ i ∈ is, P s → P (step s i).2) {s : σ} (hs : P s) : P (run step s is) := by
  induction is generalizing s with
  | nil => exact hs
  | cons i is ih =>
    exact ih (fun s j hj => hstep s j (List.mem_cons_of_mem i hj))
      (hstep s i (List.mem_cons_self ..) hs)

/-- The last step of a run. -/
theorem run_concat (step : σ → ι → ο × σ) (s : σ) (is : List ι) (i : ι) :
    run step s (is ++ [i]) = (step (run step s is) i).2 := by
  rw [run_append]
  rfl

/-- **First-failure rule.**  If a step keeps `P` exactly under the condition `C`, then `P` holds in
every state of a run exactly when all steps of the run meet the condition. -/
theorem run_prefix_iff {step : σ → ι → ο × σ} {I P : σ → Prop} {C : σ → ι → Prop}
    (hI : ∀ s i, I s → I (step s i).2) (hC : ∀ s i, I s → P s → (P (step s i).2 ↔ C s i))
    (is : List ι) {s : σ} (hs : I s) (h₀ : P s) :
    (∀ done, done <+: is → P (run step s done)) ↔
      ∀ done i, done ++ [i] <+: is → C (run step s done) i := by
  constructor
  · intro hall done i hpre
    refine (hC _ i (run_invariant hI done hs)
      (hall done ((List.prefix_append done [i]).trans hpre))).1 ?_
    rw [← run_concat]
    exact hall _ hpre
  · intro hcond done
    -- induction on the part of the run done so far
    induction done using List.reverseRecOn with
    | nil => exact fun _ => h₀
    | append_singleton done i ih =>
      intro hpre
      rw [run_concat]
      exact (hC _ i (run_invariant hI done hs) (ih ((List.prefix_append done [i]).trans hpre))).2
        (hcond done i hpre)

/-- **Simulation rule.**  A relation that every pair of equal steps keeps, with
equal outputs, relates the states after every run and makes the outputs equal. -/
theorem run_simulation {step : σ → ι → ο × σ} {step' : τ → ι → ο × τ} {R : σ → τ → Prop}
    (hstep : ∀ s t i, R s t → (step s i).1 = (step' t i).1 ∧ R (step s i).2 (step' t i).2)
    (is : List ι) {s : σ} {t : τ} (h : R s t) :
    outputs step s is = outputs step' t is ∧ R (run step s is) (run step' t is) := by
  induction is generalizing s t with
  | nil => exact ⟨rfl, h⟩
  | cons i is ih =>
    obtain ⟨hout, hnext⟩ := hstep s t i h
    obtain ⟨houts, hrel⟩ := ih hnext
    exact ⟨by rw [outputs, outputs, hout, houts], hrel⟩

/-- **Stopping rule.**  A loop that goes on as long as `P` holds comes to an end if and
only if it visits no state twice. -/
theorem exists_stop_iff {α : Type*} [Finite α] (f : α → α) (P : α → Prop) (a : α) :
    (∃ k, ¬ P (f^[k] a)) ↔
      ∀ i j, i < j → (∀ k < j, P (f^[k] a)) → f^[i] a ≠ f^[j] a := by
  constructor
  · rintro ⟨k, hk⟩ i j hij hgo heq
    -- from `i` on the loop is periodic, so it never leaves the states before `j`
    have hjk : j ≤ k := Nat.le_of_not_lt fun hkj => hk (hgo k hkj)
    have hperiod : Function.IsPeriodicPt f (j - i) (f^[i] a) := by
      change f^[j - i] (f^[i] a) = f^[i] a
      rw [← Function.iterate_add_apply, Nat.sub_add_cancel hij.le, heq]
    have hmod : f^[(k - i) % (j - i) + i] a = f^[k] a := by
      rw [Function.iterate_add_apply, hperiod.iterate_mod_apply, ← Function.iterate_add_apply,
        Nat.sub_add_cancel (hij.le.trans hjk)]
    have hlt := Nat.mod_lt (k - i) (Nat.sub_pos_of_lt hij)
    exact hk (hmod ▸ hgo _ (by omega))
  · intro hfresh
    by_contra hgo
    have hgo : ∀ k, P (f^[k] a) := fun k => not_not.1 fun hk => hgo ⟨k, hk⟩
    obtain ⟨i, j, hne, heq⟩ := Finite.exists_ne_map_eq_of_infinite fun k => f^[k] a
    rcases Nat.lt_or_gt_of_ne hne with hlt | hlt
    · exact hfresh i j hlt (fun k _ => hgo k) heq
    · exact hfresh j i hlt (fun k _ => hgo k) heq.symm

/-! ### Chains of links -/

section Follow

variable {α : Type*} {f : α → Option α} {a : α} {m n : ℕ}

/-- What `n` links lead to from `a`, if the chain is that long. -/
def follow (f : α → Option α) (n : ℕ) (a : α) : Option α := (fun o => o.bind f)^[n] (some a)

/-- Following no link. -/
@[simp] theorem follow_zero (f : α → Option α) (a : α) : follow f 0 a = some a := rfl

/-- There is nothing behind the end of a chain. -/
theorem follow_none (f : α → Option α) (n : ℕ) : (fun o : Option α => o.bind f)^[n] none = none :=
  Function.iterate_fixed rfl n

/-- The first link, then the rest of the chain. -/
theorem follow_succ (f : α → Option α) (n : ℕ) (a : α) :
    follow f (n + 1) a = (f a).bind (follow f n) := by
  rw [follow, Function.iterate_succ_apply, Option.bind_some]
  cases f a with
  | none => exact follow_none f n
  | some b => rfl

/-- The chain up to its last link, then that one. -/
theorem follow_succ' (f : α → Option α) (n : ℕ) (a : α) :
    follow f (n + 1) a = (follow f n a).bind f := by
  rw [follow, Function.iterate_succ_apply', follow]

/-- A walk in two parts. -/
theorem follow_add (f : α → Option α) (m n : ℕ) (a : α) :
    follow f (m + n) a = (follow f m a).bind (follow f n) := by
  induction m generalizing a with
  | zero => rw [Nat.zero_add, follow_zero, Option.bind_some]
  | succ m ih =>
    rw [Nat.succ_add, follow_succ, follow_succ, Option.bind_assoc]
    exact congrArg _ (funext ih)

/-- What holds of the start, and of whatever a link leads to, holds along the chain. -/
theorem follow_invariant {P : α → Prop} (hlink : ∀ {b c}, f b = some c → P c) (ha : P a) {d : α}
    (h : follow f n a = some d) : P d := by
  cases n with
  | zero =>
    obtain rfl := Option.some.inj h
    exact ha
  | succ n =>
    rw [follow_succ'] at h
    obtain ⟨c, -, hc⟩ := Option.bind_eq_some_iff.1 h
    exact hlink hc

/-- A chain that has `n` links has all shorter ones. -/
theorem follow_isSome_of_le (hmn : m ≤ n) (h : (follow f n a).isSome) : (follow f m a).isSome := by
  induction n with
  | zero => rwa [Nat.le_zero.1 hmn]
  | succ n ih =>
    rcases Nat.of_le_succ hmn with hlt | rfl
    · rw [follow_succ'] at h
      exact ih hlt (Option.isSome_of_isSome_bind h)
    · exact h

end Follow

end Runs
