/-
# Round robin

`scheduler_pick_next` and `sb_timer_tick` on tables in which every task can run: the table is a
ring, and a selection moves to the next place of it.  The general facts about rings are those of
the library; here the code is shown to go around one.

* While tasks are added, the ring grows at its end.  Between two selections of a task every other
  task is selected once.
* While the timer ticks, every task keeps the processor's time for a quantum of 10 ticks.  The
  ticks charged to two tasks differ by a quantum at most.
-/

import SuiraBox.Library.Rotation
import SuiraBox.Sched.CurrentTask
import Mathlib.Data.List.ReduceOption

namespace SuiraBox.Sched

open Runs Rotation

/-! ### Adding and selecting -/

/-- The calls that add and select tasks. -/
inductive RotationCall
  | addKernelTask (id : U64) (priority : U32)
  | pickNext

/-- One call; the answer is the task that it selects. -/
def rotationStep (s : Scheduler) : RotationCall → Option ℕ × Scheduler
  | .addKernelTask id priority => (none, (schedulerAddKernelTask s id priority).2)
  | .pickNext => schedulerPickNext s

/-- The tasks that are selected, in order. -/
def selections (s : Scheduler) (calls : List RotationCall) : List ℕ :=
  (outputs rotationStep s calls).reduceOption

variable {s : Scheduler}

/-- A selection answers with the task that is current after it. -/
theorem TableInv.pickNext_answer (h : TableInv s) :
    (schedulerPickNext s).1 = some (schedulerPickNext s).2.currentIndex := by
  rw [schedulerPickNext, if_neg (Nat.zero_lt_of_lt h.current_lt).ne']

/-- A task more, or none, at the end of the table. -/
theorem schedulerAddKernelTask_index (s : Scheduler) (id : U64) (priority : U32) :
    (schedulerAddKernelTask s id priority).2.currentIndex = s.currentIndex ∧
      s.taskCount ≤ (schedulerAddKernelTask s id priority).2.taskCount := by
  rw [schedulerAddKernelTask]
  split_ifs
  · exact ⟨rfl, le_rfl⟩
  · exact ⟨rfl, le_rfl⟩
  · exact ⟨rfl, Nat.le_succ _⟩

/-- Every call keeps the invariant of the table. -/
theorem rotationStep_inv (s : Scheduler) (call : RotationCall) (h : TableInv s) :
    TableInv (rotationStep s call).2 := by
  cases call with
  | addKernelTask id priority => exact schedulerAddKernelTask_inv h id priority
  | pickNext => exact (schedulerPickNext_inv h).1

/-- The selections of a run are turns on a ring that grows. -/
theorem selections_eq_turns (h : TableInv s) (calls : List RotationCall) :
    ∃ sizes : List ℕ, (∀ n ∈ sizes, s.taskCount ≤ n) ∧ sizes.Pairwise (· ≤ ·) ∧
      selections s calls = turns s.currentIndex sizes := by
  induction calls generalizing s with
  | nil => exact ⟨[], fun n hn => absurd hn List.not_mem_nil, List.Pairwise.nil, rfl⟩
  | cons call calls ih =>
    obtain ⟨sizes, hle, hgrow, hsel⟩ := ih (rotationStep_inv s call h)
    cases call with
    | addKernelTask id priority =>
      obtain ⟨hcur, hcount⟩ := schedulerAddKernelTask_index s id priority
      refine ⟨sizes, fun n hn => hcount.trans (hle n hn), hgrow, ?_⟩
      rw [← hcur]
      exact hsel
    | pickNext =>
      obtain ⟨-, hcur, hcount⟩ := schedulerPickNext_inv h
      rw [rotationStep, hcount] at hle
      refine ⟨s.taskCount :: sizes, fun n hn => ?_, List.pairwise_cons.2 ⟨hle, hgrow⟩, ?_⟩
      · rcases List.mem_cons.1 hn with rfl | hn
        · exact le_rfl
        · exact hle n hn
      · rw [turns, ← hcur, selections, outputs, rotationStep, h.pickNext_answer,
          List.reduceOption_cons_of_some]
        exact congrArg _ hsel

/-- **Round robin.**  In every run from `scheduler_init` of calls that add and select tasks, between
two selections of a task `i` with no selection of `i` between them, every other task that was in
the table at the first of them is selected exactly once. -/
theorem selected_once_between (s : Scheduler) (before between : List RotationCall) (i : ℕ) :
    let first := schedulerPickNext (run rotationStep (schedulerInit s) before)
    let second := schedulerPickNext (run rotationStep first.2 between)
    first.1 = some i → second.1 = some i → i ∉ selections first.2 between →
      ∀ j < first.2.taskCount, j ≠ i → (selections first.2 between).count j = 1 := by
  intro first second hfirst hsecond hbetween j hj hne
  have hbefore : TableInv (run rotationStep (schedulerInit s) before) :=
    run_invariant rotationStep_inv before (schedulerInit_inv s)
  have hinv : TableInv first.2 := (schedulerPickNext_inv hbefore).1
  have hcur : first.2.currentIndex = i :=
    Option.some.inj (hbefore.pickNext_answer.symm.trans hfirst)
  obtain ⟨sizes, hle, hgrow, hsel⟩ := selections_eq_turns hinv (between ++ [.pickNext])
  have hturns : turns i sizes = selections first.2 between ++ [i] := by
    rw [← hcur, ← hsel, hcur, selections, outputs_append, List.reduceOption_append]
    change _ ++ [second.1].reduceOption = _
    rw [hsecond]
    rfl
  exact count_turns (hcur ▸ hinv.current_lt) hle hgrow hturns hbetween hj hne

/-- Three tasks; while the selections go from slot `1` once around, a fourth one is added. -/
theorem fourth_task_added :
    let s : Scheduler := schedulerInit ⟨fun _ => clearTask, 0, 0, 0⟩
    let first := schedulerPickNext (run rotationStep s [.addKernelTask 2 128, .addKernelTask 3 128])
    let between : List RotationCall := [.pickNext, .addKernelTask 4 128, .pickNext, .pickNext]
    selections first.2 between = [2, 3, 0] ∧ (selections first.2 between).count 0 = 1 :=
  ⟨by decide, selected_once_between ⟨fun _ => clearTask, 0, 0, 0⟩
    [.addKernelTask 2 128, .addKernelTask 3 128] [.pickNext, .addKernelTask 4 128, .pickNext,
      .pickNext] 1
    (by decide) (by decide) (by decide) 0 (by decide) (by decide)⟩

/-! ### The timer -/

/-- The state after `N` ticks from `start`: the current task is the one that `N / 10` quanta lead
to, and every task has been charged its share. -/
structure Ticked (start : Scheduler) (N : ℕ) (k : Clocked) : Prop extends Rotating k.sched where
  ticks : k.ticks.toNat = N
  count : k.sched.taskCount = start.taskCount
  current : k.sched.currentIndex = (start.currentIndex + N / 10) % start.taskCount
  charged : ∀ i < start.taskCount, (k.sched.tasks i).runtimeTicks.toNat =
    share 10 start.taskCount start.currentIndex N i

theorem ticked_zero (h : Rotating s) (hzero : ∀ i < s.taskCount, (s.tasks i).runtimeTicks = 0) :
    Ticked s 0 ⟨s, 0⟩ := by
  refine ⟨h, rfl, rfl, ?_, fun i hi => ?_⟩
  · rw [Nat.zero_div, Nat.add_zero, Nat.mod_eq_of_lt h.current_lt]
  · rw [hzero i hi]
    rfl

/-- A selection changes no counter. -/
theorem Rotating.pickNext_runtimeTicks (h : Rotating s) (i : ℕ) :
    ((schedulerPickNext s).2.tasks i).runtimeTicks = (s.tasks i).runtimeTicks := by
  rw [h.pickNext_eq]
  exact (setState_runtimeTicks ..).1.trans (setState_runtimeTicks ..).1

/-- What a tick charges. -/
theorem Rotating.tick_runtimeTicks (h : Rotating s) (i : ℕ) :
    ((schedulerTick s).tasks i).runtimeTicks =
      if s.currentIndex = i then (s.tasks i).runtimeTicks + 1 else (s.tasks i).runtimeTicks := by
  rw [h.tick_eq]
  split_ifs with hi
  · rw [← hi, setTask_self]
  · rw [setTask_of_ne s (Ne.symm hi)]

/-- One tick more. -/
theorem Ticked.tick {start : Scheduler} {N : ℕ} {k : Clocked} (h : Ticked start N k)
    (hN : N + 1 < 2 ^ 64) : Ticked start (N + 1) (sbTimerTick k) := by
  have hticks : (k.ticks + 1).toNat = N + 1 := by
    rw [BitVec.toNat_add, h.ticks, show (1 : U64).toNat = 1 from rfl, Nat.mod_eq_of_lt hN]
  have hquantum : (k.ticks + 1) % 10 = 0 ↔ (N + 1) % 10 = 0 := by
    rw [← hticks, BitVec.toNat_eq]
    rfl
  have hcharged : ∀ i < start.taskCount, ((schedulerTick k.sched).tasks i).runtimeTicks.toNat =
      share 10 start.taskCount start.currentIndex (N + 1) i := by
    intro i hi
    have hle := share_le 10 start.taskCount start.currentIndex N i
    rw [h.toRotating.tick_runtimeTicks, share_succ, ← h.current]
    split_ifs
    · rw [BitVec.toNat_add, h.charged i hi]
      exact Nat.mod_eq_of_lt (lt_of_le_of_lt (Nat.succ_le_succ hle) hN)
    · exact h.charged i hi
  obtain ⟨hcur, hcount⟩ := schedulerTick_index k.sched
  rw [sbTimerTick]
  split_ifs with hq
  · -- the quantum is over, and there is another task
    refine ⟨h.toRotating.tick.pickNext, hticks, ?_, ?_, fun i hi => ?_⟩
    · rw [h.toRotating.tick.pickNext_eq]
      exact hcount.trans h.count
    · have hdiv : (N + 1) / 10 = N / 10 + 1 := by
        have := hquantum.1 hq.1
        omega
      rw [h.toRotating.tick.pickNext_eq, hcur, hcount, h.count, h.current, hdiv, Nat.mod_add_mod,
        Nat.add_assoc]
    · rw [h.toRotating.tick.pickNext_runtimeTicks]
      exact hcharged i hi
  · refine ⟨h.toRotating.tick, hticks, hcount.trans h.count, ?_, hcharged⟩
    rw [hcur, h.current]
    rw [schedulerTaskCount, hcount, h.count, hquantum] at hq
    rcases Decidable.em ((N + 1) % 10 = 0) with hover | hin
    · have hone : start.taskCount = 1 := by
        have := h.current_lt
        have := h.count
        omega
      rw [hone, Nat.mod_one, Nat.mod_one]
    · rw [show (N + 1) / 10 = N / 10 by omega]

/-- The run: after `N` ticks every task has its share. -/
theorem ticked_iterate (h : Rotating s) (hzero : ∀ i < s.taskCount, (s.tasks i).runtimeTicks = 0)
    {N : ℕ} (hN : N < 2 ^ 64) : Ticked s N (sbTimerTick^[N] ⟨s, 0⟩) := by
  induction N with
  | zero => exact ticked_zero h hzero
  | succ N ih =>
    rw [Function.iterate_succ_apply']
    exact (ih (by omega)).tick hN

/-- **The timer shares time evenly.**  From a table whose tasks can all run, with the current one
running and no ticks charged, and any number of `sb_timer_tick` calls: the ticks charged to the
tasks are the ticks there were, and no two tasks are more than a quantum apart. -/
theorem timer_shares_evenly (hcur : s.currentIndex < s.taskCount)
    (hrunning : (s.tasks s.currentIndex).state = .running)
    (hrunnable : ∀ i < s.taskCount, Runnable (s.tasks i))
    (hzero : ∀ i < s.taskCount, (s.tasks i).runtimeTicks = 0) {N : ℕ} (hN : N < 2 ^ 64) :
    let t := (sbTimerTick^[N] ⟨s, 0⟩).sched
    ∑ i ∈ Finset.range s.taskCount, (t.tasks i).runtimeTicks.toNat = N ∧
    ∀ i < s.taskCount, ∀ j < s.taskCount,
      (t.tasks i).runtimeTicks.toNat ≤ (t.tasks j).runtimeTicks.toNat + 10 := by
  intro t
  have h := ticked_iterate ⟨hcur, hrunning, hrunnable⟩ hzero hN
  constructor
  · rw [Finset.sum_congr rfl fun i hi => h.charged i (Finset.mem_range.1 hi)]
    exact sum_share (Nat.zero_lt_of_lt hcur) N
  · intro i hi j hj
    rw [h.charged i hi, h.charged j hj]
    exact share_le_add (by decide) hcur hi hj N

/-- Three tasks, of which the second one runs. -/
def threeTasks : Scheduler where
  tasks i :=
    { clearTask with id := BitVec.ofNat 64 (i + 1), state := if i = 1 then .running else .ready }
  taskCount := 3
  currentIndex := 1
  tickCount := 0

/-- Three tasks after a million ticks. -/
theorem threeTasks_share :
    let t := (sbTimerTick^[1000003] ⟨threeTasks, 0⟩).sched
    ∑ i ∈ Finset.range 3, (t.tasks i).runtimeTicks.toNat = 1000003 ∧
    ∀ i < 3, ∀ j < 3, (t.tasks i).runtimeTicks.toNat ≤ (t.tasks j).runtimeTicks.toNat + 10 :=
  timer_shares_evenly (s := threeTasks) (by decide) rfl (by decide) (fun _ _ => rfl) (by decide)

end SuiraBox.Sched
