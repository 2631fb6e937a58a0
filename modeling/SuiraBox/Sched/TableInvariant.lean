/-
# The task table over whole runs

What holds of the table of `kernel/scheduler.c` after `scheduler_init` and any calls
of `scheduler_add_kernel_task`, `scheduler_tick`, `scheduler_pick_next`,
`scheduler_switch_to` and `sb_timer_tick`: the current task is the only running
one, ids are not zero and not given twice, the slots that are not in use are
cleared, and every tick has been charged to some task.

`TableInv` says why: all tasks of the table are runnable, so a selection always
moves to the next slot, and no task has a saved context, so
`scheduler_switch_to` returns at once.
-/

import SuiraBox.Sched.CurrentTask
import Mathlib.Algebra.BigOperators.Group.Finset.Basic

namespace SuiraBox.Sched

open Runs

/-- The calls that act on the table and on the clock. -/
inductive TableCall
  | addKernelTask (id : U64) (priority : U32)
  | tick
  | pickNext
  | switchTo (next : Option (Fin 64)) (saved : TaskContext)
  | timerTick

/-- One call. -/
def tableStep (k : Clocked) : TableCall → Unit × Clocked
  | .addKernelTask id priority =>
    ((), { k with sched := (schedulerAddKernelTask k.sched id priority).2 })
  | .tick => ((), { k with sched := schedulerTick k.sched })
  | .pickNext => ((), { k with sched := (schedulerPickNext k.sched).2 })
  | .switchTo next saved =>
    ((), { k with sched := (schedulerSwitchTo k.sched (next.map Fin.val) saved).2 })
  | .timerTick => ((), sbTimerTick k)

/-- The ticks charged to the tasks of the table. -/
def chargedTicks (s : Scheduler) : ℕ := ∑ i ∈ Finset.range maxTasks, (s.tasks i).runtimeTicks.toNat

/-- What every run keeps, besides `TableInv`. -/
structure TableOk (s : Scheduler) : Prop extends TableInv s where
  sole : ∀ i < s.taskCount, (s.tasks i).state = .running → i = s.currentIndex
  id_ne : ∀ i < s.taskCount, (s.tasks i).id ≠ 0
  id_inj : ∀ i < s.taskCount, ∀ j < s.taskCount, (s.tasks i).id = (s.tasks j).id → i = j
  cleared : ∀ i, s.taskCount ≤ i → i < maxTasks → s.tasks i = clearTask
  charged : chargedTicks s % 2 ^ 64 = (schedulerTicks s).toNat

/-- The table is in order after `scheduler_init`. -/
theorem schedulerInit_ok (s : Scheduler) : TableOk (schedulerInit s) := by
  have hcount : (schedulerInit s).taskCount = 1 := rfl
  have hzero : ∀ {i}, i < (schedulerInit s).taskCount → i = 0 := fun hi => by
    rw [hcount] at hi
    omega
  have hcleared : ∀ i, 1 ≤ i → i < maxTasks → (schedulerInit s).tasks i = clearTask := by
    intro i h₁ h₂
    change (Scheduler.setTask _ 0 _).tasks i = clearTask
    rw [setTask_of_ne _ (by omega)]
    exact if_pos h₂
  refine ⟨schedulerInit_inv s, fun i hi _ => hzero hi, fun i hi => ?_, fun i hi j hj _ => ?_,
    hcleared, ?_⟩
  · rw [hzero hi]
    simp [schedulerInit]
  · rw [hzero hi, hzero hj]
  · have hticks : ∀ i ∈ Finset.range maxTasks,
        ((schedulerInit s).tasks i).runtimeTicks.toNat = 0 := by
      intro i hi
      rcases Nat.eq_zero_or_pos i with rfl | hpos
      · simp [schedulerInit, clearTask]
      · rw [hcleared i hpos (Finset.mem_range.1 hi)]
        rfl
    rw [chargedTicks, Finset.sum_eq_zero hticks]
    rfl

/-- The sum after one task has been charged a tick. -/
theorem chargedTicks_setTask (s : Scheduler) {c : ℕ} (hc : c < maxTasks) {t : Task}
    (ht : t.runtimeTicks = (s.tasks c).runtimeTicks + 1) :
    chargedTicks (s.setTask c t) % 2 ^ 64 = (chargedTicks s + 1) % 2 ^ 64 := by
  have hmem : c ∈ Finset.range maxTasks := Finset.mem_range.2 hc
  have hrest : ∑ i ∈ (Finset.range maxTasks).erase c, ((s.setTask c t).tasks i).runtimeTicks.toNat =
      ∑ i ∈ (Finset.range maxTasks).erase c, (s.tasks i).runtimeTicks.toNat :=
    Finset.sum_congr rfl fun i hi => by rw [setTask_of_ne s (Finset.ne_of_mem_erase hi)]
  rw [chargedTicks, chargedTicks, ← Finset.add_sum_erase _ _ hmem, ← Finset.add_sum_erase _ _ hmem,
    hrest, setTask_self, ht, BitVec.toNat_add, show (1 : U64).toNat = 1 from rfl]
  omega

/-- The sum depends on the counters only. -/
theorem chargedTicks_congr {s s' : Scheduler}
    (h : ∀ i < maxTasks, (s'.tasks i).runtimeTicks = (s.tasks i).runtimeTicks) :
    chargedTicks s' = chargedTicks s :=
  Finset.sum_congr rfl fun i hi => by rw [h i (Finset.mem_range.1 hi)]

/-- A tick keeps it in order. -/
theorem schedulerTick_ok {s : Scheduler} (h : TableOk s) : TableOk (schedulerTick s) := by
  have hinv := schedulerTick_inv h.toTableInv
  have heq := h.rotating.tick_eq
  have hlt := h.current_lt
  have hmax := h.count_le
  -- the tasks but for their counters
  have htask : ∀ i, ((schedulerTick s).tasks i).state = (s.tasks i).state ∧
      ((schedulerTick s).tasks i).id = (s.tasks i).id := by
    intro i
    rcases schedulerTick_tasks s i with hsame | ⟨-, hsame⟩
    · rw [hsame]
      exact ⟨rfl, rfl⟩
    · rw [hsame]
      exact ⟨rfl, rfl⟩
  obtain ⟨hcur, hcount⟩ := schedulerTick_index s
  refine ⟨hinv, ?_, ?_, ?_, ?_, ?_⟩
  · intro i hi hrun
    rw [hcur]
    exact h.sole i (hcount ▸ hi) ((htask i).1 ▸ hrun)
  · intro i hi
    rw [(htask i).2]
    exact h.id_ne i (hcount ▸ hi)
  · intro i hi j hj hid
    rw [(htask i).2, (htask j).2] at hid
    exact h.id_inj i (hcount ▸ hi) j (hcount ▸ hj) hid
  · intro i hi hi'
    rw [hcount] at hi
    rcases schedulerTick_tasks s i with hsame | ⟨hi'', -⟩
    · rw [hsame]
      exact h.cleared i hi hi'
    · omega
  · have hsum := chargedTicks_setTask s (lt_of_lt_of_le hlt hmax) (t :=
      { s.tasks s.currentIndex with runtimeTicks := (s.tasks s.currentIndex).runtimeTicks + 1 }) rfl
    have hcharged := h.charged
    rw [heq]
    change chargedTicks (s.setTask _ _) % 2 ^ 64 = (s.tickCount + 1).toNat
    change chargedTicks s % 2 ^ 64 = s.tickCount.toNat at hcharged
    rw [hsum, BitVec.toNat_add, show (1 : U64).toNat = 1 from rfl, ← hcharged]
    omega

/-- A new task takes the first slot that is not in use, with an id of its own. -/
theorem schedulerAddKernelTask_ok {s : Scheduler} (h : TableOk s) (id : U64) (priority : U32) :
    TableOk (schedulerAddKernelTask s id priority).2 := by
  have hinv := schedulerAddKernelTask_inv h.toTableInv id priority
  unfold schedulerAddKernelTask at hinv ⊢
  split_ifs at hinv ⊢ with hfull hdup
  · exact h
  · exact h
  · rw [not_or, Nat.not_le] at hfull
    have hlt := h.current_lt
    have hother : ∀ i, i ≠ s.taskCount → (s.setTask s.taskCount
        { clearTask with id := id, priority := priority, state := .ready }).tasks i = s.tasks i :=
      fun i hi => setTask_of_ne s hi _
    have hnew : (s.setTask s.taskCount
        { clearTask with id := id, priority := priority, state := .ready }).tasks s.taskCount =
        { clearTask with id := id, priority := priority, state := .ready } := setTask_self ..
    have hfresh : ∀ i < s.taskCount, (s.tasks i).id ≠ id := by
      intro i hi hid
      have hused : (s.tasks i).state ≠ .unused := by
        rcases h.runnable i hi with hst | hst
        · rw [hst]
          simp
        · rw [hst]
          simp
      exact hdup (List.any_eq_true.2 ⟨i, List.mem_range.2 hi, by simp [hused, hid]⟩)
    refine ⟨hinv, ?_, ?_, ?_, ?_, ?_⟩
    · intro i hi hrun
      have hi : i < s.taskCount + 1 := hi
      rcases eq_or_ne i s.taskCount with rfl | hne
      · rw [hnew] at hrun
        exact absurd hrun (by simp)
      · rw [hother i hne] at hrun
        exact h.sole i (by omega) hrun
    · intro i hi
      have hi : i < s.taskCount + 1 := hi
      rcases eq_or_ne i s.taskCount with rfl | hne
      · rw [hnew]
        exact hfull.2
      · rw [hother i hne]
        exact h.id_ne i (by omega)
    · intro i hi j hj hid
      have hi : i < s.taskCount + 1 := hi
      have hj : j < s.taskCount + 1 := hj
      rcases eq_or_ne i s.taskCount with rfl | hi'
      · rcases eq_or_ne j s.taskCount with rfl | hj'
        · rfl
        · rw [hnew, hother j hj'] at hid
          exact absurd hid.symm (hfresh j (by omega))
      · rcases eq_or_ne j s.taskCount with rfl | hj'
        · rw [hnew, hother i hi'] at hid
          exact absurd hid (hfresh i (by omega))
        · rw [hother i hi', hother j hj'] at hid
          exact h.id_inj i (by omega) j (by omega) hid
    · intro i hi hi'
      have hi : s.taskCount + 1 ≤ i := hi
      exact (hother i (by omega)).trans (h.cleared i (by omega) hi')
    · have hsum : chargedTicks { s.setTask s.taskCount
          { clearTask with id := id, priority := priority, state := .ready } with
          taskCount := s.taskCount + 1 } = chargedTicks s := by
        refine chargedTicks_congr fun i hi => ?_
        rcases eq_or_ne i s.taskCount with rfl | hne
        · rw [hnew, h.cleared _ le_rfl hi]
        · rw [hother i hne]
      rw [hsum]
      exact h.charged

/-- A selection makes the next task the only running one. -/
theorem schedulerPickNext_ok {s : Scheduler} (h : TableOk s) : TableOk (schedulerPickNext s).2 := by
  have hinv := (schedulerPickNext_inv h.toTableInv).1
  have hlt := h.current_lt
  have hmod : (s.currentIndex + 1) % s.taskCount < s.taskCount := Nat.mod_lt _ (by omega)
  rw [h.rotating.pickNext_eq] at hinv ⊢
  generalize (s.currentIndex + 1) % s.taskCount = next at hinv hmod ⊢
  have hkeep : ∀ j, (((s.setState s.currentIndex .ready).setState next .running).tasks
      j).runtimeTicks = (s.tasks j).runtimeTicks ∧
      (((s.setState s.currentIndex .ready).setState next .running).tasks j).id =
        (s.tasks j).id := by
    intro j
    rw [(setState_runtimeTicks ..).1, (setState_runtimeTicks ..).2, (setState_runtimeTicks ..).1,
      (setState_runtimeTicks ..).2]
    exact ⟨rfl, rfl⟩
  refine ⟨hinv, ?_, ?_, ?_, ?_, ?_⟩
  · intro i hi hrun
    change (((s.setState s.currentIndex .ready).setState next .running).tasks i).state = _ at hrun
    change i = next
    rw [setState_state, setState_state] at hrun
    split_ifs at hrun with h₁ h₂
    · exact h₁
    · exact absurd (h.sole i hi hrun) h₂
  · intro i hi
    exact (hkeep i).2 ▸ h.id_ne i hi
  · intro i hi j hj hid
    exact h.id_inj i hi j hj ((hkeep i).2 ▸ (hkeep j).2 ▸ hid)
  · intro i hi hi'
    have hi : s.taskCount ≤ i := hi
    change ((s.setState s.currentIndex .ready).setState next .running).tasks i = clearTask
    rw [Scheduler.setState, setTask_of_ne _ (by omega), Scheduler.setState,
      setTask_of_ne _ (by omega)]
    exact h.cleared i hi hi'
  · refine Eq.trans (congrArg (· % 2 ^ 64) ?_) h.charged
    exact chargedTicks_congr fun i _ => (hkeep i).1

/-- So does a timer tick. -/
theorem sbTimerTick_ok {k : Clocked} (h : TableOk k.sched) : TableOk (sbTimerTick k).sched := by
  have htick := schedulerTick_ok h
  rw [sbTimerTick]
  split_ifs
  · exact schedulerPickNext_ok htick
  · exact htick

/-- So does every call. -/
theorem tableStep_ok (k : Clocked) (call : TableCall) (h : TableOk k.sched) :
    TableOk (tableStep k call).2.sched := by
  cases call with
  | addKernelTask id priority => exact schedulerAddKernelTask_ok h id priority
  | tick => exact schedulerTick_ok h
  | pickNext => exact schedulerPickNext_ok h
  | switchTo next saved =>
    rw [tableStep]
    simp only [schedulerSwitchTo_eq h.toTableInv]
    exact h
  | timerTick => exact sbTimerTick_ok h

/-- **The table over whole runs.**  After `scheduler_init` and any calls, the current
task is in the table and is the only running one, ids are different and not
zero, the other slots are unused, and the ticks charged to the tasks are all
ticks there were. -/
theorem scheduler_table_invariant (s : Scheduler) (ticks : U64) (calls : List TableCall) :
    let t := (run tableStep ⟨schedulerInit s, ticks⟩ calls).sched
    1 ≤ t.taskCount ∧ t.taskCount ≤ 64 ∧ t.currentIndex < t.taskCount ∧
    (∀ i < 64, (t.tasks i).state = .running ↔ i = t.currentIndex) ∧
    (∀ i < t.taskCount, (t.tasks i).id ≠ 0) ∧
    (∀ i < t.taskCount, ∀ j < t.taskCount, (t.tasks i).id = (t.tasks j).id → i = j) ∧
    (∀ i, t.taskCount ≤ i → i < 64 →
      (t.tasks i).state = .unused ∧ (t.tasks i).runtimeTicks = 0) ∧
    (∑ i ∈ Finset.range 64, (t.tasks i).runtimeTicks.toNat) % 2 ^ 64 =
      (schedulerTicks t).toNat := by
  intro t
  have h : TableOk t := run_invariant (P := fun k : Clocked => TableOk k.sched) tableStep_ok calls
    (schedulerInit_ok s)
  have hlt := h.current_lt
  refine ⟨by omega, h.count_le, hlt, fun i hi => ⟨fun hrun => ?_, fun heq => ?_⟩, h.id_ne, h.id_inj,
    fun i h₁ h₂ => ?_, h.charged⟩
  · rcases Nat.lt_or_ge i t.taskCount with hin | hout
    · exact h.sole i hin hrun
    · rw [h.cleared i hout hi] at hrun
      exact absurd hrun (by simp [clearTask])
  · rw [heq]
    exact h.running
  · rw [h.cleared i h₁ h₂]
    exact ⟨rfl, rfl⟩

end SuiraBox.Sched
