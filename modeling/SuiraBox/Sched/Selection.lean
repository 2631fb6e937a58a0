/-
# One selection, on any table

`scheduler_pick_next` and `scheduler_switch_to` of `kernel/scheduler.c` on tables in which tasks
may be in any of the six states, which the calls that exist so far do not build.

`scheduler_pick_next` makes the old current task `READY` whatever it was, so a current task that is
blocked, asleep or gone is revived as soon as another task can be selected; all other tasks that
are not runnable are left alone.  And since it has made the selected task the current one already,
`scheduler_switch_to` of its answer returns at once: the two never switch contexts together.
-/

import SuiraBox.Library.Rotation
import SuiraBox.Sched.Scheduler

namespace SuiraBox.Sched

open Rotation

variable {s : Scheduler} {i : ℕ}

/-- The task is `BLOCKED`, `SLEEPING`, `EXITED` or `UNUSED`. -/
def Stopped (t : Task) : Prop :=
  t.state = .blocked ∨ t.state = .sleeping ∨ t.state = .exited ∨ t.state = .unused

/-- A task is stopped or runnable. -/
theorem stopped_iff (t : Task) : Stopped t ↔ ¬ Runnable t := by
  unfold Stopped Runnable
  cases t.state <;> simp

/-- A selection either finds no runnable task in the table and changes nothing, or makes a runnable
task the current one. -/
theorem schedulerPickNext_cases (hcur : s.currentIndex < s.taskCount) :
    ((schedulerPickNext s).2 = s ∧ ∀ i < s.taskCount, ¬ Runnable (s.tasks i)) ∨
      ∃ next < s.taskCount, Runnable (s.tasks next) ∧ (schedulerPickNext s).2 =
        { (s.setState s.currentIndex .ready).setState next .running
          with currentIndex := next } := by
  have hpos : 0 < s.taskCount := Nat.zero_lt_of_lt hcur
  rw [schedulerPickNext, if_neg hpos.ne']
  rcases pickFrom_cases s s.taskCount 1 with ⟨heq, hnone⟩ | ⟨k, -, -, hrun, -, heq⟩
  · refine Or.inl ⟨heq, fun i hi => ?_⟩
    obtain ⟨k, h₁, h₂, rfl⟩ := exists_ahead hcur hi
    exact hnone k h₁ (by omega)
  · exact Or.inr ⟨_, Nat.mod_lt _ hpos, hrun, heq⟩

/-- **What a selection leaves alone.**  On every table, `scheduler_pick_next` leaves the state of
all stopped tasks unchanged if and only if the current task is runnable or there is no runnable
task to select. -/
theorem pickNext_keeps_stopped_iff (hcur : s.currentIndex < s.taskCount) :
    (∀ i, Stopped (s.tasks i) → ((schedulerPickNext s).2.tasks i).state = (s.tasks i).state) ↔
      Runnable (s.tasks s.currentIndex) ∨ ∀ i < s.taskCount, ¬ Runnable (s.tasks i) := by
  simp only [stopped_iff]
  rcases schedulerPickNext_cases hcur with ⟨heq, hnone⟩ | ⟨next, hnext, hrun, heq⟩
  · rw [heq]
    exact ⟨fun _ => Or.inr hnone, fun _ _ _ => rfl⟩
  · have hstate : ∀ i, ((schedulerPickNext s).2.tasks i).state =
        if i = next then .running else if i = s.currentIndex then .ready
            else (s.tasks i).state := by
      intro i
      rw [heq]
      dsimp only
      rw [setState_state, setState_state]
    constructor
    · intro hkeep
      refine Or.inl (not_not.1 fun hstopped => hstopped (Or.inl ?_))
      have hne : s.currentIndex ≠ next := fun h => hstopped (h ▸ hrun)
      rw [← hkeep _ hstopped, hstate, if_neg hne, if_pos rfl]
    · rintro (hcurrent | hnone) i hi
      · have hne : i ≠ next := fun h => hi (h ▸ hrun)
        have hne' : i ≠ s.currentIndex := fun h => hi (h ▸ hcurrent)
        rw [hstate, if_neg hne, if_neg hne']
      · exact absurd hrun (hnone next hnext)

/-- A task in a given state. -/
def taskIn (id : U64) (state : TaskState) : Task := { clearTask with id := id, state := state }

/-- The bootstrap task runs, a second task is blocked and a third one is ready. -/
def mixedTable : Scheduler where
  tasks i :=
    if i = 0 then taskIn 1 .running else if i = 1 then taskIn 2 .blocked else taskIn 3 .ready
  taskCount := 3
  currentIndex := 0
  tickCount := 0

/-- Stopped tasks of the examples stay stopped. -/
theorem mixedTable_keeps : mixedTable.currentIndex < mixedTable.taskCount ∧
    ∀ i, Stopped (mixedTable.tasks i) →
      ((schedulerPickNext mixedTable).2.tasks i).state = (mixedTable.tasks i).state :=
  ⟨by decide, (pickNext_keeps_stopped_iff (s := mixedTable) (by decide)).2 (Or.inl (by decide))⟩

/-- The same table, with the blocked task as the current one. -/
def blockedCurrent : Scheduler := { mixedTable with currentIndex := 1 }

/-- The blocked task is ready after the selection. -/
theorem blockedCurrent_revived :
    blockedCurrent.currentIndex < blockedCurrent.taskCount ∧ Stopped (blockedCurrent.tasks 1) ∧
      ((schedulerPickNext blockedCurrent).2.tasks 1).state = .ready :=
  ⟨by decide, Or.inl rfl, by decide⟩

/-! ### Selecting and switching -/

/-- `scheduler_switch_to(scheduler_pick_next())` calls `sb_context_switch` once, from the task that
was current to the one that is picked. -/
def SwitchesToPicked (s : Scheduler) (saved : TaskContext) : Prop :=
  ∃ next, (schedulerPickNext s).1 = some next ∧
    (schedulerSwitchTo (schedulerPickNext s).2 (some next) saved).1 = some (s.currentIndex, next)

/-- The search adds no task. -/
theorem pickFrom_taskCount (s : Scheduler) (n step : ℕ) :
    (pickFrom s n step).taskCount = s.taskCount := by
  rcases pickFrom_cases s n step with ⟨heq, -⟩ | ⟨k, -, -, -, -, heq⟩
  · rw [heq]
  · rw [heq]
    rfl

/-- The answer of a selection is the current task after it. -/
theorem schedulerCurrent_pickNext (s : Scheduler) :
    schedulerCurrent (schedulerPickNext s).2 = (schedulerPickNext s).1 := by
  rw [schedulerPickNext]
  split_ifs with hzero
  · exact if_pos hzero
  · exact if_neg ((pickFrom_taskCount s s.taskCount 1).trans_ne hzero)

/-- `scheduler_switch_to` to the current task returns at once. -/
theorem schedulerSwitchTo_current {next : Option ℕ} (h : schedulerCurrent s = next)
    (saved : TaskContext) : schedulerSwitchTo s next saved = (none, s) := by
  unfold schedulerSwitchTo
  rw [h]
  cases next with
  | none => rfl
  | some next => exact if_pos rfl

/-- **Picking and switching do not compose.**  On no table does the sequence call
`sb_context_switch`. -/
theorem never_switches_to_picked (s : Scheduler) (saved : TaskContext) :
    ¬ SwitchesToPicked s saved := by
  rintro ⟨next, hpick, hswitch⟩
  have hcurrent := schedulerCurrent_pickNext s
  rw [hpick] at hcurrent
  rw [schedulerSwitchTo_current hcurrent] at hswitch
  exact absurd hswitch (by simp)

/-- Two tasks with saved contexts, the first of them running. -/
def savedTable : Scheduler where
  tasks i := { taskIn (BitVec.ofNat 64 (i + 1)) (if i = 0 then .running else .ready) with
    context := { TaskContext.zero with rip := 0x100000, rsp := 0x200000 } }
  taskCount := 2
  currentIndex := 0
  tickCount := 0

/-- Both tasks can run and have a saved context, and the second one is picked, but there is no
switch. -/
theorem savedTable_stays :
    (savedTable.tasks 0).state = .running ∧ (savedTable.tasks 1).state = .ready ∧
    (∀ i < 2, (savedTable.tasks i).context.rsp ≠ 0 ∧ (savedTable.tasks i).context.rip ≠ 0) ∧
    (schedulerPickNext savedTable).1 = some 1 ∧ ¬ SwitchesToPicked savedTable .zero := by
  have hpicked : (schedulerPickNext savedTable).1 = some 1 := by decide
  refine ⟨rfl, rfl, by decide, hpicked, ?_⟩
  rintro ⟨next, hpick, hswitch⟩
  obtain rfl : 1 = next := Option.some.inj (hpicked.symm.trans hpick)
  exact absurd hswitch (by decide)

end SuiraBox.Sched
