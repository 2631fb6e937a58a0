/-
# The current task and the task on the processor

`scheduler_current` answers with `tasks[current_index]`.  Which task the
processor really executes is not a variable of the kernel: it changes when
`sb_context_switch(old, new)` is called and at no other time.  `World.onCpu`
follows it as a ghost, starting at the bootstrap task.

`scheduler_switch_to` moves both together.  `scheduler_pick_next` moves
`current_index` alone, and `sb_timer_tick` calls it at the end of every quantum
and drops its answer.  So the two agree along a run exactly as long as no
selection happens while there is more than one task: the first such selection
charges ticks to, and lets `SB_SYS_PROCESS_ID` name, a task that is not
executing.
-/

import SuiraBox.Library.Runs
import SuiraBox.Sched.Scheduler

namespace SuiraBox.Sched

open Runs

/-- The kernel's variables and, as a ghost, the slot of the task on the
processor. -/
structure World where
  clock : Clocked
  onCpu : ℕ

/-- The calls that act on the table. -/
inductive SchedStep
  | addKernelTask (id : U64) (priority : U32)
  | pickNext
  | switchTo (next : Option (Fin 64)) (saved : TaskContext)
  | timerTick

/-- One call; the answer is the call of `sb_context_switch` it makes, which is
what moves the ghost. -/
def schedStep (w : World) : SchedStep → Option (ℕ × ℕ) × World
  | .addKernelTask id priority =>
    (none, { w with clock.sched := (schedulerAddKernelTask w.clock.sched id priority).2 })
  | .pickNext => (none, { w with clock.sched := (schedulerPickNext w.clock.sched).2 })
  | .switchTo next saved =>
    let r := schedulerSwitchTo w.clock.sched (next.map Fin.val) saved
    (r.1, ⟨{ w.clock with sched := r.2 }, match r.1 with
      | some (_, new) => new
      | none => w.onCpu⟩)
  | .timerTick => (none, { w with clock := sbTimerTick w.clock })

/-- `scheduler_init`, with the bootstrap task on the processor. -/
def bootWorld (s : Scheduler) (ticks : U64) : World := ⟨⟨schedulerInit s, ticks⟩, 0⟩

/-- The scheduler's idea of the current task is right: `scheduler_current` is
the task on the processor, `SB_SYS_PROCESS_ID` names it and the next tick is
charged to it and to no other task. -/
structure CurrentOnCpu (w : World) : Prop where
  current : schedulerCurrent w.clock.sched = some w.onCpu
  processId : syscallProcessId w.clock.sched = (w.clock.sched.tasks w.onCpu).id
  charged : ∀ i, ((schedulerTick w.clock.sched).tasks i).runtimeTicks =
    if i = w.onCpu then (w.clock.sched.tasks i).runtimeTicks + 1
    else (w.clock.sched.tasks i).runtimeTicks

/-- The call does not select a task while there is more than one: it is no
`scheduler_pick_next`, and no tick that ends a quantum, unless the table holds a
single task. -/
def NoSelection (w : World) : SchedStep → Prop
  | .pickNext => w.clock.sched.taskCount ≤ 1
  | .timerTick => (w.clock.ticks + 1) % 10 = 0 → w.clock.sched.taskCount ≤ 1
  | _ => True

/-- What every run keeps: the current slot holds a `RUNNING` task, all tasks of
the table are runnable, and no slot has a saved context. -/
structure TableInv (s : Scheduler) : Prop where
  current_lt : s.currentIndex < s.taskCount
  running : (s.tasks s.currentIndex).state = .running
  runnable : ∀ i < s.taskCount, Runnable (s.tasks i)
  context : ∀ i < maxTasks, (s.tasks i).context.rsp = 0
  count_le : s.taskCount ≤ maxTasks

/-- The invariant is what the rotation needs. -/
theorem TableInv.rotating {s : Scheduler} (h : TableInv s) : Rotating s :=
  ⟨h.current_lt, h.running, h.runnable⟩

/-- It holds after `scheduler_init`. -/
theorem schedulerInit_inv (s : Scheduler) : TableInv (schedulerInit s) where
  current_lt := Nat.one_pos
  running := by simp [schedulerInit]
  runnable i hi := by
    obtain rfl : i = 0 := by
      have : i < 1 := hi
      omega
    exact Or.inr (by simp [schedulerInit])
  context i hi := by
    rcases eq_or_ne i 0 with rfl | h
    · simp [schedulerInit, clearTask, TaskContext.zero]
    · simp [schedulerInit, setTask_of_ne _ h, hi, clearTask, TaskContext.zero]
  count_le := show 1 ≤ 64 by decide

/-- A tick changes the runtime of the current task only. -/
theorem schedulerTick_tasks (s : Scheduler) (i : ℕ) :
    (schedulerTick s).tasks i = s.tasks i ∨
      i = s.currentIndex ∧ (schedulerTick s).tasks i =
        { s.tasks i with runtimeTicks := (s.tasks i).runtimeTicks + 1 } := by
  rw [schedulerTick]
  dsimp only
  split_ifs
  · exact Or.inl rfl
  · rcases eq_or_ne i s.currentIndex with rfl | h
    · exact Or.inr ⟨rfl, setTask_self ..⟩
    · exact Or.inl (setTask_of_ne _ h _)
  · exact Or.inl rfl

/-- It changes neither the current task nor the number of tasks. -/
theorem schedulerTick_index (s : Scheduler) :
    (schedulerTick s).currentIndex = s.currentIndex ∧
    (schedulerTick s).taskCount = s.taskCount := by
  rw [schedulerTick]
  dsimp only
  split_ifs <;> exact ⟨rfl, rfl⟩

/-- A tick changes nothing but counters. -/
theorem schedulerTick_inv {s : Scheduler} (h : TableInv s) : TableInv (schedulerTick s) := by
  obtain ⟨hlt, hrunning, hrunnable⟩ := h.rotating.tick
  refine ⟨hlt, hrunning, hrunnable, fun i hi => ?_, (schedulerTick_index s).2.trans_le h.count_le⟩
  rcases schedulerTick_tasks s i with heq | ⟨_, heq⟩
  · rw [heq]
    exact h.context i hi
  · rw [heq]
    exact h.context i hi

/-- Adding a task keeps the invariant. -/
theorem schedulerAddKernelTask_inv {s : Scheduler} (h : TableInv s) (id : U64) (priority : U32) :
    TableInv (schedulerAddKernelTask s id priority).2 := by
  have hlt := h.current_lt
  rw [schedulerAddKernelTask]
  split_ifs with hfull hdup
  · exact h
  · exact h
  · push Not at hfull
    have hother : ∀ i, i ≠ s.taskCount → (s.setTask s.taskCount
        { clearTask with id := id, priority := priority, state := .ready }).tasks i = s.tasks i :=
      fun i hi => setTask_of_ne s hi _
    refine ⟨by simp only [setTask_currentIndex]; omega, ?_, fun i hi => ?_, fun i hi => ?_,
      by simp only; omega⟩
    · simp only [setTask_currentIndex]
      rw [hother _ (by omega)]
      exact h.running
    · dsimp only at hi ⊢
      rcases eq_or_ne i s.taskCount with rfl | hne
      · exact Or.inl (by rw [setTask_self])
      · rw [hother i hne]
        exact h.runnable i (by omega)
    · dsimp only
      rcases eq_or_ne i s.taskCount with rfl | hne
      · rw [setTask_self]; rfl
      · rw [hother i hne]
        exact h.context i hi

/-- With every task runnable, a selection moves to the next slot. -/
theorem schedulerPickNext_inv {s : Scheduler} (h : TableInv s) :
    TableInv (schedulerPickNext s).2 ∧
      (schedulerPickNext s).2.currentIndex = (s.currentIndex + 1) % s.taskCount ∧
      (schedulerPickNext s).2.taskCount = s.taskCount := by
  obtain ⟨hlt, hrunning, hrunnable⟩ := h.rotating.pickNext
  rw [h.rotating.pickNext_eq] at hlt hrunning hrunnable ⊢
  exact ⟨⟨hlt, hrunning, hrunnable, fun i hi => by simpa using h.context i hi, h.count_le⟩, rfl,
    rfl⟩

/-- With no saved context, `scheduler_switch_to` returns at once. -/
theorem schedulerSwitchTo_eq {s : Scheduler} (h : TableInv s) (next : Option (Fin 64))
    (saved : TaskContext) : schedulerSwitchTo s (next.map Fin.val) saved = (none, s) := by
  have hlt := h.current_lt
  have hctx := h.context s.currentIndex (lt_of_lt_of_le hlt h.count_le)
  have hcur : schedulerCurrent s = some s.currentIndex := if_neg (by omega)
  unfold schedulerSwitchTo
  rw [hcur]
  cases next with
  | none => rfl
  | some next =>
    dsimp only [Option.map_some]
    split_ifs with hsame hzero
    · rfl
    · rfl
    · exact absurd (Or.inl hctx) hzero

/-- A timer tick keeps it. -/
theorem sbTimerTick_inv {k : Clocked} (h : TableInv k.sched) : TableInv (sbTimerTick k).sched := by
  have htick := schedulerTick_inv h
  rw [sbTimerTick]
  split_ifs
  · exact (schedulerPickNext_inv htick).1
  · exact htick

/-- Every step keeps it. -/
theorem schedStep_inv (w : World) (step : SchedStep) (h : TableInv w.clock.sched) :
    TableInv (schedStep w step).2.clock.sched := by
  cases step with
  | addKernelTask id priority => exact schedulerAddKernelTask_inv h id priority
  | pickNext => exact (schedulerPickNext_inv h).1
  | switchTo next saved =>
    rw [schedStep]
    simp only [schedulerSwitchTo_eq h]
    exact h
  | timerTick => exact sbTimerTick_inv h

/-- It holds in every run from the boot on. -/
theorem run_inv (s : Scheduler) (ticks : U64) (steps : List SchedStep) :
    TableInv (run schedStep (bootWorld s ticks) steps).clock.sched :=
  run_invariant (P := fun w : World => TableInv w.clock.sched) schedStep_inv steps
    (schedulerInit_inv s)

/-- Only `current_index` decides whether the law holds. -/
theorem currentOnCpu_iff {w : World} (h : TableInv w.clock.sched) :
    CurrentOnCpu w ↔ w.clock.sched.currentIndex = w.onCpu := by
  have hpos : w.clock.sched.taskCount ≠ 0 := by
    have := h.current_lt
    omega
  have hcur : schedulerCurrent w.clock.sched = some w.clock.sched.currentIndex := by
    rw [schedulerCurrent, if_neg hpos]
  constructor
  · intro hlaw
    exact Option.some.inj (hcur.symm.trans hlaw.current)
  · intro heq
    refine ⟨heq ▸ hcur, by rw [syscallProcessId, hcur, ← heq], fun i => ?_⟩
    rw [← heq, schedulerTick]
    dsimp only
    rw [if_neg hpos, if_pos h.running]
    split_ifs with hi
    · rw [hi, setTask_self]
    · rw [setTask_of_ne _ hi]

/-- **One call.**  If the law holds before a call, it holds after it exactly
when the call selects nothing. -/
theorem schedStep_currentOnCpu {w : World} (h : TableInv w.clock.sched)
    (hlaw : w.clock.sched.currentIndex = w.onCpu) (step : SchedStep) :
    (schedStep w step).2.clock.sched.currentIndex = (schedStep w step).2.onCpu ↔
      NoSelection w step := by
  have hlt := h.current_lt
  -- a selection moves to another slot as soon as there are two
  have hmove : ∀ s : Scheduler, TableInv s → s.currentIndex = w.onCpu →
      ((schedulerPickNext s).2.currentIndex = w.onCpu ↔ s.taskCount ≤ 1) := by
    intro s hs heq
    have hslt := hs.current_lt
    rw [(schedulerPickNext_inv hs).2.1, ← heq]
    constructor
    · intro hmod
      by_contra hmany
      rcases Nat.lt_or_ge (s.currentIndex + 1) s.taskCount with hn | hn
      · rw [Nat.mod_eq_of_lt hn] at hmod
        omega
      · rw [show s.currentIndex + 1 = s.taskCount by omega, Nat.mod_self] at hmod
        omega
    · intro hone
      have h1 : s.taskCount = 1 := by omega
      have h0 : s.currentIndex = 0 := by omega
      rw [h1, h0]
  cases step with
  | addKernelTask id priority =>
    have hkeep : (schedulerAddKernelTask w.clock.sched id priority).2.currentIndex =
        w.clock.sched.currentIndex := by
      rw [schedulerAddKernelTask]
      split_ifs <;> rfl
    exact ⟨fun _ => trivial, fun _ => hkeep.trans hlaw⟩
  | pickNext => exact hmove _ h hlaw
  | switchTo next saved =>
    rw [schedStep]
    simp only [schedulerSwitchTo_eq h]
    exact ⟨fun _ => trivial, fun _ => hlaw⟩
  | timerTick =>
    obtain ⟨hcur, hcount⟩ := schedulerTick_index w.clock.sched
    rw [schedStep, NoSelection]
    dsimp only
    rw [sbTimerTick, schedulerTaskCount]
    split_ifs with hq
    · rw [hmove _ (schedulerTick_inv h) (hcur.trans hlaw), hcount]
      exact ⟨fun hone _ => hone, fun hone => hone hq.1⟩
    · rw [hcount] at hq
      refine ⟨fun _ hquantum => ?_, fun _ => hcur.trans hlaw⟩
      by_contra hmany
      exact hq ⟨hquantum, by omega⟩

/-- **The current task is the task on the processor for as long as nothing is
selected.**  Along every run from `scheduler_init`, the law holds in every state
reached if and only if no call of the run selects a task while the table holds
more than one. -/
theorem current_on_cpu_iff (s : Scheduler) (ticks : U64) (steps : List SchedStep) :
    (∀ done, done <+: steps → CurrentOnCpu (run schedStep (bootWorld s ticks) done)) ↔
      ∀ done step, done ++ [step] <+: steps →
        NoSelection (run schedStep (bootWorld s ticks) done) step := by
  refine Iff.trans (forall₂_congr fun done _ => currentOnCpu_iff (run_inv s ticks done)) ?_
  exact run_prefix_iff (P := fun w : World => w.clock.sched.currentIndex = w.onCpu) schedStep_inv
    (fun w step hinv hlaw => schedStep_currentOnCpu hinv hlaw step) steps (schedulerInit_inv s) rfl

/-- One added task and one selection are enough: the processor still executes
the bootstrap task in slot `0`, the scheduler says slot `1`. -/
theorem pickNext_leaves_onCpu :
    ¬ CurrentOnCpu (run schedStep (bootWorld ⟨fun _ => clearTask, 0, 0, 0⟩ 0)
      [.addKernelTask 2 128, .pickNext]) := by
  intro h
  exact absurd h.current (by decide)

end SuiraBox.Sched
