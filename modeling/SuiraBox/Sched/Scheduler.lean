/-
# The scheduler's task table and the timer tick

`kernel/scheduler.c` (the table of `SB_SCHED_MAX_TASKS = 64` tasks and the
functions on it), `kernel/timer.c` (`sb_timer_tick`) and `kernel/syscall.c`
(`syscall_dispatch` and the functions behind it).

A task pointer is an index into the table.  `scheduler_pick_next` walks the
table from the slot after the current one and makes the first task that is
`READY` or `RUNNING` the current one; `scheduler_switch_to` changes the current
task and calls `sb_context_switch`, which stores the registers of the task that
gives the processor up into its context.  Those registers are not part of the
table, so they are an argument (`saved`), and the call itself is the answer of
the function.
-/

import SuiraBox.Mm.Pmm

namespace SuiraBox.Sched

/-- `sb_task_state_t`. -/
inductive TaskState
  | unused
  | ready
  | running
  | blocked
  | sleeping
  | exited
  deriving DecidableEq

/-- `sb_task_context_t`. -/
structure TaskContext where
  r15 : U64
  r14 : U64
  r13 : U64
  r12 : U64
  rbx : U64
  rbp : U64
  rip : U64
  rsp : U64

/-- The context `{0}`. -/
def TaskContext.zero : TaskContext := ⟨0, 0, 0, 0, 0, 0, 0, 0⟩

/-- `sb_task_t`. -/
structure Task where
  id : U64
  runtimeTicks : U64
  priority : U32
  state : TaskState
  context : TaskContext
  kernelStackBase : U64
  kernelStackTop : U64

/-- The static variables of `scheduler.c`. -/
structure Scheduler where
  tasks : ℕ → Task
  taskCount : ℕ
  currentIndex : ℕ
  tickCount : U64

/-- `SB_SCHED_MAX_TASKS`. -/
def maxTasks : ℕ := 64

/-- Write one slot of the table. -/
def Scheduler.setTask (s : Scheduler) (i : ℕ) (t : Task) : Scheduler :=
  { s with tasks := Function.update s.tasks i t }

/-- Write the state of one task. -/
def Scheduler.setState (s : Scheduler) (i : ℕ) (st : TaskState) : Scheduler :=
  s.setTask i { s.tasks i with state := st }

/-- `clear_task`. -/
def clearTask : Task := ⟨0, 0, 0, .unused, .zero, 0, 0⟩

/-- `scheduler_init`: every slot is cleared and slot `0` becomes the bootstrap
task. -/
def schedulerInit (s : Scheduler) : Scheduler :=
  let cleared := { s with tasks := fun i => if i < maxTasks then clearTask else s.tasks i }
  { cleared.setTask 0 { clearTask with id := 1, priority := 128, state := .running } with
    taskCount := 1
    currentIndex := 0
    tickCount := 0 }

/-- `scheduler_tick`. -/
def schedulerTick (s : Scheduler) : Scheduler :=
  let s := { s with tickCount := s.tickCount + 1 }
  if s.taskCount = 0 then s
  else if (s.tasks s.currentIndex).state = .running then
    s.setTask s.currentIndex
      { s.tasks s.currentIndex with runtimeTicks := (s.tasks s.currentIndex).runtimeTicks + 1 }
  else s

/-- `scheduler_ticks`. -/
def schedulerTicks (s : Scheduler) : U64 := s.tickCount

/-- `scheduler_current`. -/
def schedulerCurrent (s : Scheduler) : Option ℕ :=
  if s.taskCount = 0 then none else some s.currentIndex

/-- `scheduler_task_count`. -/
def schedulerTaskCount (s : Scheduler) : ℕ := s.taskCount

/-- `scheduler_add_kernel_task`. -/
def schedulerAddKernelTask (s : Scheduler) (id : U64) (priority : U32) : ℤ × Scheduler :=
  if maxTasks ≤ s.taskCount ∨ id = 0 then (-1, s)
  else if (List.range s.taskCount).any fun i =>
      decide ((s.tasks i).state ≠ .unused) && decide ((s.tasks i).id = id) then (-2, s)
  else
    (0, { s.setTask s.taskCount { clearTask with id := id, priority := priority, state := .ready }
      with taskCount := s.taskCount + 1 })

/-- The tasks that `scheduler_pick_next` may select. -/
def Runnable (t : Task) : Prop := t.state = .ready ∨ t.state = .running

instance (t : Task) : Decidable (Runnable t) := inferInstanceAs (Decidable (_ ∨ _))

/-- The loop of `scheduler_pick_next` from `step` on, with `n` steps left. -/
def pickFrom (s : Scheduler) : ℕ → ℕ → Scheduler
  | 0, _ => s
  | n + 1, step =>
    let candidate := (s.currentIndex + step) % s.taskCount
    if Runnable (s.tasks candidate) then
      { (s.setState s.currentIndex .ready).setState candidate .running
        with currentIndex := candidate }
    else pickFrom s n (step + 1)

/-- `scheduler_pick_next`: the answer is the current task after the call. -/
def schedulerPickNext (s : Scheduler) : Option ℕ × Scheduler :=
  if s.taskCount = 0 then (none, s)
  else
    let s := pickFrom s s.taskCount 1
    (some s.currentIndex, s)

/-- `scheduler_switch_to`: the answer is the call `sb_context_switch(old, new)`
it makes, if any; `saved` is what that call stores into the old context. -/
def schedulerSwitchTo (s : Scheduler) (next : Option ℕ) (saved : TaskContext) :
    Option (ℕ × ℕ) × Scheduler :=
  match schedulerCurrent s, next with
  | some current, some next =>
    if current = next then (none, s)
    else if (s.tasks current).context.rsp = 0 ∨ (s.tasks current).context.rip = 0 ∨
        (s.tasks next).context.rsp = 0 ∨ (s.tasks next).context.rip = 0 then (none, s)
    else
      let s := (s.setState current .ready).setState next .running
      let s := { s with currentIndex := next }
      (some (current, next), s.setTask current { s.tasks current with context := saved })
  | _, _ => (none, s)

/-- The scheduler and the tick counter of `timer.c`. -/
structure Clocked where
  sched : Scheduler
  ticks : U64

/-- `timer_ticks`. -/
def timerTicks (k : Clocked) : U64 := k.ticks

/-- `sb_timer_tick`; a quantum is `SB_SCHED_QUANTUM_TICKS = 10` ticks. -/
def sbTimerTick (k : Clocked) : Clocked :=
  let ticks := k.ticks + 1
  let sched := schedulerTick k.sched
  if ticks % 10 = 0 ∧ 1 < schedulerTaskCount sched then ⟨(schedulerPickNext sched).2, ticks⟩
  else ⟨sched, ticks⟩

/-- `syscall_process_id`. -/
def syscallProcessId (s : Scheduler) : U64 :=
  match schedulerCurrent s with
  | some i => (s.tasks i).id
  | none => 0

/-- The arguments of `syscall_dispatch`. -/
structure SyscallArgs where
  number : U64
  arg0 : U64
  arg1 : U64
  arg2 : U64
  arg3 : U64
  arg4 : U64
  deriving DecidableEq

/-- `syscall_dispatch`: `SB_SYS_GET_TICKS`, `SB_SYS_PROCESS_ID`, `SB_SYS_EXIT`;
no call looks at its arguments yet. -/
def syscallDispatch (k : Clocked) (args : SyscallArgs) : U64 :=
  if args.number = 0 then timerTicks k
  else if args.number = 1 then syscallProcessId k.sched
  else if args.number = 2 then 0
  else BitVec.allOnes 64

/-- The call that `sb_syscall_dispatch_entry` makes. -/
def sbSyscallDispatchEntry (number arg0 arg1 arg2 arg3 : U64) : SyscallArgs :=
  ⟨number, arg0, arg1, arg2, arg3, 0⟩

/-! ### What the functions do to the table -/

@[simp] theorem setTask_self (s : Scheduler) (i : ℕ) (t : Task) : (s.setTask i t).tasks i = t := by
  simp [Scheduler.setTask]

theorem setTask_of_ne (s : Scheduler) {i j : ℕ} (h : j ≠ i) (t : Task) :
    (s.setTask i t).tasks j = s.tasks j := by
  simp [Scheduler.setTask, h]

@[simp] theorem setTask_currentIndex (s : Scheduler) (i : ℕ) (t : Task) :
    (s.setTask i t).currentIndex = s.currentIndex := rfl

/-- The state of one task is changed. -/
theorem setState_state (s : Scheduler) (i j : ℕ) (st : TaskState) :
    ((s.setState i st).tasks j).state = if j = i then st else (s.tasks j).state := by
  rcases eq_or_ne j i with rfl | h
  · rw [if_pos rfl, Scheduler.setState, setTask_self]
  · rw [if_neg h, Scheduler.setState, setTask_of_ne s h]

@[simp] theorem setState_context (s : Scheduler) (i j : ℕ) (st : TaskState) :
    ((s.setState i st).tasks j).context = (s.tasks j).context := by
  rcases eq_or_ne j i with rfl | h
  · rw [Scheduler.setState, setTask_self]
  · rw [Scheduler.setState, setTask_of_ne s h]

/-- Runtimes and identities stay. -/
theorem setState_runtimeTicks (s : Scheduler) (i j : ℕ) (st : TaskState) :
    ((s.setState i st).tasks j).runtimeTicks = (s.tasks j).runtimeTicks ∧
      ((s.setState i st).tasks j).id = (s.tasks j).id := by
  rcases eq_or_ne j i with rfl | h
  · rw [Scheduler.setState, setTask_self]
    exact ⟨rfl, rfl⟩
  · rw [Scheduler.setState, setTask_of_ne s h]
    exact ⟨rfl, rfl⟩

/-- The loop either finds no runnable task and changes nothing, or moves to the
first runnable one. -/
theorem pickFrom_cases (s : Scheduler) (n step : ℕ) :
    (pickFrom s n step = s ∧ ∀ k, step ≤ k → k < step + n →
      ¬ Runnable (s.tasks ((s.currentIndex + k) % s.taskCount))) ∨
    ∃ k, step ≤ k ∧ k < step + n ∧ Runnable (s.tasks ((s.currentIndex + k) % s.taskCount)) ∧
      (∀ j, step ≤ j → j < k → ¬ Runnable (s.tasks ((s.currentIndex + j) % s.taskCount))) ∧
      pickFrom s n step =
        { (s.setState s.currentIndex .ready).setState ((s.currentIndex + k) % s.taskCount) .running
          with currentIndex := (s.currentIndex + k) % s.taskCount } := by
  induction n generalizing step with
  | zero => exact Or.inl ⟨rfl, fun k h₁ h₂ => by omega⟩
  | succ n ih =>
    rw [pickFrom]
    dsimp only
    split_ifs with hrun
    · exact Or.inr ⟨step, le_rfl, by omega, hrun, fun j h₁ h₂ => by omega, rfl⟩
    · rcases ih (step + 1) with ⟨heq, hnone⟩ | ⟨k, h₁, h₂, hk, hfirst, heq⟩
      · refine Or.inl ⟨heq, fun k h₁ h₂ => ?_⟩
        rcases Nat.eq_or_lt_of_le h₁ with rfl | h
        · exact hrun
        · exact hnone k h (by omega)
      · refine Or.inr ⟨k, by omega, by omega, hk, fun j hj₁ hj₂ => ?_, heq⟩
        rcases Nat.eq_or_lt_of_le hj₁ with rfl | h
        · exact hrun
        · exact hfirst j h hj₂

/-- When the next slot holds a runnable task, `scheduler_pick_next` selects it. -/
theorem schedulerPickNext_of_next (s : Scheduler) (hcount : 0 < s.taskCount)
    (hnext : Runnable (s.tasks ((s.currentIndex + 1) % s.taskCount))) :
    (schedulerPickNext s).2 =
      { (s.setState s.currentIndex .ready).setState ((s.currentIndex + 1) % s.taskCount) .running
        with currentIndex := (s.currentIndex + 1) % s.taskCount } := by
  rw [schedulerPickNext, if_neg (by omega)]
  dsimp only
  rcases pickFrom_cases s s.taskCount 1 with ⟨_, hnone⟩ | ⟨k, h₁, _, _, hfirst, heq⟩
  · exact absurd hnext (hnone 1 le_rfl (by omega))
  · rcases Nat.eq_or_lt_of_le h₁ with rfl | hlt
    · exact heq
    · exact absurd hnext (hfirst 1 le_rfl hlt)

/-! ### Tables whose tasks can all run -/

/-- All tasks of the table can run, and the current one does. -/
structure Rotating (s : Scheduler) : Prop where
  current_lt : s.currentIndex < s.taskCount
  running : (s.tasks s.currentIndex).state = .running
  runnable : ∀ i < s.taskCount, Runnable (s.tasks i)

variable {s : Scheduler}

/-- A tick is charged to the current task. -/
theorem Rotating.tick_eq (h : Rotating s) :
    schedulerTick s = { s.setTask s.currentIndex
      { s.tasks s.currentIndex with runtimeTicks := (s.tasks s.currentIndex).runtimeTicks + 1 } with
      tickCount := s.tickCount + 1 } := by
  have hpos : s.taskCount ≠ 0 := (Nat.zero_lt_of_lt h.current_lt).ne'
  rw [schedulerTick]
  exact (if_neg hpos).trans (if_pos h.running)

/-- A selection moves to the next slot. -/
theorem Rotating.pickNext_eq (h : Rotating s) :
    (schedulerPickNext s).2 =
      { (s.setState s.currentIndex .ready).setState ((s.currentIndex + 1) % s.taskCount) .running
        with currentIndex := (s.currentIndex + 1) % s.taskCount } := by
  have hpos : 0 < s.taskCount := Nat.zero_lt_of_lt h.current_lt
  exact schedulerPickNext_of_next s hpos (h.runnable _ (Nat.mod_lt _ hpos))

/-- The rotation goes on after a tick. -/
theorem Rotating.tick (h : Rotating s) : Rotating (schedulerTick s) := by
  have hstate : ∀ i, ((schedulerTick s).tasks i).state = (s.tasks i).state := by
    intro i
    rw [h.tick_eq]
    rcases eq_or_ne i s.currentIndex with rfl | hi
    · rw [setTask_self]
    · rw [setTask_of_ne s hi]
  have hcur : (schedulerTick s).currentIndex = s.currentIndex := by rw [h.tick_eq]; rfl
  have hcount : (schedulerTick s).taskCount = s.taskCount := by rw [h.tick_eq]; rfl
  refine ⟨by rw [hcur, hcount]; exact h.current_lt, by rw [hcur, hstate]; exact h.running,
    fun i hi => ?_⟩
  rw [Runnable, hstate]
  exact h.runnable i (hcount ▸ hi)

/-- It goes on after a switch. -/
theorem Rotating.pickNext (h : Rotating s) : Rotating (schedulerPickNext s).2 := by
  rw [h.pickNext_eq]
  refine ⟨Nat.mod_lt _ (Nat.zero_lt_of_lt h.current_lt), by simp [setState_state], fun i hi => ?_⟩
  have hi := h.runnable i hi
  unfold Runnable at hi ⊢
  simp only [setState_state]
  split_ifs
  · exact Or.inr rfl
  · exact Or.inl rfl
  · exact hi

end SuiraBox.Sched
