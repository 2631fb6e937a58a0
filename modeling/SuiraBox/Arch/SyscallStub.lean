/-
# The `int 0x80` stub

`kernel/arch/x86_64/syscall.S` (`sb_syscall_int80_stub`) and its C side in
`kernel/syscall.c` (`sb_syscall_dispatch_entry`, `syscall_dispatch`).

The stub pushes `r11`, `r10`, `r9`, `r8`, `rcx`, `rdx`, `rsi`, `rdi` and `rax`
in this order, so that `rax` ends up on top of the stack and `r11` at offset
64.  Its comment lists the offsets the other way round, and the loads follow
the comment:

| argument | documented register | loaded from | holds |
| --- | --- | ---: | --- |
| number | `rax` | 64 | `r11` |
| 0 | `rdi` | 56 | `r10` |
| 1 | `rsi` | 48 | `r9` |
| 2 | `rdx` | 40 | `r8` |
| 3 | `r10` | 8 | `rdi` |
| 4 | `r8` | 24, then dropped by the C entry | `0` |

After the call the stub drops the nine saved registers with one `addq` and
returns: the registers a C function may overwrite reach the user as the
dispatcher left them.
-/

import SuiraBox.Library.X64
import SuiraBox.Sched.Scheduler

namespace SuiraBox.Arch

open X64 Sched

/-- `SB_KERNEL_CODE_SELECTOR`, the selector of every interrupt gate. -/
def kernelCodeSelector : U64 := 0x18

/-- The registers that the stub pushes, in order. -/
def savedBySyscall : List Reg := [.r11, .r10, .r9, .r8, .rcx, .rdx, .rsi, .rdi, .rax]

/-- The six loads of the stub. -/
def syscallLoads : List Instr :=
  [.load 64 .rsp .rdi, .load 56 .rsp .rsi, .load 48 .rsp .rdx, .load 40 .rsp .rcx,
    .load 8 .rsp .r8, .load 24 .rsp .r9]

/-- `sb_syscall_int80_stub`; `ret` is the address after its `call`. -/
def sbSyscallInt80Stub (ret : U64) : List Instr :=
  savedBySyscall.map .push ++ syscallLoads ++ [.call ret, .add 72 .rsp, .iretq]

/-- `int 0x80` from user code and everything up to the return from it. -/
def int80 (callee : Cpu → Cpu) (stack handler ret : U64) (user : Cpu) : Cpu :=
  execAll callee (user.interrupt stack kernelCodeSelector handler) (sbSyscallInt80Stub ret)

/-- What `sb_syscall_dispatch_entry` hands on, entered in state `t`. -/
def entryArgs (t : Cpu) : SyscallArgs :=
  sbSyscallDispatchEntry (t.regs .rdi) (t.regs .rsi) (t.regs .rdx) (t.regs .rcx) (t.regs .r8)

/-- The calls of `syscall_dispatch` made on the way. -/
def syscallsMade (callee : Cpu → Cpu) (stack handler ret : U64) (user : Cpu) : List SyscallArgs :=
  (calls callee (user.interrupt stack kernelCodeSelector handler) (sbSyscallInt80Stub ret)).map
    entryArgs

/-- The call that the documented ABI asks for. -/
def abiArgs (user : Cpu) : SyscallArgs :=
  ⟨user.regs .rax, user.regs .rdi, user.regs .rsi, user.regs .rdx, user.regs .r10, user.regs .r8⟩

/-- The dispatcher as compiled code: it keeps the System V convention and
returns in `rax` what `syscall_dispatch` answers.  The stub's frame is nine
saved registers over the five quadwords of the interrupt. -/
structure DispatchEntry (k : Clocked) (callee : Cpu → Cpu) : Prop where
  sysv : SysV callee 14
  result : ∀ t : Cpu, (callee t).regs .rax = syscallDispatch k (entryArgs t)

/-- The state in which the dispatcher is entered. -/
def dispatchState (callee : Cpu → Cpu) (stack handler ret : U64) (user : Cpu) : Cpu :=
  (execAll callee (user.interrupt stack kernelCodeSelector handler)
    (savedBySyscall.map .push ++ syscallLoads)).push ret

variable {callee : Cpu → Cpu} {stack handler ret : U64} {user : Cpu}

/-- The loads fill the argument registers from the other end of the stack than
the stub's comment says. -/
theorem execAll_syscallLoads {s : Cpu} {v₀ v₁ v₂ v₃ v₄ v₅ v₆ v₇ v₈ : U64} {vs : List U64}
    (h : StackHas s (v₀ :: v₁ :: v₂ :: v₃ :: v₄ :: v₅ :: v₆ :: v₇ :: v₈ :: vs)) :
    execAll callee s syscallLoads =
      (((((s.set .rdi v₈).set .rsi v₇).set .rdx v₆).set .rcx v₅).set .r8 v₁).set .r9 v₃ := by
  have h₁ := h.set (r := .rdi) (by decide) v₈
  have h₂ := h₁.set (r := .rsi) (by decide) v₇
  have h₃ := h₂.set (r := .rdx) (by decide) v₆
  have h₄ := h₃.set (r := .rcx) (by decide) v₅
  have h₅ := h₄.set (r := .r8) (by decide) v₁
  simp only [syscallLoads, execAll, List.foldl_cons, List.foldl_nil]
  rw [h.exec_load callee .rdi 8 64 rfl rfl, h₁.exec_load callee .rsi 7 56 rfl rfl,
    h₂.exec_load callee .rdx 6 48 rfl rfl, h₃.exec_load callee .rcx 5 40 rfl rfl,
    h₄.exec_load callee .r8 1 8 rfl rfl, h₅.exec_load callee .r9 3 24 rfl rfl]

/-- What the dispatcher finds: the stack that the pushes left, the callee-saved
registers of the user, and the arguments of the table above. -/
theorem dispatchState_spec (callee : Cpu → Cpu) (stack handler ret : U64) (user : Cpu) :
    (∃ s, dispatchState callee stack handler ret user = s.push ret ∧
      StackHas s ((savedBySyscall.map user.regs).reverse ++
        [user.rip, user.cs, user.rflags, user.regs .rsp, user.ss])) ∧
    (∀ r ∈ calleeSaved, (dispatchState callee stack handler ret user).regs r = user.regs r) ∧
    entryArgs (dispatchState callee stack handler ret user) = ⟨user.regs .r11, user.regs .r10,
      user.regs .r9, user.regs .r8, user.regs .rdi, 0⟩ := by
  obtain ⟨hstack, hregs⟩ := interrupt_push_spec callee user stack kernelCodeSelector handler
    savedBySyscall (by decide) (by decide)
  rw [dispatchState, execAll_append, execAll_syscallLoads hstack]
  refine ⟨⟨_, rfl, ?_⟩, fun r hr => ?_, ?_⟩
  · iterate 6 refine StackHas.set ?_ (by decide) _
    exact hstack
  · have hother : ∀ q ∈ calleeSaved, q ≠ .rsp ∧ q ≠ .r9 ∧ q ≠ .r8 ∧ q ≠ .rcx ∧ q ≠ .rdx ∧
        q ≠ .rsi ∧ q ≠ .rdi := by decide
    obtain ⟨hrsp, hr9, hr8, hrcx, hrdx, hrsi, hrdi⟩ := hother r hr
    rw [Cpu.push_of_ne _ hrsp, Cpu.set_of_ne _ hr9, Cpu.set_of_ne _ hr8, Cpu.set_of_ne _ hrcx,
      Cpu.set_of_ne _ hrdx, Cpu.set_of_ne _ hrsi, Cpu.set_of_ne _ hrdi]
    exact hregs r hrsp
  · simp [entryArgs, sbSyscallDispatchEntry, Cpu.push_of_ne, Cpu.set_of_ne, savedBySyscall]

/-- The stub enters the dispatcher once. -/
theorem syscallsMade_eq (callee : Cpu → Cpu) (stack handler ret : U64) (user : Cpu) :
    syscallsMade callee stack handler ret user =
      [⟨user.regs .r11, user.regs .r10, user.regs .r9, user.regs .r8, user.regs .rdi, 0⟩] := by
  have hnone : ∀ r, Instr.call r ∉ savedBySyscall.map .push ++ syscallLoads := by
    intro r
    simp [savedBySyscall, syscallLoads]
  rw [syscallsMade, sbSyscallInt80Stub, calls_append, calls_eq_nil _ _ hnone, List.nil_append]
  exact congrArg (fun a => [a]) (dispatchState_spec callee stack handler ret user).2.2

/-- The user resumes on the user's stack; every other register is as the
dispatcher left it. -/
theorem int80_regs (h : SysV callee 14) (stack handler ret : U64) (user : Cpu) :
    (int80 callee stack handler ret user).regs .rsp = user.regs .rsp ∧
    ∀ r, r ≠ .rsp → (int80 callee stack handler ret user).regs r =
      (callee (dispatchState callee stack handler ret user)).regs r := by
  obtain ⟨⟨s, hs, hstack⟩, -, -⟩ := dispatchState_spec callee stack handler ret user
  have hback := (hstack.call h (by simp [savedBySyscall]) (by simp [savedBySyscall]) ret).add 9
    (by simp [savedBySyscall])
  rw [← hs] at hback
  obtain ⟨-, hrsp, hregs⟩ := iretq_spec callee hback
  rw [int80, sbSyscallInt80Stub, execAll_append]
  refine ⟨hrsp, fun r hr => (hregs r hr).trans (Cpu.set_of_ne _ hr _)⟩

/-- **The stub implements the documented ABI exactly for the register files in
which the loaded registers agree with the documented ones.**  The dispatcher is
called once, with the documented number and arguments, and the user's `rax` is
that call's result, if and only if `r11 = rax`, `r10 = rdi`, `r9 = rsi`,
`r8 = rdx` and `r8 = 0`. -/
theorem int80_abi_iff {k : Clocked} (h : DispatchEntry k callee) (stack handler ret : U64)
    (user : Cpu) :
    (syscallsMade callee stack handler ret user = [abiArgs user] ∧
      (int80 callee stack handler ret user).regs .rax = syscallDispatch k (abiArgs user)) ↔
    user.regs .r11 = user.regs .rax ∧ user.regs .r10 = user.regs .rdi ∧
      user.regs .r9 = user.regs .rsi ∧ user.regs .r8 = user.regs .rdx ∧ user.regs .r8 = 0 := by
  have hargs := (dispatchState_spec callee stack handler ret user).2.2
  have hrax : (int80 callee stack handler ret user).regs .rax = syscallDispatch k
      ⟨user.regs .r11, user.regs .r10, user.regs .r9, user.regs .r8, user.regs .rdi, 0⟩ := by
    rw [(int80_regs h.sysv stack handler ret user).2 .rax (by decide), h.result, hargs]
  rw [syscallsMade_eq, hrax, List.cons_eq_cons, abiArgs, SyscallArgs.mk.injEq]
  constructor
  · rintro ⟨⟨⟨h₁, h₂, h₃, h₄, -, h₆⟩, -⟩, -⟩
    exact ⟨h₁, h₂, h₃, h₄, h₆.symm⟩
  · rintro ⟨h₁, h₂, h₃, h₄, h₅⟩
    refine ⟨⟨⟨h₁, h₂, h₃, h₄, h₂.symm, h₅.symm⟩, rfl⟩, ?_⟩
    rw [← h₁, ← h₂, ← h₃, ← h₄, h₅]

/-- A dispatcher that returns the result and touches nothing else. -/
def tidyDispatch (k : Clocked) (t : Cpu) : Cpu :=
  { t with
    regs := fun r => match r with
      | .rsp => t.regs .rsp + 8
      | .rax => syscallDispatch k (entryArgs t)
      | r => t.regs r
    rip := t.top }

theorem tidyDispatch_entry (k : Clocked) : DispatchEntry k (tidyDispatch k) := by
  refine ⟨sysV_of_regs (fun _ => rfl) (fun t r hr => ?_) 14, fun _ => rfl⟩
  cases r <;> first | rfl | exact absurd hr (by decide)

/-- The clock seven ticks after `scheduler_init`. -/
def bootClock : Clocked := ⟨schedulerInit ⟨fun _ => clearTask, 0, 0, 0⟩, 7⟩

/-- A processor with the given registers and everything else cleared. -/
def cpuWith (regs : Reg → U64) : Cpu := ⟨regs, fun _ => 0, 0, 0, 0, 0, []⟩

/-- System call 1 with the arguments 5 and 7, and with each value also in the register that
the stub takes it from. -/
def agreeingRegs : Reg → U64
  | .rax | .r11 => 1
  | .rdi | .r10 => 5
  | .rsi | .r9 => 7
  | .rbx => 9
  | _ => 0

/-- For these registers the five equations hold. -/
theorem int80_abi_agreeing :
    DispatchEntry bootClock (tidyDispatch bootClock) ∧
    syscallsMade (tidyDispatch bootClock) 0x8000 0 0 (cpuWith agreeingRegs) =
      [abiArgs (cpuWith agreeingRegs)] ∧
    (int80 (tidyDispatch bootClock) 0x8000 0 0 (cpuWith agreeingRegs)).regs .rax =
      syscallDispatch bootClock (abiArgs (cpuWith agreeingRegs)) :=
  ⟨tidyDispatch_entry _,
    (int80_abi_iff (tidyDispatch_entry bootClock) 0x8000 0 0 (cpuWith agreeingRegs)).2
      ⟨rfl, rfl, rfl, rfl, rfl⟩⟩

/-- The user asks for the process id (`rax = 1`) with `r11 = 0` and is given the
tick count. -/
theorem int80_not_abi :
    ¬ (syscallsMade (tidyDispatch bootClock) 0x8000 0 0 (cpuWith fun r =>
        if r = .rax then 1 else 0) = [abiArgs (cpuWith fun r => if r = .rax then 1 else 0)] ∧
      (int80 (tidyDispatch bootClock) 0x8000 0 0
        (cpuWith fun r => if r = .rax then 1 else 0)).regs .rax =
      syscallDispatch bootClock (abiArgs (cpuWith fun r => if r = .rax then 1 else 0))) := by
  rintro ⟨hcalls, -⟩
  rw [syscallsMade_eq] at hcalls
  exact absurd hcalls (by decide)

/-- A function within the convention that changes the user's value in every
register it may overwrite. -/
def scribble (user t : Cpu) : Cpu :=
  { t with
    regs := fun r =>
      if r = .rsp then t.regs .rsp + 8
      else if r ∈ scratch then user.regs r + 1
      else t.regs r
    rip := t.top }

theorem scribble_sysv (user : Cpu) : SysV (scribble user) 14 := by
  refine sysV_of_regs (fun _ => rfl) (fun t r hr => ?_) 14
  have hother : ∀ q ∈ calleeSaved, q ≠ .rsp ∧ q ∉ scratch := by decide
  rw [if_neg (hother r hr).1, if_neg (hother r hr).2]

theorem scribble_ne (user t : Cpu) {r : Reg} (hr : r ∈ scratch) (hrsp : r ≠ .rsp) :
    (scribble user t).regs r ≠ user.regs r := by
  have heq : (scribble user t).regs r = user.regs r + 1 := (if_neg hrsp).trans (if_pos hr)
  rw [heq]
  bv_omega

/-- **What a system call keeps.**  Whatever the dispatcher does, a register
other than `rax` survives exactly when the dispatcher returns with the user's
value in it; this is no condition for the stack pointer and the callee-saved
registers, and it is one for the eight registers of `scratch`.  For every
register file there is a dispatcher within the convention after which none of
the eight survives. -/
theorem int80_keeps_iff (stack handler ret : U64) (user : Cpu) :
    (∀ callee, SysV callee 14 →
      ((∀ r, r ≠ .rax → (int80 callee stack handler ret user).regs r = user.regs r) ↔
        ∀ r ∈ scratch, (callee (dispatchState callee stack handler ret user)).regs r =
          user.regs r)) ∧
    ∃ callee, SysV callee 14 ∧
      ∀ r ∈ scratch, (int80 callee stack handler ret user).regs r ≠ user.regs r := by
  have hscratch : ∀ r ∈ scratch, r ≠ .rsp ∧ r ≠ .rax ∧ r ∉ calleeSaved := by decide
  have hrest : ∀ r, r ≠ .rax → r ∉ scratch → r = .rsp ∨ r ∈ calleeSaved := by
    intro r
    cases r <;> decide
  refine ⟨fun callee h => ?_, ?_⟩
  · obtain ⟨hrsp, hregs⟩ := int80_regs h stack handler ret user
    obtain ⟨-, hsaved, -⟩ := dispatchState_spec callee stack handler ret user
    constructor
    · intro hall r hr
      obtain ⟨hne, hrax, -⟩ := hscratch r hr
      exact (hregs r hne).symm.trans (hall r hrax)
    · intro hall r hrax
      by_cases hr : r ∈ scratch
      · exact (hregs r (hscratch r hr).1).trans (hall r hr)
      · rcases hrest r hrax hr with rfl | hcallee
        · exact hrsp
        · have hne : r ≠ .rsp := by rintro rfl; exact absurd hcallee (by decide)
          rw [hregs r hne, h.saved _ r hcallee, hsaved r hcallee]
  · refine ⟨scribble user, scribble_sysv user, fun r hr => ?_⟩
    obtain ⟨hne, -, -⟩ := hscratch r hr
    rw [(int80_regs (scribble_sysv user) stack handler ret user).2 r hne]
    exact scribble_ne user _ hr hne

/-- Registers that the six loads of the stub leave as they are. -/
def steadyRegs : Reg → U64
  | .rax => 1
  | .rcx | .rdi | .r8 | .r11 => 5
  | .rsi | .r10 => 7
  | .rbx => 9
  | _ => 0

/-- For these registers a dispatcher that touches nothing else is safe, but another one is not. -/
theorem int80_keeps_steady :
    SysV (tidyDispatch bootClock) 14 ∧
    (∀ r, r ≠ .rax → (int80 (tidyDispatch bootClock) 0x8000 0 0 (cpuWith steadyRegs)).regs r =
      steadyRegs r) ∧
    ∃ callee, SysV callee 14 ∧
      (int80 callee 0x8000 0 0 (cpuWith steadyRegs)).regs .rdi ≠ 5 := by
  have hsysv := (tidyDispatch_entry bootClock).sysv
  obtain ⟨hkeeps, callee, hcallee, hlost⟩ := int80_keeps_iff 0x8000 0 0 (cpuWith steadyRegs)
  exact ⟨hsysv, (hkeeps _ hsysv).2 (by decide), callee, hcallee, hlost .rdi (by decide)⟩

/-- Even that dispatcher is not enough in general: with `r11 = 1` and everything
else clear, the user finds `1` in `rdi`. -/
theorem int80_not_keeps :
    SysV (tidyDispatch bootClock) 14 ∧ ¬ ∀ r, r ≠ .rax →
      (int80 (tidyDispatch bootClock) 0x8000 0 0 (cpuWith fun r => if r = .r11 then 1
        else 0)).regs r = (cpuWith fun r => if r = .r11 then 1 else 0).regs r := by
  have hsysv := (tidyDispatch_entry bootClock).sysv
  refine ⟨hsysv, fun hall => ?_⟩
  have hrdi := hall .rdi (by decide)
  rw [(int80_regs hsysv _ _ _ _).2 .rdi (by decide)] at hrdi
  have hnumber :=
    congrArg SyscallArgs.number (dispatchState_spec (tidyDispatch bootClock) 0x8000 0 0
    (cpuWith fun r => if r = .r11 then 1 else 0)).2.2
  exact absurd (hnumber.symm.trans hrdi) (by decide)

end SuiraBox.Arch
