/-
# The timer interrupt stub

`kernel/arch/x86_64/irq.S` (`serial_mark`, `sb_timer_irq_stub`).

The stub saves the nine registers that `sb_timer_tick` may overwrite, calls it,
acknowledges the interrupt and restores the nine.  Between these it writes
markers to the serial port, each through `%dx` and `%al`.  The last marker,
`0x52`, comes after the registers have been restored, so the interrupted code
resumes with `0x3F8` in the low half of `edx` and `0x52` in `al`.
-/

import SuiraBox.Arch.SyscallStub
import SuiraBox.Library.Words

namespace SuiraBox.Arch

open X64

/-- `movw $port, %dx; movb $value, %al; outb %al, %dx`. -/
def outbTo (port : U16) (value : U8) : List Instr := [.movw port .rdx, .movb value .rax, .outb]

/-- The macro `serial_mark`. -/
def serialMark (ch : U8) : List Instr := outbTo 0x3F8 ch

/-- The registers that the stub pushes, in order. -/
def savedByTimer : List Reg := [.rax, .rcx, .rdx, .rsi, .rdi, .r8, .r9, .r10, .r11]

/-- The stub between saving and restoring: markers `E`, `T` and `O` around the
call of `sb_timer_tick` and the end-of-interrupt command. -/
def timerBody (ret : U64) : List Instr :=
  serialMark 0x45 ++ ([.call ret] ++ (serialMark 0x54 ++ (outbTo 0x20 0x20 ++ serialMark 0x4F)))

/-- `sb_timer_irq_stub`; `ret` is the address after its `call`. -/
def sbTimerIrqStub (ret : U64) : List Instr :=
  savedByTimer.map .push ++ (timerBody ret ++
    (savedByTimer.reverse.map .pop ++ (serialMark 0x52 ++ [.iretq])))

/-- A timer interrupt, up to the return from it. -/
def timerIrq (callee : Cpu → Cpu) (stack handler ret : U64) (user : Cpu) : Cpu :=
  execAll callee (user.interrupt stack kernelCodeSelector handler) (sbTimerIrqStub ret)

variable {callee : Cpu → Cpu} {vs : List U64}

/-- A port write uses `rdx` and `rax` and nothing else. -/
theorem outbTo_spec (callee : Cpu → Cpu) (s : Cpu) (port : U16) (value : U8) :
    (execAll callee s (outbTo port value)).regs .rdx =
      s.regs .rdx &&& ~~~0xFFFF ||| port.setWidth 64 ∧
    (execAll callee s (outbTo port value)).regs .rax =
      s.regs .rax &&& ~~~0xFF ||| value.setWidth 64 ∧
    (∀ r, r ≠ .rdx → r ≠ .rax → (execAll callee s (outbTo port value)).regs r = s.regs r) ∧
    (execAll callee s (outbTo port value)).mem = s.mem := by
  refine ⟨rfl, rfl, fun r hrdx hrax => ?_, rfl⟩
  exact (Cpu.set_of_ne _ hrax _).trans (Cpu.set_of_ne _ hrdx _)

/-- `outb` leaves the stack. -/
theorem outbTo_stack {s : Cpu} (h : StackHas s vs) (port : U16) (value : U8) :
    StackHas (execAll callee s (outbTo port value)) vs := by
  obtain ⟨-, -, hregs, hmem⟩ := outbTo_spec callee s port value
  exact h.congr (hregs .rsp (by decide) (by decide)) hmem

/-- The body of the stub keeps its stack and the callee-saved registers. -/
theorem timerBody_spec {s : Cpu} (h : SysV callee 14) (hstack : StackHas s vs)
    (hlen : vs.length ≤ 14) (ret : U64) :
    StackHas (execAll callee s (timerBody ret)) vs ∧
      ∀ r ∈ calleeSaved, (execAll callee s (timerBody ret)).regs r = s.regs r := by
  have hmark := fun (t : Cpu) (port : U16) (value : U8) => (outbTo_spec callee t port value).2.2.1
  have hother : ∀ q ∈ calleeSaved, q ≠ .rdx ∧ q ≠ .rax ∧ q ≠ .rsp := by decide
  simp only [timerBody, execAll_append, serialMark]
  refine ⟨?_, fun r hr => ?_⟩
  · refine outbTo_stack (outbTo_stack (outbTo_stack ?_ _ _) _ _) _ _
    exact (outbTo_stack hstack _ _).call h hlen (by omega) ret
  · obtain ⟨hrdx, hrax, hrsp⟩ := hother r hr
    rw [hmark _ _ _ r hrdx hrax, hmark _ _ _ r hrdx hrax, hmark _ _ _ r hrdx hrax]
    refine (h.saved _ r hr).trans ?_
    rw [Cpu.push_of_ne _ hrsp, hmark _ _ _ r hrdx hrax]

/-- What the interrupted code finds: the last marker in `rdx` and `rax`, its own
values everywhere else. -/
theorem timerIrq_regs (h : SysV callee 14) (stack handler ret : U64) (user : Cpu) :
    (timerIrq callee stack handler ret user).regs .rdx =
      user.regs .rdx &&& ~~~0xFFFF ||| 0x3F8 ∧
    (timerIrq callee stack handler ret user).regs .rax = user.regs .rax &&& ~~~0xFF ||| 0x52 ∧
    ∀ r, r ≠ .rdx → r ≠ .rax → (timerIrq callee stack handler ret user).regs r = user.regs r := by
  obtain ⟨hsaved, hkeep⟩ := interrupt_push_spec callee user stack kernelCodeSelector handler
    savedByTimer (by decide) (by decide)
  obtain ⟨hbody, hcallee⟩ := timerBody_spec h hsaved (by simp [savedByTimer]) ret
  rw [← List.map_reverse] at hbody
  obtain ⟨hpop, hregs⟩ := execAll_pop callee savedByTimer.reverse (by decide) (by decide) _ hbody
  obtain ⟨-, hrsp, hiret⟩ := iretq_spec callee (outbTo_stack hpop 0x3F8 0x52)
  obtain ⟨hdx, hax, hmark, -⟩ := outbTo_spec callee (execAll callee (execAll callee (execAll callee
    (user.interrupt stack kernelCodeSelector handler) (savedByTimer.map .push)) (timerBody ret))
    (savedByTimer.reverse.map .pop)) 0x3F8 0x52
  simp only [timerIrq, sbTimerIrqStub, execAll_append]
  refine ⟨?_, ?_, fun r hrdx hrax => ?_⟩
  · refine (hiret .rdx (by decide)).trans (hdx.trans ?_)
    rw [hregs .rdx (by decide), if_pos (by decide)]
    rfl
  · refine (hiret .rax (by decide)).trans (hax.trans ?_)
    rw [hregs .rax (by decide), if_pos (by decide)]
    rfl
  · rcases eq_or_ne r .rsp with rfl | hne
    · exact hrsp
    · refine (hiret r hne).trans ((hmark r hrdx hrax).trans ((hregs r hne).trans ?_))
      split_ifs with hr
      · rfl
      · have hrest : r ∈ calleeSaved := by
          revert hr hne
          cases r <;> decide
        exact (hcallee r hrest).trans (hkeep r hne)

/-- **The timer interrupt is transparent exactly for the register files that
hold the last marker already.**  Whatever `sb_timer_tick` does within the
convention, every register survives if and only if `al = 0x52` and
`dx = 0x3F8` at the moment of interruption. -/
theorem timerIrq_transparent_iff (h : SysV callee 14) (stack handler ret : U64) (user : Cpu) :
    (∀ r, (timerIrq callee stack handler ret user).regs r = user.regs r) ↔
      (user.regs .rax).setWidth 8 = (0x52 : U8) ∧ (user.regs .rdx).setWidth 16 = (0x3F8 : U16) := by
  obtain ⟨hdx, hax, hregs⟩ := timerIrq_regs h stack handler ret user
  have hax_iff : user.regs .rax &&& ~~~0xFF ||| 0x52 = user.regs .rax ↔
      (user.regs .rax).setWidth 8 = (0x52 : U8) := by
    rw [← Words.insert_low_eq_iff (by decide)]
    rfl
  have hdx_iff : user.regs .rdx &&& ~~~0xFFFF ||| 0x3F8 = user.regs .rdx ↔
      (user.regs .rdx).setWidth 16 = (0x3F8 : U16) := by
    rw [← Words.insert_low_eq_iff (by decide)]
    rfl
  rw [← hax_iff, ← hdx_iff]
  constructor
  · intro hall
    exact ⟨hax.symm.trans (hall .rax), hdx.symm.trans (hall .rdx)⟩
  · rintro ⟨hrax, hrdx⟩ r
    rcases eq_or_ne r .rdx with rfl | hr
    · exact hdx.trans hrdx
    · rcases eq_or_ne r .rax with rfl | hr'
      · exact hax.trans hrax
      · exact hregs r hr hr'

/-- With the marker in place before the interrupt nothing is lost, though the
called function overwrites all it may. -/
theorem timerIrq_transparent_marked :
    SysV (scribble (cpuWith fun _ => 0)) 14 ∧ ∀ r,
      (timerIrq (scribble (cpuWith fun _ => 0)) 0x8000 0 0
        (cpuWith fun r => if r = .rax then 0x52 else if r = .rdx then 0x3F8 else 0)).regs r =
      (cpuWith fun r => if r = .rax then 0x52 else if r = .rdx then 0x3F8 else 0).regs r :=
  ⟨scribble_sysv _, (timerIrq_transparent_iff (scribble_sysv (cpuWith fun _ => 0)) 0x8000 0 0
    (cpuWith fun r => if r = .rax then 0x52 else if r = .rdx then 0x3F8 else 0)).2
    ⟨by decide, by decide⟩⟩

/-- With all registers clear, the interrupted code resumes with `0x52` in `rax`. -/
theorem timerIrq_not_transparent :
    SysV (scribble (cpuWith fun _ => 0)) 14 ∧ ¬ ∀ r,
      (timerIrq (scribble (cpuWith fun _ => 0)) 0x8000 0 0 (cpuWith fun _ => 0)).regs r =
        (cpuWith fun _ => 0).regs r := by
  refine ⟨scribble_sysv _, fun hall => ?_⟩
  have hax := (timerIrq_regs (scribble_sysv (cpuWith fun _ => 0)) 0x8000 0 0
    (cpuWith fun _ => 0)).2.1
  exact absurd (hax.symm.trans (hall .rax)) (by decide)

end SuiraBox.Arch
