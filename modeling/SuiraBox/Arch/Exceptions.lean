/-
# Exception reports

`kernel/arch/x86_64/exception.S` (`EXC_NOERR`, `EXC_ERR`, `sb_exception_common`) and
`kernel/arch/x86_64/interrupts.c` (`idt_set_gate`, `interrupts_init`).

For some exceptions the processor pushes an error code on top of `rip`, `cs` and `rflags`.  The
stubs of the others push a zero in its place, so that the common code finds the same stack in both
cases:

| offset | | loaded into |
| ---: | --- | --- |
| 0 | vector | `rdi` |
| 8 | error code, or zero | `rsi` |
| 16 | `rip` | `rdx` |
| 24 | `cs` | `rcx` |
| 32 | `rflags` | `r8` |

Vectors 17 and 29 have an error code and a stub that pushes a zero.  Their reports are off by one
slot: the error code is reported as `rip`, `rip` as `cs` and `cs` as `rflags`
(`report_truthful_iff`).
-/

import SuiraBox.Arch.TimerIrq
import Mathlib.Tactic.IntervalCases

namespace SuiraBox.Arch

open X64

/-! ### The stubs -/

/-- The instructions of the stubs. -/
inductive ExcInstr
  | plain (i : Instr)
  /-- `pushq $imm` -/
  | pushImm (imm : U64)
  | cli
  /-- `movq %cr2, %dst` -/
  | movCr2 (dst : Reg)

/-- One instruction; none of the plain ones is a call. -/
def ExcInstr.exec (cr2 : U64) (s : Cpu) : ExcInstr → Cpu
  | .plain i => X64.exec id s i
  | .pushImm imm => s.push imm
  | .cli => { s with rflags := s.rflags &&& ~~~0x200 }
  | .movCr2 dst => s.set dst cr2

def excRun (cr2 : U64) (s : Cpu) (code : List ExcInstr) : Cpu := code.foldl (ExcInstr.exec cr2) s

/-- `sb_exception_common` up to its call. -/
def sbExceptionCommon : List ExcInstr :=
  (serialMark 0x58).map .plain ++
    [.cli, .plain (.load 0 .rsp .rdi), .plain (.load 8 .rsp .rsi), .plain (.load 16 .rsp .rdx),
      .plain (.load 24 .rsp .rcx), .plain (.load 32 .rsp .r8), .movCr2 .r9]

/-- The macro `EXC_NOERR`. -/
def excNoerr (n : U64) : List ExcInstr := [.pushImm 0, .pushImm n] ++ sbExceptionCommon

/-- The macro `EXC_ERR`. -/
def excErr (n : U64) : List ExcInstr := [.pushImm n] ++ sbExceptionCommon

/-- `sb_exception_0` to `sb_exception_31`. -/
def sbExceptions : List (List ExcInstr) :=
  [excNoerr 0, excNoerr 1, excNoerr 2, excNoerr 3, excNoerr 4, excNoerr 5, excNoerr 6, excNoerr 7,
    excErr 8, excNoerr 9, excErr 10, excErr 11, excErr 12, excErr 13, excErr 14, excNoerr 15,
    excNoerr 16, excNoerr 17, excNoerr 18, excNoerr 19, excNoerr 20, excErr 21, excNoerr 22,
    excNoerr 23, excNoerr 24, excNoerr 25, excNoerr 26, excNoerr 27, excNoerr 28, excNoerr 29,
    excErr 30, excNoerr 31]

/-! ### The interrupt descriptor table -/

/-- `struct idt_entry`. -/
structure IdtEntry where
  offsetLow : U16
  selector : U16
  ist : U8
  typeAttr : U8
  offsetMid : U16
  offsetHigh : U32
  zero : U32

/-- The address that the processor enters through a gate. -/
def IdtEntry.handler (e : IdtEntry) : U64 := e.offsetHigh ++ e.offsetMid ++ e.offsetLow

/-- The gate of a handler. -/
def gateOf (handler : U64) (dpl : U8) : IdtEntry where
  offsetLow := (handler &&& 0xFFFF).setWidth 16
  selector := 0x18
  ist := 0
  typeAttr := 0x8E ||| ((dpl &&& 3) <<< 5)
  offsetMid := ((handler >>> 16) &&& 0xFFFF).setWidth 16
  offsetHigh := (handler >>> 32).setWidth 32
  zero := 0

/-- `idt_set_gate`. -/
def idtSetGate (idt : U8 → IdtEntry) (vector : U8) (handler : U64) (dpl : U8) : U8 → IdtEntry :=
  Function.update idt vector (gateOf handler dpl)

/-- `interrupts_init`, up to `lidt`; `stub i` is the address of `sb_exception_i`. -/
def interruptsInit (stub : ℕ → U64) (idt : U8 → IdtEntry) : U8 → IdtEntry :=
  let cleared := (List.range 256).foldl (fun idt i =>
    idtSetGate (Function.update idt (BitVec.ofNat 8 i) ⟨0, 0, 0, 0, 0, 0, 0⟩) (BitVec.ofNat 8 i)
    (stub 0) 0) idt
  (List.range 32).foldl (fun idt i => idtSetGate idt (BitVec.ofNat 8 i) (stub i) 0) cleared

/-- A gate has its handler in three parts, and none of it is lost. -/
theorem handler_gateOf (handler : U64) (dpl : U8) : (gateOf handler dpl).handler = handler := by
  refine BitVec.eq_of_toNat_eq ?_
  simp only [IdtEntry.handler, gateOf]
  rw [Words.toNat_append, Words.toNat_append, Words.toNat_setWidth_and _ rfl,
    Words.toNat_setWidth_and _ rfl, BitVec.toNat_setWidth, BitVec.toNat_ushiftRight,
    BitVec.toNat_ushiftRight, Nat.shiftRight_eq_div_pow, Nat.shiftRight_eq_div_pow]
  omega

/-- The loop over the first `n` vectors sets their gates. -/
theorem foldl_idtSetGate (stub : ℕ → U64) (idt : U8 → IdtEntry) {n : ℕ} (hn : n ≤ 256) {v : U8}
    (hv : v.toNat < n) :
    (List.range n).foldl (fun idt i => idtSetGate idt (BitVec.ofNat 8 i) (stub i) 0) idt v =
      gateOf (stub v.toNat) 0 := by
  induction n with
  | zero => exact absurd hv (Nat.not_lt_zero _)
  | succ n ih =>
    rw [List.range_succ, List.foldl_concat, idtSetGate]
    rcases Nat.lt_succ_iff_lt_or_eq.1 hv with hlt | rfl
    · have hne : v ≠ BitVec.ofNat 8 n := fun he => by
        rw [he, BitVec.toNat_ofNat, Nat.mod_eq_of_lt (by omega)] at hlt
        exact Nat.lt_irrefl n hlt
      rw [Function.update_of_ne hne]
      exact ih (by omega) hlt
    · rw [BitVec.ofNat_toNat, BitVec.setWidth_eq, Function.update_self]

/-- Each of the 32 exceptions enters its own stub. -/
theorem interruptsInit_exception (stub : ℕ → U64) (idt : U8 → IdtEntry) {v : U8}
    (hv : v.toNat < 32) :
    interruptsInit stub idt v = gateOf (stub v.toNat) 0 := foldl_idtSetGate stub _ (by decide) hv

/-! ### An exception, up to the report -/

/-- The exceptions for which the processor pushes an error code. -/
def errorVectors : List ℕ := [8, 10, 11, 12, 13, 14, 17, 21, 29, 30]

/-- What the processor does before the first instruction of the handler. -/
def exception (s : Cpu) (stack : U64) (gate : IdtEntry) (v : U8) (error : U64) : Cpu :=
  let t := s.interrupt stack (gate.selector.setWidth 64) gate.handler
  if v.toNat ∈ errorVectors then t.push error else t

/-- The arguments of `sb_panic_from_exception`. -/
structure PanicCall where
  vector : U8
  errorCode : U64
  rip : U64
  cs : U64
  rflags : U64
  cr2 : U64
  deriving DecidableEq

/-- A call of it, from the state in which it is entered. -/
def panicCall (t : Cpu) : PanicCall :=
  ⟨(t.regs .rdi).setWidth 8, t.regs .rsi, t.regs .rdx, t.regs .rcx, t.regs .r8, t.regs .r9⟩

/-- The report of exception `v` in state `s`.  `text` is the code at an address, and `ret` the
address after the call. -/
def reported (text : U64 → List ExcInstr) (idt : U8 → IdtEntry) (s : Cpu) (stack : U64) (v : U8)
    (error cr2 ret : U64) : PanicCall :=
  let entered := exception s stack (idt v) v error
  panicCall ((excRun cr2 entered (text entered.rip)).push ret)

/-- The stubs are where the linker says. -/
def StubsLinked (text : U64 → List ExcInstr) (stub : ℕ → U64) : Prop :=
  ∀ i < 32, sbExceptions[i]? = some (text (stub i))

/-- The common code reports the five quadwords that it finds on the stack. -/
theorem common_reports {t : Cpu} {a b c d e : U64} {vs : List U64}
    (h : StackHas t (a :: b :: c :: d :: e :: vs)) (cr2 ret : U64) :
    panicCall ((excRun cr2 t sbExceptionCommon).push ret) = ⟨a.setWidth 8, b, c, d, e, cr2⟩ := by
  let t₀ : Cpu := ExcInstr.exec cr2 (execAll id t (serialMark 0x58)) .cli
  have hmark : StackHas (execAll id t (serialMark 0x58)) (a :: b :: c :: d :: e :: vs) :=
    outbTo_stack h 0x3F8 0x58
  have h₀ : StackHas t₀ (a :: b :: c :: d :: e :: vs) := hmark.congr rfl rfl
  have h₁ := h₀.set (by decide : Reg.rdi ≠ .rsp) a
  have h₂ := h₁.set (by decide : Reg.rsi ≠ .rsp) b
  have h₃ := h₂.set (by decide : Reg.rdx ≠ .rsp) c
  have h₄ := h₃.set (by decide : Reg.rcx ≠ .rsp) d
  have hrun : excRun cr2 t sbExceptionCommon =
      (((((t₀.set .rdi a).set .rsi b).set .rdx c).set .rcx d).set .r8 e).set .r9 cr2 := by
    change (X64.exec id (X64.exec id (X64.exec id (X64.exec id (X64.exec id t₀
      (.load 0 .rsp .rdi)) (.load 8 .rsp .rsi)) (.load 16 .rsp .rdx)) (.load 24 .rsp .rcx))
      (.load 32 .rsp .r8)).set .r9 cr2 = _
    rw [h₀.exec_load id .rdi 0 0 rfl rfl, h₁.exec_load id .rsi 1 8 rfl rfl,
      h₂.exec_load id .rdx 2 16 rfl rfl, h₃.exec_load id .rcx 3 24 rfl rfl,
      h₄.exec_load id .r8 4 32 rfl rfl]
  rw [hrun]
  rfl

/-- The exceptions with the stub `EXC_ERR`. -/
def excErrVectors : List ℕ := [8, 10, 11, 12, 13, 14, 21, 30]

/-- The stubs of the table, by vector. -/
theorem sbExceptions_eq {n : ℕ} (hn : n < 32) :
    sbExceptions[n]? =
      some (if n ∈ excErrVectors then excErr (BitVec.ofNat 64 n)
        else excNoerr (BitVec.ofNat 64 n)) := by
  interval_cases n <;> rfl

section Report

variable {text : U64 → List ExcInstr} {stub : ℕ → U64} {v : U8}

/-- The processor has entered the stub of the exception, with the frame on the stack and the error
code, if there is one, on top of it. -/
theorem exception_spec (hlink : StubsLinked text stub) (idt : U8 → IdtEntry)
    (hv : v.toNat < 32) (s : Cpu) (stack error : U64) :
    let entered := exception s stack (interruptsInit stub idt v) v error
    text entered.rip = (if v.toNat ∈ excErrVectors then excErr (v.setWidth 64)
    else excNoerr (v.setWidth 64)) ∧
    StackHas entered ((if v.toNat ∈ errorVectors then [error] else []) ++
      [s.rip, s.cs, s.rflags, s.regs .rsp, s.ss]) := by
  have hcode : text (stub v.toNat) = _ :=
    Option.some.inj ((hlink _ hv).symm.trans (sbExceptions_eq hv))
  have hwide : BitVec.ofNat 64 v.toNat = v.setWidth 64 := BitVec.ofNat_toNat ..
  rw [hwide] at hcode
  obtain ⟨hframe, -⟩ :=
    interrupt_spec s stack ((gateOf (stub v.toNat) 0).selector.setWidth 64) (stub v.toNat)
  rw [interruptsInit_exception stub idt hv, exception, handler_gateOf]
  dsimp only
  rcases Decidable.em (v.toNat ∈ errorVectors) with herror | hnone
  · rw [if_pos herror, if_pos herror]
    exact ⟨hcode, hframe.push (by simp) error⟩
  · rw [if_neg hnone, if_neg hnone]
    exact ⟨hcode, hframe⟩

/-- **What is reported.** -/
theorem reported_eq (hlink : StubsLinked text stub) (idt : U8 → IdtEntry)
    (hv : v.toNat < 32) (s : Cpu) (stack error cr2 ret : U64) :
    reported text (interruptsInit stub idt) s stack v error cr2 ret =
      if v = 17 ∨ v = 29 then ⟨v, 0, error, s.rip, s.cs, cr2⟩
      else ⟨v, if v.toNat ∈ errorVectors then error else 0, s.rip, s.cs, s.rflags, cr2⟩ := by
  obtain ⟨hcode, hstack⟩ := exception_spec hlink idt hv s stack error
  -- the two stubs that do not match are those of 17 and 29
  have hvectors : ∀ v : U8, v.toNat ∈ errorVectors ↔ v.toNat ∈ excErrVectors ∨ v = 17 ∨ v = 29 := by
    decide
  have happart : ∀ v : U8, v.toNat ∈ excErrVectors → ¬ (v = 17 ∨ v = 29) := by decide
  have hback : (v.setWidth 64 : U64).setWidth 8 = v := BitVec.setWidth_setWidth_of_le v (by decide)
  rw [reported, hcode]
  rcases Decidable.em (v.toNat ∈ excErrVectors) with herr | hnoerr
  · have herror := (hvectors v).2 (Or.inl herr)
    rw [if_pos herror] at hstack
    rw [if_pos herr, if_neg (happart v herr), if_pos herror]
    have hreport := common_reports (hstack.push (by simp) (v.setWidth 64)) cr2 ret
    rwa [hback] at hreport
  · rw [if_neg hnoerr]
    rcases Decidable.em (v = 17 ∨ v = 29) with hodd | heven
    · rw [if_pos ((hvectors v).2 (Or.inr hodd))] at hstack
      rw [if_pos hodd]
      have hreport :=
        common_reports ((hstack.push (by simp) 0).push (by simp) (v.setWidth 64)) cr2 ret
      rwa [hback] at hreport
    · have hnone : ¬ v.toNat ∈ errorVectors := fun h => ((hvectors v).1 h).elim hnoerr heven
      rw [if_neg hnone] at hstack
      rw [if_neg heven, if_neg hnone]
      have hreport :=
        common_reports ((hstack.push (by simp) 0).push (by simp) (v.setWidth 64)) cr2 ret
      rwa [hback] at hreport

/-- **When reports are truthful.**  For every vector but 17 and 29; and for these two only if the
error code and the frame are zero. -/
theorem report_truthful_iff (hlink : StubsLinked text stub) (idt : U8 → IdtEntry)
    (hv : v.toNat < 32) (s : Cpu) (stack error cr2 ret : U64) :
    reported text (interruptsInit stub idt) s stack v error cr2 ret =
        ⟨v, if v.toNat ∈ errorVectors then error else 0, s.rip, s.cs, s.rflags, cr2⟩ ↔
      ¬ (v = 17 ∨ v = 29) ∨ error = 0 ∧ s.rip = 0 ∧ s.cs = 0 ∧ s.rflags = 0 := by
  rw [reported_eq hlink idt hv]
  rcases Decidable.em (v = 17 ∨ v = 29) with hodd | heven
  · have hpushed : ∀ v : U8, v = 17 ∨ v = 29 → v.toNat ∈ errorVectors := by decide
    rw [if_pos hodd, if_pos (hpushed v hodd), or_iff_right (not_not.2 hodd), PanicCall.mk.injEq]
    constructor
    · rintro ⟨-, herror, hrip, hcs, hrflags, -⟩
      rw [← herror] at hrip
      rw [← hrip] at hcs
      rw [← hcs] at hrflags
      exact ⟨herror.symm, hrip.symm, hcs.symm, hrflags.symm⟩
    · rintro ⟨herror, hrip, hcs, hrflags⟩
      rw [herror, hrip, hcs, hrflags]
      exact ⟨rfl, rfl, rfl, rfl, rfl, rfl⟩
  · rw [if_neg heven]
    exact iff_of_true rfl (Or.inl heven)

end Report

/-- The stubs at the addresses 0 to 31. -/
def smallText (a : U64) : List ExcInstr := sbExceptions.getD a.toNat []

/-- The kernel text of the examples has the stubs. -/
theorem stubsLinked_smallText : StubsLinked smallText (BitVec.ofNat 64) := by
  intro i hi
  have hlen : i < sbExceptions.length := hi
  rw [smallText, BitVec.toNat_ofNat, Nat.mod_eq_of_lt (by omega), List.getD_eq_getElem?_getD,
    List.getElem?_eq_getElem hlen, Option.getD_some]

/-- The table before it is set up. -/
def zeroIdt : U8 → IdtEntry := fun _ => ⟨0, 0, 0, 0, 0, 0, 0⟩

/-- The processor in a user program, at 400000h. -/
def userCpu : Cpu := ⟨fun _ => 0x8000, fun _ => 0, 0x400000, 0x23, 0x202, 0x1B, []⟩

/-- A page fault at 1000h is reported as it is. -/
theorem pageFault_truthful :
    reported smallText (interruptsInit (BitVec.ofNat 64) zeroIdt) userCpu 0x9000 14 6 0x1000 0 =
      ⟨14, 6, 0x400000, 0x23, 0x202, 0x1000⟩ :=
  (report_truthful_iff stubsLinked_smallText zeroIdt (by decide) userCpu 0x9000 6 0x1000 0).2
    (Or.inl (by decide))

/-- An alignment check, with its error code 0, is reported as one at address 0. -/
theorem alignmentCheck_shifted :
    17 ∈ errorVectors ∧
    reported smallText (interruptsInit (BitVec.ofNat 64) zeroIdt) userCpu 0x9000 17 0 0 0 =
      ⟨17, 0, 0, 0x400000, 0x23, 0⟩ ∧
    reported smallText (interruptsInit (BitVec.ofNat 64) zeroIdt) userCpu 0x9000 17 0 0 0 ≠
      ⟨17, 0, 0x400000, 0x23, 0x202, 0⟩ := by
  have hreport :=
    reported_eq stubsLinked_smallText zeroIdt (by decide : (17 : U8).toNat < 32) userCpu
    0x9000 0 0 0
  rw [if_pos (Or.inl rfl)] at hreport
  refine ⟨by decide, hreport, ?_⟩
  rw [hreport]
  decide

end SuiraBox.Arch
