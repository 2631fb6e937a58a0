/-
# A small x86-64 machine

The sixteen general-purpose registers, byte memory and the handful of
instructions that interrupt stubs and context switches are written in.  Code is
straight-line: a list of instructions, with calls to compiled functions as
single instructions whose effect is a parameter.  What a compiled function may
do is the System V calling convention (`SysV`).

`StackHas s vs` says that the quadwords from the stack pointer upwards are
`vs`.  There is one rule for each instruction that touches the stack, and the
rules for saving and restoring a list of registers follow by induction.
-/

import SuiraBox.Library.ByteMem
import Mathlib.Logic.Function.Basic
import Mathlib.Data.List.Nodup

namespace X64

open ByteMem

/-- The general-purpose registers. -/
inductive Reg
  | rax | rbx | rcx | rdx | rsi | rdi | rbp | rsp
  | r8 | r9 | r10 | r11 | r12 | r13 | r14 | r15
  deriving DecidableEq

/-- The registers that a called function preserves, `rsp` apart. -/
def calleeSaved : List Reg := [.rbx, .rbp, .r12, .r13, .r14, .r15]

/-- The registers that a called function may overwrite, the result `rax`
apart. -/
def scratch : List Reg := [.rcx, .rdx, .rsi, .rdi, .r8, .r9, .r10, .r11]

/-- The state of the processor, with the bytes written to I/O ports so far. -/
structure Cpu where
  regs : Reg → BitVec 64
  mem : Mem
  rip : BitVec 64
  cs : BitVec 64
  rflags : BitVec 64
  ss : BitVec 64
  ports : List (BitVec 16 × BitVec 8)

namespace Cpu

/-- Write a register. -/
def set (s : Cpu) (r : Reg) (v : BitVec 64) : Cpu := { s with regs := Function.update s.regs r v }

/-- `pushq`: the stack pointer moves down and the value is stored there. -/
def push (s : Cpu) (v : BitVec 64) : Cpu :=
  { s with
    regs := Function.update s.regs .rsp (s.regs .rsp - 8)
    mem := write64 s.mem (s.regs .rsp - 8).toNat v }

/-- The quadword on top of the stack. -/
def top (s : Cpu) : BitVec 64 := read64 s.mem (s.regs .rsp).toNat

/-- Drop the quadword on top of the stack. -/
def drop (s : Cpu) : Cpu := s.set .rsp (s.regs .rsp + 8)

/-- Interrupt delivery in 64-bit mode: switch to `stack`, align it to 16 bytes,
push `ss`, `rsp`, `rflags`, `cs` and `rip`, and enter the handler with
interrupts off. -/
def interrupt (s : Cpu) (stack selector handler : BitVec 64) : Cpu :=
  let t := s.set .rsp (stack &&& ~~~15)
  let t := ((((t.push s.ss).push (s.regs .rsp)).push s.rflags).push s.cs).push s.rip
  { t with rip := handler, cs := selector, rflags := s.rflags &&& ~~~0x300 }

/-- A register that is written holds the value. -/
@[simp] theorem set_self (s : Cpu) (r : Reg) (v : BitVec 64) : (s.set r v).regs r = v := by
  simp [set]

theorem set_of_ne (s : Cpu) {r q : Reg} (h : q ≠ r) (v : BitVec 64) :
    (s.set r v).regs q = s.regs q := by
  simp [set, h]

/-- Writing a register does not touch memory. -/
@[simp] theorem set_mem (s : Cpu) (r : Reg) (v : BitVec 64) : (s.set r v).mem = s.mem := rfl

/-- A push moves the stack pointer down. -/
@[simp] theorem push_rsp (s : Cpu) (v : BitVec 64) : (s.push v).regs .rsp = s.regs .rsp - 8 := by
  simp [push]

theorem push_of_ne (s : Cpu) {q : Reg} (h : q ≠ .rsp) (v : BitVec 64) :
    (s.push v).regs q = s.regs q := by
  simp [push, h]

/-- What has been pushed is on top. -/
@[simp] theorem push_top (s : Cpu) (v : BitVec 64) : (s.push v).top = v := by
  rw [top, push_rsp]
  exact read64_write64 ..

/-- Dropping the top moves the stack pointer up. -/
@[simp] theorem drop_rsp (s : Cpu) : s.drop.regs .rsp = s.regs .rsp + 8 := set_self ..

theorem drop_of_ne (s : Cpu) {q : Reg} (h : q ≠ .rsp) : s.drop.regs q = s.regs q := set_of_ne _ h _

end Cpu

/-- The instructions; operands are in AT&T order. -/
inductive Instr
  /-- `pushq %r` -/
  | push (r : Reg)
  /-- `popq %r` -/
  | pop (r : Reg)
  /-- `movq disp(%base), %dst` -/
  | load (disp : BitVec 64) (base dst : Reg)
  /-- `movq %src, disp(%base)` -/
  | store (src : Reg) (disp : BitVec 64) (base : Reg)
  /-- `leaq disp(%base), %dst` -/
  | lea (disp : BitVec 64) (base dst : Reg)
  /-- `addq $imm, %dst` -/
  | add (imm : BitVec 64) (dst : Reg)
  /-- `movw $imm, %dst`, on the low 16 bits -/
  | movw (imm : BitVec 16) (dst : Reg)
  /-- `movb $imm, %dst`, on the low 8 bits -/
  | movb (imm : BitVec 8) (dst : Reg)
  /-- `outb %al, %dx` -/
  | outb
  /-- `call` of the compiled function, with the address to return to -/
  | call (ret : BitVec 64)
  /-- `retq` -/
  | ret
  /-- `iretq` -/
  | iretq

/-- One instruction.  `callee` is the effect of the called function, from its
first instruction to its return. -/
def exec (callee : Cpu → Cpu) (s : Cpu) : Instr → Cpu
  | .push r => s.push (s.regs r)
  | .pop r => s.drop.set r s.top
  | .load disp base dst => s.set dst (read64 s.mem (s.regs base + disp).toNat)
  | .store src disp base =>
    { s with mem := write64 s.mem (s.regs base + disp).toNat (s.regs src) }
  | .lea disp base dst => s.set dst (s.regs base + disp)
  | .add imm dst => s.set dst (s.regs dst + imm)
  | .movw imm dst => s.set dst (s.regs dst &&& ~~~0xFFFF ||| imm.setWidth 64)
  | .movb imm dst => s.set dst (s.regs dst &&& ~~~0xFF ||| imm.setWidth 64)
  | .outb => { s with ports := s.ports ++ [((s.regs .rdx).setWidth 16, (s.regs .rax).setWidth 8)] }
  | .call ret => callee (s.push ret)
  | .ret => { s.drop with rip := s.top }
  | .iretq =>
    let s₁ := s.drop
    let s₂ := s₁.drop
    let s₃ := s₂.drop
    let s₄ := s₃.drop
    { s.set .rsp s₃.top with rip := s.top, cs := s₁.top, rflags := s₂.top, ss := s₄.top }

/-- A straight-line program. -/
def execAll (callee : Cpu → Cpu) (s : Cpu) (code : List Instr) : Cpu := code.foldl (exec callee) s

/-- The states in which a program enters the functions it calls. -/
def calls (callee : Cpu → Cpu) : Cpu → List Instr → List Cpu
  | _, [] => []
  | s, .call ret :: code => s.push ret :: calls callee (callee (s.push ret)) code
  | s, i :: code => calls callee (exec callee s i) code

/-- Code runs in sequence. -/
theorem execAll_append (callee : Cpu → Cpu) (s : Cpu) (xs ys : List Instr) :
    execAll callee s (xs ++ ys) = execAll callee (execAll callee s xs) ys :=
  List.foldl_append

/-- The calls of a sequence, in order. -/
theorem calls_append (callee : Cpu → Cpu) (s : Cpu) (xs ys : List Instr) :
    calls callee s (xs ++ ys) = calls callee s xs ++ calls callee (execAll callee s xs) ys := by
  induction xs generalizing s with
  | nil => rfl
  | cons i xs ih =>
    cases i <;> simp only [List.cons_append, calls, ih] <;> rfl

/-- Code without a call instruction calls nothing. -/
theorem calls_eq_nil (callee : Cpu → Cpu) (s : Cpu) {code : List Instr}
    (h : ∀ ret, Instr.call ret ∉ code) : calls callee s code = [] := by
  induction code generalizing s with
  | nil => rfl
  | cons i code ih =>
    have htail := fun t => ih t fun ret hm => h ret (List.mem_cons_of_mem _ hm)
    cases i with
    | call ret => exact absurd (List.mem_cons_self ..) (h ret)
    | _ => exact htail _

/-- What the System V convention promises of a called function: it returns to
its return address with the stack pointer and the callee-saved registers as
they were, and leaves the `frame` quadwords of its caller's stack frame
alone.  Everything else may change. -/
structure SysV (callee : Cpu → Cpu) (frame : ℕ) : Prop where
  rip : ∀ s, (callee s).rip = s.top
  rsp : ∀ s, (callee s).regs .rsp = s.regs .rsp + 8
  saved : ∀ s, ∀ r ∈ calleeSaved, (callee s).regs r = s.regs r
  frame : ∀ s, ∀ j < frame,
    read64 (callee s).mem (s.regs .rsp + 8 + BitVec.ofNat 64 (8 * j)).toNat =
    read64 s.mem (s.regs .rsp + 8 + BitVec.ofNat 64 (8 * j)).toNat

/-- A function that only computes registers keeps the convention when it returns
the stack pointer and the callee-saved registers as it should. -/
theorem sysV_of_regs {g : Cpu → Reg → BitVec 64} (hrsp : ∀ t, g t .rsp = t.regs .rsp + 8)
    (hsaved : ∀ t, ∀ r ∈ calleeSaved, g t r = t.regs r) (frame : ℕ) :
    SysV (fun t => { t with regs := g t, rip := t.top }) frame :=
  ⟨fun _ => rfl, hrsp, hsaved, fun _ _ _ => by rfl⟩

/-! ### Rules for the stack -/

/-- The quadwords from the stack pointer upwards are `vs`. -/
structure StackHas (s : Cpu) (vs : List (BitVec 64)) : Prop where
  aligned : (s.regs .rsp).toNat % 8 = 0
  small : vs.length < 2 ^ 32
  cell : ∀ j (h : j < vs.length),
    read64 s.mem (s.regs .rsp + BitVec.ofNat 64 (8 * j)).toNat = vs.get ⟨j, h⟩

/-- An aligned stack has nothing on it to begin with. -/
theorem StackHas.nil {s : Cpu} (h : (s.regs .rsp).toNat % 8 = 0) : StackHas s [] :=
  ⟨h, by simp, fun j hj => absurd hj (by simp)⟩

variable {s : Cpu} {v : BitVec 64} {vs : List (BitVec 64)}

/-- Only the registers and the memory matter. -/
theorem StackHas.congr {t : Cpu} (h : StackHas s vs) (hrsp : t.regs .rsp = s.regs .rsp)
    (hmem : t.mem = s.mem) : StackHas t vs :=
  ⟨hrsp ▸ h.aligned, h.small, fun j hj => by rw [hrsp, hmem]; exact h.cell j hj⟩

/-- A push puts one more value on the stack. -/
theorem StackHas.push (h : StackHas s vs) (hlen : vs.length + 1 < 2 ^ 32) (v : BitVec 64) :
    StackHas (s.push v) (v :: vs) := by
  have hal := h.aligned
  refine ⟨by rw [Cpu.push_rsp]; bv_omega, by simpa using hlen, fun j hj => ?_⟩
  rw [Cpu.push_rsp]
  cases j with
  | zero =>
    rw [Nat.mul_zero, BitVec.add_zero]
    exact read64_write64 ..
  | succ j =>
    have hj' : j < vs.length := by simpa using hj
    have haddr : s.regs .rsp - 8 + BitVec.ofNat 64 (8 * (j + 1)) =
        s.regs .rsp + BitVec.ofNat 64 (8 * j) := by bv_omega
    rw [haddr]
    refine (read64_write64_of_apart s.mem v ?_).trans (h.cell j hj')
    have hj'' : 8 * j < 2 ^ 36 := by omega
    bv_omega

/-- The first value is on top. -/
theorem StackHas.top (h : StackHas s (v :: vs)) : s.top = v := by
  have hcell := h.cell 0 (by simp)
  rw [Nat.mul_zero, BitVec.add_zero] at hcell
  exact hcell

/-- Dropping the top uncovers the rest. -/
theorem StackHas.drop (h : StackHas s (v :: vs)) : StackHas s.drop vs := by
  have hal := h.aligned
  have hsmall := h.small
  rw [List.length_cons] at hsmall
  refine ⟨by rw [Cpu.drop_rsp]; bv_omega, by omega, fun j hj => ?_⟩
  have haddr : s.regs .rsp + 8 + BitVec.ofNat 64 (8 * j) =
      s.regs .rsp + BitVec.ofNat 64 (8 * (j + 1)) := by bv_omega
  rw [Cpu.drop_rsp, haddr]
  exact h.cell (j + 1) (by simpa using hj)

/-- Writing a register other than the stack pointer leaves the stack alone. -/
theorem StackHas.set (h : StackHas s vs) {r : Reg} (hr : r ≠ .rsp) (v : BitVec 64) :
    StackHas (s.set r v) vs :=
  h.congr (Cpu.set_of_ne s hr.symm v) rfl

/-- A call leaves the caller's stack as it found it. -/
theorem StackHas.call (h : StackHas s vs) {callee : Cpu → Cpu} {frame : ℕ} (hc : SysV callee frame)
    (hlen : vs.length ≤ frame) (hlen' : vs.length + 1 < 2 ^ 32) (ret : BitVec 64) :
    StackHas (callee (s.push ret)) vs := by
  have hpush := h.push hlen' ret
  have hdrop := hpush.drop
  have hrsp : (callee (s.push ret)).regs .rsp = (s.push ret).drop.regs .rsp :=
    (hc.rsp _).trans (Cpu.drop_rsp _).symm
  refine ⟨hrsp ▸ hdrop.aligned, h.small, fun j hj => ?_⟩
  rw [hc.rsp, hc.frame _ j (by omega)]
  have hcell := hdrop.cell j hj
  rwa [Cpu.drop_rsp] at hcell

/-- Saving registers puts their values on the stack, the last one on top, and
changes no register but the stack pointer. -/
theorem execAll_push (callee : Cpu → Cpu) (rs : List Reg) (hrs : Reg.rsp ∉ rs) (h : StackHas s vs)
    (hlen : rs.length + vs.length < 2 ^ 32) :
    StackHas (execAll callee s (rs.map .push)) ((rs.map s.regs).reverse ++ vs) ∧
      ∀ r, r ≠ .rsp → (execAll callee s (rs.map .push)).regs r = s.regs r := by
  induction rs generalizing s vs with
  | nil => exact ⟨h, fun _ _ => rfl⟩
  | cons r rs ih =>
    rw [List.length_cons] at hlen
    have hkeep : ∀ q, q ≠ .rsp → (s.push (s.regs r)).regs q = s.regs q :=
      fun q hq => s.push_of_ne hq _
    have hrs' : Reg.rsp ∉ rs := fun hm => hrs (List.mem_cons_of_mem _ hm)
    obtain ⟨hstack, hregs⟩ := ih hrs' (h.push (by omega) (s.regs r)) (by simp; omega)
    refine ⟨?_, fun q hq => (hregs q hq).trans (hkeep q hq)⟩
    have hmap : rs.map (s.push (s.regs r)).regs = rs.map s.regs :=
      List.map_congr_left fun q hq => hkeep q fun he => hrs' (he ▸ hq)
    rw [hmap] at hstack
    rw [List.map_cons, List.map_cons, List.reverse_cons, List.append_assoc]
    exact hstack

/-- Restoring registers takes their values from the stack and changes no other
register but the stack pointer. -/
theorem execAll_pop (callee : Cpu → Cpu) (rs : List Reg) (hrs : Reg.rsp ∉ rs) (hnd : rs.Nodup)
    (f : Reg → BitVec 64) (h : StackHas s (rs.map f ++ vs)) :
    StackHas (execAll callee s (rs.map .pop)) vs ∧
      ∀ r, r ≠ .rsp → (execAll callee s (rs.map .pop)).regs r = if r ∈ rs then f r
      else s.regs r := by
  induction rs generalizing s with
  | nil => exact ⟨h, fun _ _ => by simp [execAll]⟩
  | cons r rs ih =>
    obtain ⟨hr, hnd'⟩ := List.nodup_cons.1 hnd
    rw [List.map_cons, List.cons_append] at h
    have hne : r ≠ .rsp := fun he => hrs (he ▸ List.mem_cons_self ..)
    have hrs' : Reg.rsp ∉ rs := fun hm => hrs (List.mem_cons_of_mem _ hm)
    obtain ⟨hstack, hregs⟩ := ih hrs' hnd' (h.drop.set hne s.top)
    refine ⟨hstack, fun q hq => (hregs q hq).trans ?_⟩
    rcases eq_or_ne q r with rfl | hqr
    · rw [if_neg hr, if_pos (List.mem_cons_self ..), Cpu.set_self, h.top]
    · have hmem : q ∈ r :: rs ↔ q ∈ rs := by simp [hqr]
      have hsame : (s.drop.set r s.top).regs q = s.regs q :=
        (Cpu.set_of_ne _ hqr _).trans (Cpu.drop_of_ne _ hq)
      rw [hsame]
      simp only [hmem]

/-- Registers stored one after the other from `disp(%base)` on. -/
def storeRegs (base : Reg) : ℕ → List Reg → List Instr
  | _, [] => []
  | disp, r :: rs => .store r (BitVec.ofNat 64 disp) base :: storeRegs base (disp + 8) rs

/-- Registers loaded from there. -/
def loadRegs (base : Reg) : ℕ → List Reg → List Instr
  | _, [] => []
  | disp, r :: rs => .load (BitVec.ofNat 64 disp) base r :: loadRegs base (disp + 8) rs

/-- A displacement that does not wrap. -/
theorem toNat_add_disp {b : BitVec 64} {disp : ℕ} (h : b.toNat + disp < 2 ^ 64) :
    (b + BitVec.ofNat 64 disp).toNat = b.toNat + disp := by
  rw [BitVec.toNat_add, BitVec.toNat_ofNat]
  omega

/-- Storing registers one after the other is one write of their values. -/
theorem execAll_storeRegs (callee : Cpu → Cpu) (s : Cpu) (base : Reg) (disp : ℕ) (rs : List Reg)
    (hfit : (s.regs base).toNat + disp + 8 * rs.length ≤ 2 ^ 64) :
    execAll callee s (storeRegs base disp rs) =
      { s with mem := writeWords s.mem ((s.regs base).toNat + disp) (rs.map s.regs) } := by
  induction rs generalizing s disp with
  | nil => rfl
  | cons r rs ih =>
    rw [List.length_cons] at hfit
    rw [storeRegs, execAll, List.foldl_cons, ← execAll, ih _ _ (by simp only [exec]; omega)]
    simp only [exec, toNat_add_disp (by omega : (s.regs base).toNat + disp < 2 ^ 64), List.map_cons,
      writeWords, Nat.add_assoc]

/-- Loading registers takes the words in order and changes nothing else. -/
theorem execAll_loadRegs (callee : Cpu → Cpu) (s : Cpu) (base : Reg) (disp : ℕ) (rs : List Reg)
    (hbase : base ∉ rs) (hnd : rs.Nodup)
    (hfit : (s.regs base).toNat + disp + 8 * rs.length ≤ 2 ^ 64) :
    (∀ j r, rs[j]? = some r → (execAll callee s (loadRegs base disp rs)).regs r =
        read64 s.mem ((s.regs base).toNat + disp + 8 * j)) ∧
      (∀ r, r ∉ rs → (execAll callee s (loadRegs base disp rs)).regs r = s.regs r) ∧
      (execAll callee s (loadRegs base disp rs)).mem = s.mem := by
  induction rs generalizing s disp with
  | nil => exact ⟨fun j r h => absurd h (by simp), fun _ _ => rfl, rfl⟩
  | cons q rs ih =>
    obtain ⟨hq, hnd'⟩ := List.nodup_cons.1 hnd
    rw [List.length_cons] at hfit
    have hne : base ≠ q := fun he => hbase (he ▸ List.mem_cons_self ..)
    have hbase' : base ∉ rs := fun hm => hbase (List.mem_cons_of_mem _ hm)
    have haddr := toNat_add_disp (by omega : (s.regs base).toNat + disp < 2 ^ 64)
    have hstep : exec callee s (.load (BitVec.ofNat 64 disp) base q) =
        s.set q (read64 s.mem ((s.regs base).toNat + disp)) := by rw [exec, haddr]
    have hkeep : (s.set q (read64 s.mem ((s.regs base).toNat + disp))).regs base = s.regs base :=
      Cpu.set_of_ne s hne _
    rw [loadRegs, execAll, List.foldl_cons, ← execAll, hstep]
    obtain ⟨hload, hother, hmem⟩ := ih (s.set q (read64 s.mem ((s.regs base).toNat + disp)))
      (disp + 8) hbase' hnd' (by rw [hkeep]; omega)
    refine ⟨fun j r hr => ?_, fun r hr => ?_, hmem⟩
    · cases j with
      | zero =>
        obtain rfl := Option.some.inj hr
        rw [hother q hq, Cpu.set_self, Nat.mul_zero, Nat.add_zero]
      | succ j =>
        rw [hload j r hr, hkeep, Cpu.set_mem]
        congr 1
        omega
    · have hrq : r ≠ q := fun he => hr (he ▸ List.mem_cons_self ..)
      rw [hother r fun hm => hr (List.mem_cons_of_mem _ hm), Cpu.set_of_ne s hrq]

/-- A load of the `j`-th quadword of the stack. -/
theorem StackHas.exec_load (h : StackHas s vs) (callee : Cpu → Cpu) (r : Reg) (j : ℕ)
    (disp : BitVec 64) (hd : disp = BitVec.ofNat 64 (8 * j)) (hv : vs[j]? = some v) :
    exec callee s (.load disp .rsp r) = s.set r v := by
  obtain ⟨hj, rfl⟩ := List.getElem?_eq_some_iff.1 hv
  subst hd
  exact congrArg (s.set r) (h.cell j hj)

/-- Dropping `n` quadwords at once. -/
theorem StackHas.add (n : ℕ) (h : StackHas s vs) (hn : n ≤ vs.length) :
    StackHas (s.set .rsp (s.regs .rsp + BitVec.ofNat 64 (8 * n))) (vs.drop n) := by
  induction n generalizing s vs with
  | zero =>
    refine h.congr ?_ rfl
    simp
  | succ n ih =>
    obtain _ | ⟨v, vs⟩ := vs
    · exact absurd hn (by simp)
    · refine (ih h.drop (by simpa using hn)).congr ?_ rfl
      simp only [Cpu.set_self, Cpu.drop_rsp]
      bv_omega

/-- Interrupt delivery leaves the interrupted `rip`, `cs`, `rflags`, `rsp` and
`ss` on the new stack, and the other registers alone. -/
theorem interrupt_spec (s : Cpu) (stack selector handler : BitVec 64) :
    StackHas (s.interrupt stack selector handler) [s.rip, s.cs, s.rflags, s.regs .rsp, s.ss] ∧
      ∀ r, r ≠ .rsp → (s.interrupt stack selector handler).regs r = s.regs r := by
  have hal : ((s.set .rsp (stack &&& ~~~15)).regs .rsp).toNat % 8 = 0 := by
    rw [Cpu.set_self]
    have h7 : (stack &&& ~~~15) &&& 7 = 0 := by
      rw [BitVec.and_assoc, show (~~~15 : BitVec 64) &&& 7 = 0#64 from by decide, BitVec.and_zero]
      rfl
    have := congrArg BitVec.toNat h7
    rw [BitVec.toNat_and] at this
    rwa [show (7 : BitVec 64).toNat = 2 ^ 3 - 1 from rfl, Nat.and_two_pow_sub_one_eq_mod] at this
  have h5 := ((((((StackHas.nil hal).push (by simp) s.ss).push (by simp) (s.regs .rsp)).push
    (by simp) s.rflags).push (by simp) s.cs).push (by simp) s.rip)
  refine ⟨h5.congr rfl rfl, fun r hr => ?_⟩
  rw [Cpu.interrupt]
  simp only [Cpu.push_of_ne _ hr, Cpu.set_of_ne _ hr]

/-- The entry of an interrupt handler that saves the registers `rs`. -/
theorem interrupt_push_spec (callee : Cpu → Cpu) (s : Cpu) (stack selector handler : BitVec 64)
    (rs : List Reg) (hrs : Reg.rsp ∉ rs) (hlen : rs.length < 2 ^ 16) :
    StackHas (execAll callee (s.interrupt stack selector handler) (rs.map .push))
        ((rs.map s.regs).reverse ++ [s.rip, s.cs, s.rflags, s.regs .rsp, s.ss]) ∧
      ∀ r, r ≠ .rsp →
        (execAll callee (s.interrupt stack selector handler) (rs.map .push)).regs r = s.regs r := by
  obtain ⟨hframe, hregs⟩ := interrupt_spec s stack selector handler
  have hlen' : rs.length + [s.rip, s.cs, s.rflags, s.regs .rsp, s.ss].length < 2 ^ 32 := by
    simp only [List.length_cons, List.length_nil]
    omega
  obtain ⟨hstack, hkeep⟩ := execAll_push callee rs hrs hframe hlen'
  have hsaved : rs.map (s.interrupt stack selector handler).regs = rs.map s.regs :=
    List.map_congr_left fun r hr => hregs r (by rintro rfl; exact hrs hr)
  rw [hsaved] at hstack
  exact ⟨hstack, fun r hr => (hkeep r hr).trans (hregs r hr)⟩

/-- `iretq` resumes what was interrupted, with every register but the stack
pointer as it is. -/
theorem iretq_spec (callee : Cpu → Cpu) {rip cs rflags rsp ss : BitVec 64}
    (h : StackHas s (rip :: cs :: rflags :: rsp :: ss :: vs)) :
    (exec callee s .iretq).rip = rip ∧ (exec callee s .iretq).regs .rsp = rsp ∧
      ∀ r, r ≠ .rsp → (exec callee s .iretq).regs r = s.regs r := by
  have h₀ := h.top
  have h₃ := h.drop.drop.drop.top
  rw [exec]
  dsimp only
  rw [h₃]
  exact ⟨h₀, s.set_self .rsp rsp, fun r hr => s.set_of_ne hr rsp⟩

end X64
