/-
# Rings, gates and stacks of a 64-bit processor

What an x86-64 processor does between an event and the first instruction of its
handler (`deliver`), and on `iretq`: it reads the gate, the descriptor of the
code segment and, where the ring changes, the stack pointer in the task state
segment; it checks all of these; and it pushes the frame.  Every one of these
accesses goes through the paging unit (`Mmu`), which is a parameter.

An access that is refused is an exception, named by its vector.  An exception on
the way into a handler is handled in its turn, or as a double fault, and an
exception on the way into the handler of double faults stops the processor
(`raise`).

Left out are compatibility mode, local descriptor tables and the error codes,
which are a parameter.
-/

import SuiraBox.Library.X64
import SuiraBox.Library.Words

namespace Protection

open X64 ByteMem

/-- What an access is for. -/
inductive Kind
  | read
  | write
  | fetch
  deriving DecidableEq

/-- An access: whether ring 3 makes it, what for, and the flag `AC`. -/
structure Access where
  user : Bool
  kind : Kind
  ac : Bool

/-- The paging unit: the physical address of a byte, or `none` for a page fault. -/
abbrev Mmu := Mem → Access → BitVec 64 → Option ℕ

/-- An exception, by its number. -/
abbrev Vector := BitVec 8

/-- An interrupt gate. -/
structure Gate where
  handler : BitVec 64
  selector : BitVec 16
  ist : ℕ
  type : ℕ
  dpl : ℕ
  present : Bool

/-- The tables that the registers of the processor point to. -/
structure System where
  mmu : Mmu
  gdtBase : BitVec 64
  gdtLimit : ℕ
  tssBase : BitVec 64
  tssLimit : ℕ
  idt : Vector → Gate
  /-- the error code that goes with an exception, if one does -/
  code : Vector → Option (BitVec 64)

/-- Addresses the processor can form: the upper 17 bits are equal. -/
def Canonical (va : BitVec 64) : Prop := va.toNat < 2 ^ 47 ∨ 2 ^ 64 - 2 ^ 47 ≤ va.toNat

instance (va : BitVec 64) : Decidable (Canonical va) := inferInstanceAs (Decidable (_ ∨ _))

/-- A check, with the exception for its failure. -/
def check (p : Prop) [Decidable p] (v : Vector) : Except Vector Unit :=
  if p then .ok () else .error v

/-- A test that is passed. -/
theorem check_of {p : Prop} [Decidable p] (h : p) (v : Vector) : check p v = .ok () := if_pos h

/-- A test that is not passed raises its vector. -/
theorem check_of_not {p : Prop} [Decidable p] (h : ¬ p) (v : Vector) : check p v = .error v :=
  if_neg h

/-- The ring that the processor runs in. -/
def ring (s : Cpu) : ℕ := s.cs.toNat % 4

/-- An access by the code that runs. -/
def accessBy (s : Cpu) (kind : Kind) : Access := ⟨ring s = 3, kind, s.rflags.getLsbD 18⟩

/-- An access to a table of the processor. -/
def tableAccess : Access := ⟨false, .read, false⟩

namespace System

/-! ### Memory -/

variable (S : System)

/-- The physical addresses of the eight bytes from `va` on. -/
def bytes (m : Mem) (acc : Access) (va : BitVec 64) : Option (ℕ → ℕ) :=
  if ∀ k < 8, (S.mmu m acc (va + BitVec.ofNat 64 k)).isSome then
    some fun k => (S.mmu m acc (va + BitVec.ofNat 64 k)).getD 0
  else none

/-- A load of eight bytes; `v` is the exception for an address that is none. -/
def load64 (m : Mem) (acc : Access) (v : Vector) (va : BitVec 64) : Except Vector (BitVec 64) :=
  if ¬ (Canonical va ∧ Canonical (va + 7)) then .error v
  else match S.bytes m acc va with
    | none => .error 14
    | some place => .ok (read64 (fun k => m (place k)) 0)

/-- A store of eight bytes. -/
def store64 (m : Mem) (acc : Access) (v : Vector) (va value : BitVec 64) : Except Vector Mem :=
  if ¬ (Canonical va ∧ Canonical (va + 7)) then .error v
  else match S.bytes m acc va with
    | none => .error 14
    | some place => .ok ((List.range 8).foldl (fun m k =>
        write8 m (place k) (BitVec.ofNat 8 (value.toNat / 256 ^ k))) m)

/-- A push; an address that is none is a stack fault. -/
def push (s : Cpu) (value : BitVec 64) : Except Vector Cpu := do
  let m ← S.store64 s.mem (accessBy s .write) 12 (s.regs .rsp - 8) value
  .ok { s.set .rsp (s.regs .rsp - 8) with mem := m }

/-- Pushes, the first value first. -/
def pushes (s : Cpu) (values : List (BitVec 64)) : Except Vector Cpu := values.foldlM S.push s

/-- The `j`-th quadword of the stack. -/
def stackWord (s : Cpu) (j : ℕ) : Except Vector (BitVec 64) :=
  S.load64 s.mem (accessBy s .read) 12 (s.regs .rsp + BitVec.ofNat 64 (8 * j))

/-! ### Descriptors -/

/-- The descriptor of a selector; there is no local table. -/
def descriptor (m : Mem) (selector : BitVec 16) : Except Vector (BitVec 64) :=
  let offset := selector.toNat / 8 * 8
  if selector.toNat / 4 % 2 = 1 ∨ S.gdtLimit < offset + 7 then .error 13
  else S.load64 m tableAccess 13 (S.gdtBase + BitVec.ofNat 64 offset)

end System

/-- A code segment for 64-bit code. -/
def isCode64 (d : BitVec 64) : Bool := d.getLsbD 44 && d.getLsbD 43 && d.getLsbD 53 && !d.getLsbD 54

/-- A data segment that may be written. -/
def isWritableData (d : BitVec 64) : Bool := d.getLsbD 44 && !d.getLsbD 43 && d.getLsbD 41

/-- Code that runs in the ring of its caller. -/
def isConforming (d : BitVec 64) : Bool := d.getLsbD 42

def isPresent (d : BitVec 64) : Bool := d.getLsbD 47

/-- The ring of a segment. -/
def descriptorRing (d : BitVec 64) : ℕ := (d >>> 45).toNat % 4

/-- The type of a system segment. -/
def systemType (d : BitVec 64) : ℕ := (d >>> 40).toNat % 32

/-- The base of a system segment, from the two halves of its descriptor. -/
def systemBase (low high : BitVec 64) : BitVec 64 :=
  high.setWidth 32 ++ (low >>> 56).setWidth 8 ++ (low >>> 16).setWidth 24

/-- Its limit. -/
def systemLimit (low : BitVec 64) : ℕ := ((low >>> 48).setWidth 4 ++ low.setWidth 16).toNat

namespace System

variable (S : System)

/-- `ltr`: the task state segment of a selector, which is busy from then on. -/
def ltr (m : Mem) (selector : BitVec 16) : Except Vector (System × Mem) := do
  check (selector.toNat / 4 ≠ 0) 13
  let low ← S.descriptor m selector
  check (selector.toNat / 8 * 8 + 15 ≤ S.gdtLimit) 13
  let high ← S.load64 m tableAccess 13 (S.gdtBase + BitVec.ofNat 64 (selector.toNat / 8 * 8 + 8))
  check (systemType low = 9) 13
  check (isPresent low) 11
  let m ← S.store64 m ⟨false, .write,
      false⟩ 13 (S.gdtBase + BitVec.ofNat 64 (selector.toNat / 8 * 8))
    (low ||| (1 : BitVec 64) <<< 41)
  .ok ({ S with tssBase := systemBase low high, tssLimit := systemLimit low }, m)

/-! ### Events -/

/-- A stack pointer in the task state segment. -/
def tssStack (m : Mem) (offset : ℕ) : Except Vector (BitVec 64) :=
  if S.tssLimit < offset + 7 then .error 10
  else S.load64 m tableAccess 13 (S.tssBase + BitVec.ofNat 64 offset)

/-- The stack of a handler that runs in ring `r`. -/
def handlerStack (s : Cpu) (gate : Gate) (r : ℕ) : Except Vector (BitVec 64) :=
  if gate.ist ≠ 0 then S.tssStack s.mem (28 + 8 * gate.ist)
  else if r < ring s then S.tssStack s.mem (4 + 8 * r)
  else .ok (s.regs .rsp)

/-- The ring that the gate leads to, after all checks. -/
def gateRing (s : Cpu) (software : Bool) (v : Vector) : Except Vector ℕ := do
  let gate := S.idt v
  check (software → ring s ≤ gate.dpl) 13
  check (gate.type = 14 ∨ gate.type = 15) 13
  check gate.present 11
  check (gate.selector.toNat / 4 ≠ 0) 13
  let d ← S.descriptor s.mem gate.selector
  check (isCode64 d ∧ descriptorRing d ≤ ring s) 13
  check (isPresent d) 11
  .ok (if isConforming d then ring s else descriptorRing d)

/-- The flags in a handler: without `TF`, `NT`, `RF` and `VM`, and, behind an
interrupt gate, without `IF`. -/
def handlerFlags (gate : Gate) (rflags : BitVec 64) : BitVec 64 :=
  rflags &&& ~~~(if gate.type = 14 then 0x34300 else 0x34100)

/-- The processor on the stack of the handler, before the frame is pushed. -/
def onStack (s : Cpu) (gate : Gate) (r : ℕ) (rsp : BitVec 64) : Cpu :=
  { s.set .rsp (rsp &&& ~~~15) with
    cs := BitVec.ofNat 64 (gate.selector.toNat / 4 * 4 + r)
    ss := if r < ring s then BitVec.ofNat 64 r else s.ss }

/-- An event enters its handler; `software` is `int n`. -/
def deliver (s : Cpu) (software : Bool) (v : Vector) : Except Vector Cpu := do
  let gate := S.idt v
  let r ← S.gateRing s software v
  let rsp ← S.handlerStack s gate r
  let t ← S.pushes (onStack s gate r rsp) ([s.ss, s.regs .rsp, s.rflags, s.cs, s.rip] ++
    if software then [] else (S.code v).toList)
  .ok { t with rip := gate.handler, rflags := handlerFlags gate s.rflags }

/-- What becomes of the processor. -/
inductive Outcome
  | running (s : Cpu)
  | shutdown

/-- The exceptions of which two in a row make a double fault. -/
def contributory (v : Vector) : Bool := v = 0 ∨ 10 ≤ v ∧ v ≤ 13

/-- An exception, with what comes of exceptions on the way.  After a benign one,
a contributory one, a page fault and a double fault there is none left: four
rounds are enough. -/
def raiseIn (s : Cpu) : ℕ → Vector → Outcome
  | 0, _ => .shutdown
  | n + 1, v =>
    match S.deliver s false v with
    | .ok t => .running t
    | .error w =>
      if v = 8 then .shutdown
      else if contributory v && contributory w || v = 14 && (contributory w || w = 14) then
        raiseIn s n 8
      else raiseIn s n w

/-- An exception in state `s`. -/
def raise (s : Cpu) (v : Vector) : Outcome := S.raiseIn s 4 v

/-- The code segment that `iretq` returns to, in ring `r`. -/
def returnCode (s : Cpu) (cs : BitVec 64) (r : ℕ) : Except Vector Unit := do
  check ((cs.setWidth 16).toNat / 4 ≠ 0) 13
  let d ← S.descriptor s.mem (cs.setWidth 16)
  check (isCode64 d ∧ ring s ≤ r ∧ descriptorRing d ≤ r ∧
    (isConforming d ∨ descriptorRing d = r)) 13
  check (isPresent d) 11

/-- The stack segment that it returns to; without one it can return to the inner
rings only. -/
def returnStack (s : Cpu) (ss : BitVec 64) (r : ℕ) : Except Vector Unit :=
  if (ss.setWidth 16).toNat / 4 = 0 then check (r ≠ 3) 13
  else do
    let d ← S.descriptor s.mem (ss.setWidth 16)
    check (ss.toNat % 4 = r ∧ isWritableData d ∧ descriptorRing d = r) 13
    check (isPresent d) 12

/-- `iretq`. -/
def iretq (s : Cpu) : Except Vector Cpu := do
  let rip ← S.stackWord s 0
  let cs ← S.stackWord s 1
  let rflags ← S.stackWord s 2
  let rsp ← S.stackWord s 3
  let ss ← S.stackWord s 4
  S.returnCode s cs (cs.toNat % 4)
  S.returnStack s ss (cs.toNat % 4)
  check (Canonical rip) 13
  .ok { s.set .rsp rsp with rip := rip, cs := cs, rflags := rflags, ss := ss }

/-! ### Code -/

/-- The flags after a logical operation.  `AF`, which the manual leaves open, is cleared. -/
def logicFlags (result rflags : BitVec 64) : BitVec 64 :=
  (rflags &&& ~~~0x8D5) ||| (if result = 0 then 0x40 else 0) ||| (if result.getLsbD 63 then 0x80
    else 0) ||| if (List.range 8).countP (result.getLsbD ·) % 2 = 0 then 4 else 0

end System

/-- The instructions that a way out of ring 0 is written in; operands are in AT&T order. -/
inductive Op
  | cli
  | mov (src dst : Reg)
  | and (imm : BitVec 64) (dst : Reg)
  | pushImm (imm : BitVec 64)
  | pushReg (r : Reg)
  | pushfq
  /-- `orq $imm, (%rsp)` -/
  | orTop (imm : BitVec 64)
  | iretq
  deriving DecidableEq

namespace System

variable (S : System)

/-- One instruction. -/
def exec (s : Cpu) : Op → Except Vector Cpu
  | .cli => do
    check (ring s ≤ s.rflags.toNat / 2 ^ 12 % 4) 13
    .ok { s with rflags := s.rflags &&& ~~~0x200 }
  | .mov src dst => .ok (s.set dst (s.regs src))
  | .and imm dst =>
    .ok { s.set dst (s.regs dst &&& imm) with rflags := logicFlags (s.regs dst &&& imm) s.rflags }
  | .pushImm imm => S.push s imm
  | .pushReg r => S.push s (s.regs r)
  | .pushfq => S.push s (s.rflags &&& ~~~0x30000)
  | .orTop imm => do
    let v ← S.load64 s.mem (accessBy s .write) 12 (s.regs .rsp)
    let m ← S.store64 s.mem (accessBy s .write) 12 (s.regs .rsp) (v ||| imm)
    .ok { s with mem := m, rflags := logicFlags (v ||| imm) s.rflags }
  | .iretq => S.iretq s

/-- Straight-line code, with the lengths of the instructions.  An exception is raised in the state
before the instruction that makes it. -/
def runCode : List (ℕ × Op) → Cpu → Outcome
  | [], s => .running s
  | (n, op) :: code, s =>
    match S.exec s op with
    | .ok t => runCode code (if op = .iretq then t else { t with rip := s.rip + BitVec.ofNat 64 n })
    | .error v => S.raise s v

end System

/-! ### Memory that is mapped in one piece -/

namespace System

variable {S : System} {m : Mem} {acc : Access} {va value : BitVec 64} {pa n : ℕ}
    {v : Vector} {s : Cpu}

/-- The eight bytes from `va` on are those from `pa` on. -/
def MapsTo (S : System) (m : Mem) (acc : Access) (va : BitVec 64) (pa : ℕ) : Prop :=
  Canonical va ∧ Canonical (va + 7) ∧ ∀ k < 8, S.mmu m acc (va + BitVec.ofNat 64 k) = some (pa + k)

/-- Eight bytes that are mapped to one place are found there. -/
theorem MapsTo.bytes (h : S.MapsTo m acc va pa) :
    ∃ place, S.bytes m acc va = some place ∧ ∀ k < 8, place k = pa + k := by
  have hsome : ∀ k < 8, (S.mmu m acc (va + BitVec.ofNat 64 k)).isSome := fun k hk => by
    rw [h.2.2 k hk]
    rfl
  refine ⟨_, if_pos hsome, fun k hk => ?_⟩
  rw [h.2.2 k hk]
  rfl

/-- A load of mapped bytes reads them. -/
theorem MapsTo.load (h : S.MapsTo m acc va pa) (v : Vector) :
    S.load64 m acc v va = .ok (read64 m pa) := by
  obtain ⟨place, hbytes, hplace⟩ := h.bytes
  have hread : ∀ n j, j + n ≤ 8 → readLE (fun k => m (place k)) j n = readLE m (pa + j) n := by
    intro n
    induction n with
    | zero => exact fun _ _ => rfl
    | succ n ih =>
      intro j hj
      rw [readLE, readLE, ih (j + 1) (by omega), hplace j (by omega), Nat.add_assoc]
  rw [load64, if_neg (not_not.2 ⟨h.1, h.2.1⟩), hbytes]
  exact congrArg (fun n => Except.ok (BitVec.ofNat 64 n)) (hread 8 0 le_rfl)

/-- A store to mapped bytes writes them. -/
theorem MapsTo.store (h : S.MapsTo m acc va pa) (v : Vector) (value : BitVec 64) :
    S.store64 m acc v va value = .ok (write64 m pa value) := by
  obtain ⟨place, hbytes, hplace⟩ := h.bytes
  -- the bytes stored so far
  have hwrite : ∀ n ≤ 8, (List.range n).foldl (fun m k =>
      write8 m (place k) (BitVec.ofNat 8 (value.toNat / 256 ^ k))) m =
        writeLE m pa n value.toNat := by
    intro n
    induction n with
    | zero =>
      intro _
      funext x
      exact (writeLE_of_outside m (by omega)).symm
    | succ n ih =>
      intro hn
      rw [List.range_succ, List.foldl_concat, ih (by omega), hplace n (by omega)]
      funext x
      rw [write8, writeLE, writeLE]
      split_ifs with hx h₁ h₂ h₃ <;> first | omega | rfl | (subst hx; rw [Nat.add_sub_cancel_left])
  rw [store64, if_neg (not_not.2 ⟨h.1, h.2.1⟩), hbytes]
  exact congrArg Except.ok (hwrite 8 le_rfl)

/-- A store that the paging unit refuses. -/
theorem store64_fault (h : Canonical va ∧ Canonical (va + 7)) (hnone : S.mmu m acc va = none) :
    S.store64 m acc v va value = .error 14 := by
  have hbytes : S.bytes m acc va = none := if_neg fun hall => by
    have := hall 0 (by decide)
    rw [BitVec.add_zero, hnone] at this
    exact absurd this (by simp)
  rw [store64, if_neg (not_not.2 h), hbytes]

end System

/-- A piece of linear memory and the physical memory it is mapped to. -/
structure Window where
  start : ℕ
  base : ℕ
  size : ℕ

namespace Window

/-- Memory has changed within the window only. -/
def Within (W : Window) (m m' : Mem) : Prop := ∀ x, x < W.base ∨ W.base + W.size ≤ x → m' x = m x

/-- The window is open to the accesses of `P`, and stays so when its own bytes
change. -/
def Opens (W : Window) (S : System) (m : Mem) (P : Access → Prop) : Prop :=
  W.start + W.size ≤ 2 ^ 47 ∧ ∀ m', W.Within m m' → ∀ acc, P acc → ∀ k < W.size,
    S.mmu m' acc (BitVec.ofNat 64 (W.start + k)) = some (W.base + k)

/-- A push, as physical memory sees it. -/
def push (W : Window) (s : Cpu) (value : BitVec 64) : Cpu :=
  { s.set .rsp (s.regs .rsp - 8) with
    mem := write64 s.mem (W.base + ((s.regs .rsp - 8).toNat - W.start)) value }

/-- The quadwords of the stack, which lies in the window. -/
structure Holds (W : Window) (s : Cpu) (vs : List (BitVec 64)) : Prop where
  low : W.start ≤ (s.regs .rsp).toNat
  high : (s.regs .rsp).toNat + 8 * vs.length ≤ W.start + W.size
  cell : ∀ j (h : j < vs.length),
    read64 s.mem (W.base + ((s.regs .rsp).toNat - W.start) + 8 * j) = vs.get ⟨j, h⟩

variable {W : Window} {S : System} {m m' : Mem} {P : Access → Prop} {s : Cpu} {value : BitVec 64}
  {vs : List (BitVec 64)} {n : ℕ}

theorem Within.refl (W : Window) (m : Mem) : W.Within m m := fun _ _ => rfl

theorem Within.trans {m₁ m₂ m₃ : Mem} (h₁ : W.Within m₁ m₂) (h₂ : W.Within m₂ m₃) :
    W.Within m₁ m₃ :=
  fun x hx => (h₂ x hx).trans (h₁ x hx)

/-- A write inside the window changes nothing outside. -/
theorem within_write64 (m : Mem) (value : BitVec 64) (h : n + 8 ≤ W.size) :
    W.Within m (write64 m (W.base + n) value) := fun _ hx => write64_of_outside m value (by omega)

/-- A window stays open under changes inside it. -/
theorem Opens.within (h : W.Opens S m P) (hm : W.Within m m') : W.Opens S m' P :=
  ⟨h.1, fun _ hm' => h.2 _ (hm.trans hm')⟩

/-- Eight bytes of the window. -/
theorem Opens.mapsTo (h : W.Opens S m P) {acc : Access} (hacc : P acc) (hn : n + 8 ≤ W.size)
    {va : BitVec 64} (hva : va.toNat = W.start + n) : S.MapsTo m acc va (W.base + n) := by
  have hfit := h.1
  have heq : ∀ k < 8, va + BitVec.ofNat 64 k = BitVec.ofNat 64 (W.start + (n + k)) := fun k hk => by
    refine BitVec.eq_of_toNat_eq ?_
    rw [BitVec.toNat_add, BitVec.toNat_ofNat, BitVec.toNat_ofNat, hva]
    omega
  refine ⟨Or.inl (by omega), Or.inl ?_, fun k hk => ?_⟩
  · have hseven : va + 7 = BitVec.ofNat 64 (W.start + (n + 7)) := heq 7 (by decide)
    rw [hseven, BitVec.toNat_ofNat]
    omega
  · rw [heq k hk, h.2 m (Within.refl W m) acc hacc (n + k) (by omega), Nat.add_assoc]

/-- A push in the window. -/
theorem Opens.push_eq (h : W.Opens S s.mem P) (hacc : P (accessBy s .write))
    (hrsp : (s.regs .rsp).toNat = W.start + n + 8) (hn : n + 8 ≤ W.size) (value : BitVec 64) :
    S.push s value = .ok (W.push s value) ∧ W.Opens S (W.push s value).mem P ∧
      (W.push s value).mem = write64 s.mem (W.base + n) value := by
  have hfit := h.1
  have hva : (s.regs .rsp - 8).toNat = W.start + n := by bv_omega
  have hmem : (W.push s value).mem = write64 s.mem (W.base + n) value := by
    change write64 s.mem (W.base + ((s.regs .rsp - 8).toNat - W.start)) value = _
    rw [hva, Nat.add_sub_cancel_left]
  refine ⟨?_, ?_, hmem⟩
  · rw [System.push, (h.mapsTo hacc hn hva).store 12 value, ← hmem]
    rfl
  · rw [hmem]
    exact h.within (within_write64 s.mem value hn)

/-- Where linear and physical addresses are the same, a push is a push. -/
theorem push_flat (hflat : W.base = W.start) (hlow : W.start ≤ (s.regs .rsp - 8).toNat)
    (value : BitVec 64) : W.push s value = s.push value := by
  rw [push, hflat, Nat.add_sub_cancel' hlow]
  rfl

/-- Pushes in a window where linear and physical addresses are the same. -/
theorem Opens.pushes_eq (hflat : W.base = W.start) (hn : n ≤ W.size) (h : W.Opens S s.mem P)
    (hacc : P (accessBy s .write)) (hrsp : (s.regs .rsp).toNat = W.start + n)
    (hroom : 8 * vs.length ≤ n) : S.pushes s vs = .ok (vs.foldl Cpu.push s) := by
  induction vs generalizing s n with
  | nil => rfl
  | cons v vs ih =>
    rw [List.length_cons] at hroom
    have hfit := h.1
    obtain ⟨n, rfl⟩ := Nat.exists_eq_add_of_le' (show 8 ≤ n by omega)
    obtain ⟨heq, hopens, -⟩ := h.push_eq hacc (by omega) (by omega) v
    have hva : (s.regs .rsp - 8).toNat = W.start + n := by bv_omega
    rw [push_flat hflat (by omega)] at heq hopens
    have htail := ih (s := s.push v) (n := n) (by omega) hopens hacc
      (by rw [Cpu.push_rsp, hva]) (by omega)
    rw [System.pushes, List.foldlM_cons, heq]
    exact htail

/-- A push into the window puts one more value on its stack. -/
theorem Holds.push (h : W.Holds s vs) (hroom : W.start + 8 ≤ (s.regs .rsp).toNat) (v : BitVec 64) :
    W.Holds (W.push s v) (v :: vs) := by
  have hlow := h.low
  have hhigh := h.high
  have hrsp : ((W.push s v).regs .rsp).toNat = (s.regs .rsp).toNat - 8 := by
    change ((s.set .rsp (s.regs .rsp - 8)).regs .rsp).toNat = _
    rw [Cpu.set_self]
    bv_omega
  have hmem : (W.push s v).mem =
      write64 s.mem (W.base + ((s.regs .rsp).toNat - 8 - W.start)) v := by
    change write64 s.mem (W.base + ((s.regs .rsp - 8).toNat - W.start)) v = _
    rw [show (s.regs .rsp - 8).toNat = (s.regs .rsp).toNat - 8 by bv_omega]
  refine ⟨by rw [hrsp]; omega, by rw [hrsp, List.length_cons]; omega, fun j hj => ?_⟩
  rw [hrsp, hmem]
  cases j with
  | zero => exact read64_write64 ..
  | succ j =>
    have hj' : j < vs.length := by simpa using hj
    rw [read64_write64_of_apart _ _ (by omega)]
    refine (congrArg (read64 s.mem) ?_).trans (h.cell j hj')
    omega

/-- The quadwords of the stack can be loaded. -/
theorem Holds.stackWord (h : W.Holds s vs) (hopens : W.Opens S s.mem P)
    (hacc : P (accessBy s .read)) {j : ℕ} {v : BitVec 64} (hv : vs[j]? = some v) :
    S.stackWord s j = .ok v := by
  obtain ⟨hj, rfl⟩ := List.getElem?_eq_some_iff.1 hv
  have hfit := hopens.1
  have hlow := h.low
  have hhigh := h.high
  have hva : (s.regs .rsp + BitVec.ofNat 64 (8 * j)).toNat =
      W.start + ((s.regs .rsp).toNat - W.start + 8 * j) := by
    rw [BitVec.toNat_add, BitVec.toNat_ofNat]
    omega
  rw [System.stackWord, (hopens.mapsTo hacc (by omega) hva).load, ← Nat.add_assoc]
  exact congrArg Except.ok (h.cell j hj)

/-- The stack of the code that runs lies in the window, holds `vs` and can be used. -/
structure Stack (W : Window) (S : System) (P : Access → Prop) (s : Cpu)
    (vs : List (BitVec 64)) : Prop where
  holds : W.Holds s vs
  opens : W.Opens S s.mem P
  may : ∀ kind, kind ≠ .fetch → P (accessBy s kind)

/-- Only the stack pointer, the memory, the ring and `AC` matter. -/
theorem Stack.congr (h : W.Stack S P s vs) {t : Cpu} (hrsp : t.regs .rsp = s.regs .rsp)
    (hmem : t.mem = s.mem) (hcs : t.cs = s.cs) (hac : t.rflags.getLsbD 18 = s.rflags.getLsbD 18) :
    W.Stack S P t vs := by
  have hacc : ∀ kind, accessBy t kind = accessBy s kind :=
    fun kind => by rw [accessBy, accessBy, ring, ring, hcs, hac]
  refine ⟨⟨by rw [hrsp]; exact h.holds.low, by rw [hrsp]; exact h.holds.high, fun j hj => ?_⟩,
    hmem ▸ h.opens, fun kind hkind => hacc kind ▸ h.may kind hkind⟩
  rw [hrsp, hmem]
  exact h.holds.cell j hj

/-- A push through the paging unit is a push into the window. -/
theorem Stack.push (h : W.Stack S P s vs) (hroom : W.start + 8 ≤ (s.regs .rsp).toNat)
    (v : BitVec 64) :
    S.push s v = .ok (W.push s v) ∧ W.Stack S P (W.push s v) (v :: vs) ∧
    W.Within s.mem (W.push s v).mem := by
  have hhigh := h.holds.high
  obtain ⟨n, hn⟩ := Nat.exists_eq_add_of_le hroom
  obtain ⟨heq, hopens, hmem⟩ :=
    h.opens.push_eq (h.may .write (by simp)) (show _ = W.start + n + 8 by omega)
    (by omega) v
  refine ⟨heq, ⟨h.holds.push hroom v, hopens, fun kind hkind => h.may kind hkind⟩, ?_⟩
  rw [hmem]
  exact within_write64 s.mem v (by omega)

/-- The top of the stack is changed. -/
theorem Stack.setTop {v : BitVec 64} (h : W.Stack S P s (v :: vs)) (v' : BitVec 64) :
    S.load64 s.mem (accessBy s .write) 12 (s.regs .rsp) = .ok v ∧
    ∃ m, S.store64 s.mem (accessBy s .write) 12 (s.regs .rsp) v' = .ok m ∧
      W.Stack S P { s with mem := m } (v' :: vs) ∧ W.Within s.mem m := by
  have hlow := h.holds.low
  have hhigh := h.holds.high
  have hcell := fun j hj => h.holds.cell j hj
  rw [List.length_cons] at hhigh
  obtain ⟨n, hn⟩ := Nat.exists_eq_add_of_le hlow
  have hmaps := h.opens.mapsTo (h.may .write (by simp)) (show n + 8 ≤ W.size by omega) hn
  have hplace : ∀ j, W.base + ((s.regs .rsp).toNat - W.start) + 8 * j = W.base + n + 8 * j :=
    fun j => by omega
  have hwithin : W.Within s.mem (write64 s.mem (W.base + n) v') :=
    within_write64 s.mem v' (by omega)
  refine ⟨?_, _, hmaps.store 12 v', ⟨⟨hlow, h.holds.high, fun j hj => ?_⟩, h.opens.within hwithin,
    h.may⟩, hwithin⟩
  · rw [hmaps.load 12]
    exact congrArg Except.ok ((congrArg (read64 s.mem) (hplace 0).symm).trans
      (hcell 0 (Nat.succ_pos _)))
  · change read64 (write64 s.mem (W.base + n) v')
      (W.base + ((s.regs .rsp).toNat - W.start) + 8 * j) = _
    rw [hplace]
    cases j with
    | zero => exact read64_write64 ..
    | succ j =>
      rw [read64_write64_of_apart _ _ (by omega), ← hplace]
      exact hcell (j + 1) hj

end Window

/-! ### Entering ring 0 -/

namespace System

variable {S : System} {s : Cpu} {gate : Gate} {v w : Vector} {software : Bool} {rsp : BitVec 64}

/-- The gate is an interrupt gate to code of ring 0. -/
structure LeadsInside (S : System) (m : Mem) (gate : Gate) : Prop where
  type : gate.type = 14
  present : gate.present = true
  selector : gate.selector.toNat / 4 ≠ 0
  code : ∃ d, S.descriptor m gate.selector = .ok d ∧ isCode64 d = true ∧ descriptorRing d = 0 ∧
    isConforming d = false ∧ isPresent d = true

/-- Only `int n` asks for the ring of the gate. -/
theorem LeadsInside.gateRing_eq (h : S.LeadsInside s.mem (S.idt v)) (software : Bool) :
    S.gateRing s software v =
      if software = true → ring s ≤ (S.idt v).dpl then .ok 0 else .error 13 := by
  obtain ⟨d, hd, hcode, hring, hplain, hpresent⟩ := h.code
  rw [gateRing]
  split_ifs with hsoft
  · rw [check_of hsoft, check_of (Or.inl h.type), check_of h.present, check_of h.selector, hd]
    simp only [bind, Except.bind]
    rw [check_of ⟨hcode, by rw [hring]; exact Nat.zero_le _⟩, check_of hpresent, hplain, hring]
    rfl
  · rw [check_of_not hsoft]
    rfl

/-- An event that is let through enters its handler when the frame can be
pushed, and fails as the pushes do. -/
theorem LeadsInside.deliver_eq (h : S.LeadsInside s.mem (S.idt v))
    (hsoft : software = true → ring s ≤ (S.idt v).dpl)
    (hstack : S.handlerStack s (S.idt v) 0 = .ok rsp) :
    S.deliver s software v =
      (S.pushes (onStack s (S.idt v) 0 rsp)
        ([s.ss, s.regs .rsp, s.rflags, s.cs, s.rip] ++
          if software then [] else (S.code v).toList)).map fun t =>
        { t with
          rip := (S.idt v).handler
          rflags := handlerFlags (S.idt v) s.rflags } := by
  rw [deliver, h.gateRing_eq, if_pos hsoft]
  simp only [bind, Except.bind]
  rw [hstack]
  simp only
  cases S.pushes (onStack s (S.idt v) 0 rsp) _ with
  | ok t => rfl
  | error w => rfl

/-- `int n` through a gate for the inner rings. -/
theorem LeadsInside.deliver_denied (h : S.LeadsInside s.mem (S.idt v))
    (hring : (S.idt v).dpl < ring s) : S.deliver s true v = .error 13 := by
  rw [deliver, h.gateRing_eq, if_neg fun hle => absurd (hle rfl) (by omega)]
  rfl

/-- The frame cannot be pushed: the first push fails. -/
theorem pushes_fault {vs : List (BitVec 64)} {value : BitVec 64} {t : Cpu}
    (h : S.push t value = .error w) : S.pushes t (value :: vs) = .error w := by
  rw [pushes, List.foldlM_cons, h]
  rfl

/-- A selector within the table. -/
theorem descriptor_eq {m : Mem} {selector : BitVec 16} (hlocal : selector.toNat / 4 % 2 = 0)
    (hlimit : selector.toNat / 8 * 8 + 7 ≤ S.gdtLimit) : S.descriptor m selector =
      S.load64 m tableAccess 13 (S.gdtBase + BitVec.ofNat 64 (selector.toNat / 8 * 8)) :=
  if_neg (by omega)

/-- `ltr` of an available task state segment. -/
theorem ltr_eq {m m' : Mem} {selector : BitVec 16} {low high : BitVec 64}
    (hselector : selector.toNat / 4 ≠ 0) (hlow : S.descriptor m selector = .ok low)
    (hlimit : selector.toNat / 8 * 8 + 15 ≤ S.gdtLimit)
    (hhigh : S.load64 m tableAccess 13 (S.gdtBase + BitVec.ofNat 64 (selector.toNat / 8 * 8 + 8)) =
      .ok high)
    (htype : systemType low = 9) (hpresent : isPresent low = true)
    (hstore : S.store64 m ⟨false, .write,
      false⟩ 13 (S.gdtBase + BitVec.ofNat 64 (selector.toNat / 8 * 8))
      (low ||| (1 : BitVec 64) <<< 41) = .ok m') :
    S.ltr m selector = .ok ({ S with tssBase := systemBase low high, tssLimit := systemLimit low },
      m') := by
  rw [ltr, check_of hselector, hlow]
  simp only [bind, Except.bind]
  rw [check_of hlimit, hhigh]
  simp only
  rw [check_of htype, check_of hpresent, hstore]

/-- A page fault on the way into the handler of page faults, and another on the
way into that of double faults. -/
theorem raise_shutdown (h₁ : S.deliver s false 14 = .error 14)
    (h₂ : S.deliver s false 8 = .error w) : S.raise s 14 = .shutdown := by
  rw [raise, raiseIn, h₁]
  simp only
  rw [if_neg (by decide), if_pos (by decide), raiseIn, h₂]
  rfl

/-- An exception that enters its handler. -/
theorem raise_eq {t : Cpu} (h : S.deliver s false v = .ok t) : S.raise s v = .running t := by
  rw [raise, raiseIn, h]

/-! ### Leaving ring 0 -/

/-- An instruction that goes well is followed by the next one. -/
theorem runCode_ok {t : Cpu} {n : ℕ} {op : Op} {code : List (ℕ × Op)} (h : S.exec s op = .ok t) :
    S.runCode ((n, op) :: code) s =
      S.runCode code (if op = .iretq then t else { t with rip := s.rip + BitVec.ofNat 64 n }) := by
  rw [runCode, h]

/-- An instruction that faults raises its vector in the state before it. -/
theorem runCode_error {n : ℕ} {op : Op} {code : List (ℕ × Op)} (h : S.exec s op = .error v) :
    S.runCode ((n, op) :: code) s = S.raise s v := by
  rw [runCode, h]

/-- Flags that no logical operation touches. -/
theorem logicFlags_getLsbD (result rflags : BitVec 64) {i : ℕ} (hi : i < 64)
    (hlogic : (0x8D5 : BitVec 64).getLsbD i = false) :
    (logicFlags result rflags).getLsbD i = rflags.getLsbD i := by
  have hmask : (~~~(0x8D5 : BitVec 64)).getLsbD i = true := by
    rw [BitVec.getLsbD_not, hlogic, decide_eq_true hi]
    rfl
  -- the bits that may be set are bits of the mask
  have hbit : ∀ {p : Prop} [Decidable p] {b : BitVec 64}, b &&& 0x8D5 = b →
      (if p then b else 0).getLsbD i = false := by
    intro p _ b hb
    split_ifs
    · rw [← hb, BitVec.getLsbD_and, hlogic, Bool.and_false]
    · exact BitVec.getLsbD_zero
  rw [logicFlags, BitVec.getLsbD_or, BitVec.getLsbD_or, BitVec.getLsbD_or,
    BitVec.getLsbD_and, hmask, hbit (by decide), hbit (by decide), hbit (by decide), Bool.and_true,
    Bool.or_false, Bool.or_false, Bool.or_false]

/-- `iretq` with a frame on a stack that can be used. -/
theorem iretq_eq {W : Window} {P : Access → Prop} {rip cs rflags rsp ss : BitVec 64}
    {vs : List (BitVec 64)} (h : W.Stack S P s (rip :: cs :: rflags :: rsp :: ss :: vs))
    (hcode : S.returnCode s cs (cs.toNat % 4) = .ok ())
    (hstack : S.returnStack s ss (cs.toNat % 4) = .ok ()) (hrip : Canonical rip) :
    S.iretq s = .ok { s.set .rsp rsp with rip := rip, cs := cs, rflags := rflags, ss := ss } := by
  have hword := fun j v => h.holds.stackWord (j := j) (v := v) h.opens (h.may .read (by simp))
  rw [iretq, hword 0 rip rfl, hword 1 cs rfl, hword 2 rflags rfl, hword 3 rsp rfl, hword 4 ss rfl]
  simp only [bind, Except.bind]
  rw [hcode, hstack]
  simp only
  rw [check_of hrip]

end System

end Protection
