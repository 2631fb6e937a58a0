/-
# Interrupt controllers and timer of the PC

Two 8259A interrupt controllers, the second on line 2 of the first, and channel 0 of the 8254 timer,
as far as a kernel uses them: initialisation words ICW1 to ICW4, the mask (OCW1) and the two ends of
interrupt (OCW2) with fixed priorities.  The rotating forms of OCW2 and OCW3 do nothing here.

A request is latched until the processor acknowledges it.  Which requests are let through depends on
what has been written to the ports alone (`Config`), so writes and requests may come in any order.
-/

import Mathlib.Algebra.Group.Nat.Defs
import Mathlib.Data.List.FinRange
import Mathlib.Data.Nat.Notation

namespace PcTimer

/-! ### The controllers -/

/-- What a controller expects at its second port: the mask, or an initialisation word. -/
inductive Stage
  | ready | icw2 | icw3 | icw4
  deriving DecidableEq

/-- What has been written to a controller. -/
structure Config where
  stage : Stage
  single : Bool
  needs4 : Bool
  autoEoi : Bool
  base : BitVec 8
  mask : BitVec 8

/-- The first port.  ICW1 starts the initialisation and clears the mask. -/
def Config.command (c : Config) (v : BitVec 8) : Config :=
  if v.getLsbD 4 then ⟨.icw2, v.getLsbD 1, v.getLsbD 0, false, c.base, 0⟩ else c

/-- The second port. -/
def Config.data (c : Config) (v : BitVec 8) : Config :=
  match c.stage with
  | .ready => { c with mask := v }
  | .icw2 =>
    { c with
      base := v &&& 0xF8
      stage := if c.single then (if c.needs4 then .icw4 else .ready) else .icw3 }
  | .icw3 => { c with stage := if c.needs4 then .icw4 else .ready }
  | .icw4 => { c with autoEoi := v.getLsbD 1, stage := .ready }

/-- A controller: its requests and the interrupts in service. -/
structure Chip where
  config : Config
  irr : BitVec 8
  isr : BitVec 8

namespace Chip

/-- ICW1 forgets what has been requested; an end of interrupt is for the first line in service, or
for the line it names. -/
def command (c : Chip) (v : BitVec 8) : Chip :=
  if v.getLsbD 4 then ⟨c.config.command v, 0, 0⟩
  else if v &&& 0xF8 = 0x20 then { c with isr := c.isr &&& (c.isr - 1) }
  else if v &&& 0xF8 = 0x60 then { c with isr := c.isr &&& ~~~(BitVec.twoPow 8 (v &&& 7).toNat) }
  else c

def data (c : Chip) (v : BitVec 8) : Chip := { c with config := c.config.data v }

def raise (c : Chip) (n : ℕ) : Chip := { c with irr := c.irr ||| BitVec.twoPow 8 n }

/-- A line that is requested and not masked. -/
def wants (c : Chip) (lines : BitVec 8) (n : Fin 8) : Bool :=
  (c.irr ||| lines).getLsbD n && !c.config.mask.getLsbD n

/-- No line up to `n` is in service. -/
def free (c : Chip) (n : Fin 8) : Bool :=
  (List.finRange 8).all fun m => !(decide (m ≤ n) && c.isr.getLsbD m)

/-- The line that the controller asks for: the first open one, if it is before all in service. -/
def request (c : Chip) (lines : BitVec 8) : Option (Fin 8) :=
  if c.config.stage = .ready then ((List.finRange 8).find? (c.wants lines)).filter c.free else none

/-- The acknowledgement of line `n`. -/
def accept (c : Chip) (n : Fin 8) : Chip :=
  { c with
    irr := c.irr &&& ~~~(BitVec.twoPow 8 n)
    isr := if c.config.autoEoi then c.isr else c.isr ||| BitVec.twoPow 8 n }

/-- A command changes the configuration in a way that does not depend on the requests. -/
@[simp] theorem command_config (c : Chip) (v : BitVec 8) :
    (c.command v).config = c.config.command v := by
  unfold command Config.command
  split_ifs <;> rfl

/-- So does a data byte. -/
@[simp] theorem data_config (c : Chip) (v : BitVec 8) : (c.data v).config = c.config.data v := rfl

/-- Requests of devices do not change the configuration. -/
@[simp] theorem raise_config (c : Chip) (n : ℕ) : (c.raise n).config = c.config := rfl

/-- Nor does taking an interrupt. -/
@[simp] theorem accept_config (c : Chip) (n : Fin 8) : (c.accept n).config = c.config := rfl

/-- Where all lines but one are masked, that one is the only one to be asked for. -/
theorem request_of_single {c : Chip} {k : Fin 8} (hready : c.config.stage = .ready)
    (hmask : ∀ n : Fin 8, c.config.mask.getLsbD n = false ↔ n = k) (lines : BitVec 8) :
    c.request lines = if (c.irr ||| lines).getLsbD k && c.free k then some k else none := by
  have hopen : ∀ n, c.wants lines n = true ↔ n = k ∧ (c.irr ||| lines).getLsbD k = true := by
    intro n
    rw [wants, Bool.and_eq_true, Bool.not_eq_true', hmask]
    constructor
    · rintro ⟨hline, rfl⟩
      exact ⟨rfl, hline⟩
    · rintro ⟨rfl, hline⟩
      exact ⟨hline, rfl⟩
  rw [request, if_pos hready]
  cases hline : (c.irr ||| lines).getLsbD k with
  | false =>
    have hnone : (List.finRange 8).find? (c.wants lines) = none :=
      List.find?_eq_none.2 fun n _ hn => absurd (((hopen n).1 hn).2.symm.trans hline) (by decide)
    rw [hnone, Bool.false_and, if_neg (by decide), Option.filter_none]
  | true =>
    have hsome : (List.finRange 8).find? (c.wants lines) = some k := by
      cases hfind : (List.finRange 8).find? (c.wants lines) with
      | none =>
        exact absurd ((hopen k).2 ⟨rfl, hline⟩) (List.find?_eq_none.1 hfind k (List.mem_finRange k))
      | some n => rw [((hopen n).1 (List.find?_some hfind)).1]
    rw [hsome, Bool.true_and, Option.filter_some]

end Chip

/-- The two controllers. -/
structure Pair where
  master : Chip
  slave : Chip

namespace Pair

/-- A byte written to a port. -/
def write (p : Pair) (port : BitVec 16) (v : BitVec 8) : Pair :=
  if port = 0x20 then ⟨p.master.command v, p.slave⟩
  else if port = 0x21 then ⟨p.master.data v, p.slave⟩
  else if port = 0xA0 then ⟨p.master, p.slave.command v⟩
  else if port = 0xA1 then ⟨p.master, p.slave.data v⟩
  else p

/-- A device asks for an interrupt on one of the lines 0 to 15. -/
def raise (p : Pair) (line : Fin 16) : Pair :=
  if line.val < 8 then ⟨p.master.raise line, p.slave⟩ else ⟨p.master, p.slave.raise (line.val - 8)⟩

/-- The line from the second controller to the first. -/
def cascade (p : Pair) : BitVec 8 := if (p.slave.request 0).isSome then 4 else 0

/-- The processor acknowledges an interrupt: its vector, if there is one. -/
def acknowledge (p : Pair) : Option (BitVec 8 × Pair) :=
  (p.master.request p.cascade).map fun n : Fin 8 =>
    if n = 2 then
      match p.slave.request 0 with
      | some m => (p.slave.config.base + BitVec.ofNat 8 m, ⟨p.master.accept 2, p.slave.accept m⟩)
      | none => (p.slave.config.base + 7, ⟨p.master.accept 2, p.slave⟩)
    else (p.master.config.base + BitVec.ofNat 8 n, ⟨p.master.accept n, p.slave⟩)

/-- What has been written to both. -/
def config (p : Pair) : Config × Config := (p.master.config, p.slave.config)

/-- The effect of a write on that. -/
def configWrite (c : Config × Config) (port : BitVec 16) (v : BitVec 8) : Config × Config :=
  if port = 0x20 then (c.1.command v, c.2)
  else if port = 0x21 then (c.1.data v, c.2)
  else if port = 0xA0 then (c.1, c.2.command v)
  else if port = 0xA1 then (c.1, c.2.data v)
  else c

/-- A write to the pair of controllers changes their configuration and reads nothing else. -/
@[simp] theorem write_config (p : Pair) (port : BitVec 16) (v : BitVec 8) :
    (p.write port v).config = configWrite p.config port v := by
  unfold write configWrite config
  split_ifs <;> simp

/-- A request on a line of the pair does not change the configuration. -/
@[simp] theorem raise_config (p : Pair) (line : Fin 16) : (p.raise line).config = p.config := by
  unfold raise
  split_ifs <;> rfl

/-- The first line is requested. -/
def pending (p : Pair) : Bool := p.master.irr.getLsbD 0

/-- The first line is in service. -/
def serving (p : Pair) : Bool := p.master.isr.getLsbD 0

/-- A request on line 0 waits; one on another line leaves line 0 as it was. -/
theorem raise_pending (p : Pair) (line : Fin 16) :
    (p.raise line).pending = (decide (line = 0) || p.pending) := by
  have hzero : decide (line = 0) = decide (line.val = 0) := decide_eq_decide.2 Fin.ext_iff
  unfold raise pending
  split_ifs with hline
  · rw [Chip.raise, BitVec.getLsbD_or, BitVec.getLsbD_twoPow, Bool.or_comm, hzero]
    simp [hline]
  · rw [decide_eq_false fun h => hline (by rw [h]; decide), Bool.false_or]

/-- A request does not touch what is in service. -/
theorem raise_isr (p : Pair) (line : Fin 16) : (p.raise line).master.isr = p.master.isr := by
  unfold raise
  split_ifs <;> rfl

/-- **One open line.**  If the first controller lets line 0 through and no other, the processor is
interrupted on line 0 or not at all, whatever the second controller wants. -/
theorem acknowledge_of_first {p : Pair} (hready : p.master.config.stage = .ready)
    (hmask : p.master.config.mask = 0xFE) :
    p.acknowledge = if p.pending && !p.serving then
      some (p.master.config.base, ⟨p.master.accept 0, p.slave⟩) else none := by
  have hsingle : ∀ n : Fin 8, p.master.config.mask.getLsbD n = false ↔ n = 0 := by
    rw [hmask]
    decide
  have hcascade : p.cascade.getLsbD 0 = false := by
    unfold cascade
    split_ifs <;> rfl
  have hfree : p.master.free 0 = !p.serving := by
    simp [Chip.free, serving, List.finRange_succ]
  have hline : (p.master.irr ||| p.cascade).getLsbD (0 : Fin 8).val = p.pending := by
    change (p.master.irr ||| p.cascade).getLsbD 0 = p.master.irr.getLsbD 0
    rw [BitVec.getLsbD_or, hcascade, Bool.or_false]
  rw [acknowledge, Chip.request_of_single hready hsingle, hfree, hline]
  split_ifs
  · simp
  · rfl

end Pair

/-! ### The timer -/

/-- Channel 0: how the next bytes are taken, the mode it works in, the low byte if it has come, and
the count to start from. -/
structure Channel where
  access : BitVec 2
  mode : BitVec 3
  low : Option (BitVec 8)
  reload : BitVec 16

/-- A control word; those for other channels and the latch command do not change the count. -/
def Channel.control (c : Channel) (v : BitVec 8) : Channel :=
  if v.extractLsb' 6 2 = 0 ∧ v.extractLsb' 4 2 ≠ 0 then
    ⟨v.extractLsb' 4 2, v.extractLsb' 1 3, none, c.reload⟩
  else c

/-- A byte of the count. -/
def Channel.data (c : Channel) (v : BitVec 8) : Channel :=
  if c.access = 1 then { c with reload := v.setWidth 16 }
  else if c.access = 2 then { c with reload := v ++ (0 : BitVec 8) }
  else match c.low with
    | none => { c with low := some v }
    | some low => { c with low := none, reload := v ++ low }

/-- A write to one of the two ports. -/
def Channel.write (c : Channel) (port : BitVec 16) (v : BitVec 8) : Channel :=
  if port = 0x43 then c.control v else if port = 0x40 then c.data v else c

/-- The timer asks for an interrupt every so many periods of its input.  It does so in modes 2 and 3
only (their numbers have bit 1, with or without bit 2), and the least count of these modes is 2. -/
def Channel.period (c : Channel) : Option ℕ :=
  if c.mode.getLsbD 1 = false ∨ c.reload = 1 then none
  else some (if c.reload = 0 then 2 ^ 16 else c.reload.toNat)

end PcTimer
