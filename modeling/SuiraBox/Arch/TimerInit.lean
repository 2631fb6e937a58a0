/-
# The timer and its interrupts

`kernel/timer.c` (`pic_remap`, `timer_init`, `sb_timer_tick`), on the interrupt controllers and the
timer of a PC, with the stub of `kernel/arch/x86_64/irq.S`.

Devices may ask for interrupts at any moment: while `timer_init` programs the controllers, while the
kernel is idle and while a handler runs.  A run is any order of such requests, of instructions and
of moments at which the processor looks for an interrupt.

`pic_remap` writes the fourth initialisation word of the second controller to port 0xA0 instead of
0xA1.  The controller still waits for it and takes the next byte, meant as its mask, so that none of
its lines is masked in the end (`slaveConfig`).  What keeps them from the processor is the first
controller, which lets line 0 through and nothing else.
-/

import SuiraBox.Arch.Exceptions
import SuiraBox.Library.PcTimer
import SuiraBox.Library.Runs
import SuiraBox.Sched.Scheduler

namespace SuiraBox.Arch

open PcTimer Runs Sched

/-! ### The code -/

/-- The steps of the code that are visible outside of the processor's registers. -/
inductive Op
  | cli
  | sti
  | outb (port : U16) (value : U8)
  /-- `ticks = 0` -/
  | clearTicks
  /-- `interrupts_set_handler` -/
  | setHandler (vector : U8) (handler : U64)
  /-- The instruction `int`. -/
  | int (vector : U8)
  /-- The call of `sb_timer_tick`. -/
  | tick
  | iretq

/-- `PIT_BASE_HZ`. -/
def pitBaseHz : U32 := 1193182

/-- The divisor for a frequency, as `timer_init` computes it. -/
def timerDivisor (frequencyHz : U32) : U32 :=
  let frequencyHz := if frequencyHz = 0 then 100 else frequencyHz
  let divisor := pitBaseHz / frequencyHz
  let divisor := if divisor = 0 then 1 else divisor
  if 0xFFFF < divisor then 0xFFFF else divisor

/-- `pic_remap`. -/
def picRemap : List Op :=
  [.outb 0x21 0xFF, .outb 0xA1 0xFF, .outb 0x20 0x11, .outb 0xA0 0x11, .outb 0x21 0x20,
    .outb 0xA1 0x28, .outb 0x21 0x04, .outb 0xA1 0x02, .outb 0x21 0x01, .outb 0xA0 0x01,
    .outb 0x21 0xFE, .outb 0xA1 0xFF]

/-- `timer_init` up to the installation of the handler; `stub` is the address of
`sb_timer_irq_stub`. -/
def timerSetup (stub : U64) (frequencyHz : U32) : List Op :=
  [.cli, .clearTicks] ++ picRemap ++
    [.outb 0x43 0x36, .outb 0x40 ((timerDivisor frequencyHz &&& 0xFF).setWidth 8),
      .outb 0x40 (((timerDivisor frequencyHz >>> 8) &&& 0xFF).setWidth 8), .setHandler 32 stub]

/-- `timer_init`. -/
def timerInit (stub : U64) (frequencyHz : U32) : List Op :=
  timerSetup stub frequencyHz ++ [.int 32, .sti]

/-- `sb_timer_irq_stub`, without the marks on the serial port. -/
def sbTimerIrq : List Op := [.tick, .outb 0x20 0x20, .iretq]

/-! ### The stub on the ports -/

section Stub

open X64

variable {callee : Cpu → Cpu}

theorem outbTo_ports (callee : Cpu → Cpu) (s : Cpu) (port : U16) (value : U8) :
    (execAll callee s (outbTo port value)).ports = s.ports ++ [(port, value)] := by
  have hport := Words.setWidth_insert_low (by decide) (s.regs .rdx) port
  have hvalue := Words.setWidth_insert_low (by decide) (s.regs .rax) value
  exact congrArg (s.ports ++ [·]) (Prod.ext hport hvalue)

theorem execAll_ports {code : List Instr}
    (hcode : ∀ i ∈ code, ∀ s, (exec callee s i).ports = s.ports) (s : Cpu) :
    (execAll callee s code).ports = s.ports := by
  induction code generalizing s with
  | nil => rfl
  | cons i code ih =>
    refine (ih (fun j hj => hcode j (List.mem_cons_of_mem _ hj)) _).trans ?_
    exact hcode i (List.mem_cons_self ..) s

/-- What a timer interrupt writes to ports, if `sb_timer_tick` writes nothing: four marks, and the
end of interrupt after the call. -/
theorem timerIrq_ports (hcallee : ∀ t, (callee t).ports = t.ports) (stack handler ret : U64)
    (user : Cpu) : (timerIrq callee stack handler ret user).ports =
      user.ports ++ [(0x3F8, 0x45), (0x3F8, 0x54), (0x20, 0x20), (0x3F8, 0x4F), (0x3F8, 0x52)] := by
  have hpush : ∀ s, (execAll callee s (savedByTimer.map .push)).ports = s.ports :=
    execAll_ports fun i hi s => by
      obtain ⟨r, -, rfl⟩ := List.mem_map.1 hi
      rfl
  have hpop : ∀ s, (execAll callee s (savedByTimer.reverse.map .pop)).ports = s.ports :=
    execAll_ports fun i hi s => by
      obtain ⟨r, -, rfl⟩ := List.mem_map.1 hi
      rfl
  have hcall : ∀ s, (execAll callee s [.call ret]).ports = s.ports := fun s => hcallee _
  have hiret : ∀ s, (execAll callee s [.iretq]).ports = s.ports := fun s => rfl
  simp only [timerIrq, sbTimerIrqStub, timerBody, serialMark, execAll_append, outbTo_ports, hpush,
    hpop, hcall, hiret, List.append_assoc]
  rfl

/-- To the controllers the stub is `sbTimerIrq`: the one byte it writes to them is the end of
interrupt. -/
theorem timerIrq_pics (hcallee : ∀ t, (callee t).ports = t.ports) (stack handler ret : U64)
    (user : Cpu) :
    ∃ written, (timerIrq callee stack handler ret user).ports = user.ports ++ written ∧
      ∀ p : Pair, written.foldl (fun p w => p.write w.1 w.2) p = p.write 0x20 0x20 :=
  ⟨_, timerIrq_ports hcallee stack handler ret user, fun _ => rfl⟩

end Stub

/-! ### The machine -/

/-- The controllers, the timer, the kernel's table and clock, and the processor: its interrupt flag,
the flags saved by the interrupts it is in, and the code it has to do. -/
structure Machine where
  pics : Pair
  channel : Channel
  idt : U8 → IdtEntry
  clock : Clocked
  interruptFlag : Bool
  frames : List Bool
  code : List Op

namespace Machine

variable (text : U64 → List Op)

/-- The processor enters the handler of a vector; `text` is the code at an address. -/
def enter (m : Machine) (vector : U8) : Machine :=
  { m with
    frames := m.interruptFlag :: m.frames
    interruptFlag := false
    code := text (m.idt vector).handler ++ m.code }

/-- One step of the code. -/
def exec (m : Machine) : Op → Machine
  | .cli => { m with interruptFlag := false }
  | .sti => { m with interruptFlag := true }
  | .outb port value =>
    { m with pics := m.pics.write port value, channel := m.channel.write port value }
  | .clearTicks => { m with clock := { m.clock with ticks := 0 } }
  | .setHandler vector handler => { m with idt := idtSetGate m.idt vector handler 0 }
  | .int vector => m.enter text vector
  | .tick => { m with clock := sbTimerTick m.clock }
  | .iretq => { m with interruptFlag := m.frames.headD false, frames := m.frames.tail }

/-- What may happen next. -/
inductive Happening
  | raise (line : Fin 16)
  | instr
  | interrupt

/-- What can be seen of it: a request of the timer that finds none waiting, and an interrupt. -/
inductive Note
  | pulse
  | vector (v : U8)
  deriving DecidableEq

/-- One step of the machine. -/
def step (m : Machine) : Happening → Option Note × Machine
  | .raise line =>
    (if line = 0 ∧ m.pics.pending = false then some .pulse else none,
      { m with pics := m.pics.raise line })
  | .instr =>
    match m.code with
    | [] => (none, m)
    | op :: code => (none, exec text { m with code := code } op)
  | .interrupt =>
    if m.interruptFlag then
      match m.pics.acknowledge with
      | some (v, pics) => (some (.vector v), enter text { m with pics := pics } v)
      | none => (none, m)
    else (none, m)

/-! ### Programming the devices -/

/-- The first controller after `pic_remap`: vectors from 32 on, all but line 0 masked. -/
def masterConfig : Config := ⟨.ready, false, true, false, 0x20, 0xFE⟩

/-- The second controller after `pic_remap`: vectors from 40 on, and no line masked. -/
def slaveConfig : Config := ⟨.ready, false, true, true, 0x28, 0⟩

/-- A state that differs from `n` in what devices have requested, and in the code to come. -/
structure Alike (m n : Machine) : Prop where
  config : m.pics.config = n.pics.config
  isr : m.pics.master.isr = n.pics.master.isr
  rest : m = { n with pics := m.pics, code := m.code }

variable {text} {m n : Machine}

theorem write_isr_congr {p q : Pair} (h : p.master.isr = q.master.isr) (port : U16) (v : U8) :
    (p.write port v).master.isr = (q.write port v).master.isr := by
  unfold Pair.write Chip.command
  split_ifs <;> simp [Chip.data, h]

/-- Steps that do not enter or leave a handler do the same in both states. -/
theorem Alike.exec (h : Alike m n) (op : Op) (hop : ∀ v, op ≠ .int v) :
    Alike (m.exec text op) (n.exec text op) := by
  obtain ⟨hconfig, hisr, hrest⟩ := h
  generalize m.pics = p, m.code = c at hconfig hisr hrest
  subst hrest
  cases op with
  | int v => exact absurd rfl (hop v)
  | outb port v =>
    refine ⟨?_, write_isr_congr hisr port v, rfl⟩
    simp only [Machine.exec, Pair.write_config, hconfig]
  | _ => exact ⟨hconfig, hisr, rfl⟩

theorem Alike.raise (h : Alike m n) (line : Fin 16) :
    Alike { m with pics := m.pics.raise line } n :=
  ⟨(m.pics.raise_config line).trans h.config, (m.pics.raise_isr line).trans h.isr, by rw [h.rest]⟩

theorem reload_eq (d : U32) :
    (((d >>> 8) &&& 0xFF).setWidth 8 : U8) ++ ((d &&& 0xFF).setWidth 8 : U8) =
      (d.setWidth 16 : U16) := by
  refine BitVec.eq_of_toNat_eq ?_
  rw [Words.toNat_append, Words.toNat_setWidth_and _ rfl, Words.toNat_setWidth_and _ rfl,
    BitVec.toNat_setWidth, BitVec.toNat_ushiftRight, Nat.shiftRight_eq_div_pow]
  omega

/-- **`timer_init` programs the devices** whatever state it finds them in. -/
theorem timerSetup_result (text : U64 → List Op) (m : Machine) (stub : U64) (frequencyHz : U32) :
    let n := (timerSetup stub frequencyHz).foldl (Machine.exec text) m
    n.pics.config = (masterConfig, slaveConfig) ∧ n.pics.master.isr = 0 ∧
      (n.idt 32).handler = stub ∧ n.clock = ⟨m.clock.sched, 0⟩ ∧
      (n.channel.mode = 3 ∧ n.channel.reload = (timerDivisor frequencyHz).setWidth 16) ∧
      n.frames = m.frames := by
  refine ⟨rfl, rfl, ?_, rfl, ⟨rfl, reload_eq _⟩, rfl⟩
  change (idtSetGate m.idt 32 stub 0 32).handler = stub
  rw [idtSetGate, Function.update_self, handler_gateOf]

/-! ### Where the processor is -/

/-- How far the handler is: before the tick, before the end of interrupt, before the return. -/
inductive Part
  | entered | ticked | ended

def Part.code : Part → List Op
  | .entered => sbTimerIrq
  | .ticked => [.outb 0x20 0x20, .iretq]
  | .ended => [.iretq]

/-- The states once the devices are programmed: in `timer_init` before, in and after its own call of
the handler, and later outside and inside of the handler. -/
inductive Place
  | armed
  | soft (part : Part)
  | enabling
  | idle
  | hard (part : Part)

namespace Place

def code : Place → List Op
  | armed => [.int 32, .sti]
  | soft part => part.code ++ [.sti]
  | enabling => [.sti]
  | idle => []
  | hard part => part.code

def flag : Place → Bool
  | idle => true
  | _ => false

def frames : Place → List Bool
  | soft _ => [false]
  | hard _ => [true]
  | _ => []

/-- The lines in service: the software interrupt is none. -/
def serving : Place → U8
  | hard .entered | hard .ticked => 1
  | _ => 0

/-- The calls of `sb_timer_tick` to come. -/
def owes : Place → ℕ
  | armed | soft .entered | hard .entered => 1
  | _ => 0

/-- The call that the next instruction is. -/
def ticks : Place → ℕ
  | soft .entered | hard .entered => 1
  | _ => 0

def next : Place → Place
  | armed => soft .entered
  | soft .entered => soft .ticked
  | soft .ticked => soft .ended
  | soft .ended => enabling
  | enabling => idle
  | idle => idle
  | hard .entered => hard .ticked
  | hard .ticked => hard .ended
  | hard .ended => idle

theorem owes_eq (place : Place) : place.ticks + place.next.owes = place.owes := by
  rcases place with _ | ⟨_ | _ | _⟩ | _ | _ | ⟨_ | _ | _⟩ <;> rfl

theorem next_five (place : Place) : next^[5] place = idle := by
  rcases place with _ | ⟨_ | _ | _⟩ | _ | _ | ⟨_ | _ | _⟩ <;> rfl

theorem eq_idle_of_code {place : Place} (h : place.code = []) : place = idle := by
  rcases place with _ | ⟨_ | _ | _⟩ | _ | _ | ⟨_ | _ | _⟩ <;> first | rfl | cases h

end Place

/-- The devices are programmed, and the processor is at this place. -/
structure Ready (stub : U64) (reload : U16) (place : Place) (m : Machine) : Prop where
  config : m.pics.config = (masterConfig, slaveConfig)
  handler : (m.idt 32).handler = stub
  channel : m.channel.mode = 3 ∧ m.channel.reload = reload
  code : m.code = place.code
  flag : m.interruptFlag = place.flag
  frames : m.frames = place.frames
  isr : m.pics.master.isr = place.serving

/-- What a part of a run tells of the states before and after it: the interrupts are the timer's,
each of them ticks once, and it answers one pulse. -/
structure Accounts (notes : List (Option Note)) (place place' : Place) (m m' : Machine) : Prop where
  only : ∀ v, some (.vector v) ∈ notes → v = 32
  clock : ∃ k, m'.clock = sbTimerTick^[k] m.clock ∧
    k + place'.owes = place.owes + notes.count (some (.vector 32))
  pulses : notes.count (some .pulse) + m.pics.pending.toNat =
    notes.count (some (.vector 32)) + m'.pics.pending.toNat

theorem Accounts.refl (place : Place) (m : Machine) : Accounts [] place place m m where
  only _ hv := absurd hv List.not_mem_nil
  clock := ⟨0, rfl, Nat.zero_add _⟩
  pulses := rfl

theorem Accounts.trans {notes notes' : List (Option Note)} {p p' p'' : Place} {m m' m'' : Machine}
    (h : Accounts notes p p' m m') (h' : Accounts notes' p' p'' m' m'') :
    Accounts (notes ++ notes') p p'' m m'' := by
  obtain ⟨k, hclock, hk⟩ := h.clock
  obtain ⟨k', hclock', hk'⟩ := h'.clock
  have hpulses := h.pulses
  have hpulses' := h'.pulses
  refine ⟨fun v hv => ?_, ⟨k' + k, ?_, ?_⟩, ?_⟩
  · exact (List.mem_append.1 hv).elim (h.only v) (h'.only v)
  · rw [hclock', hclock, Function.iterate_add_apply]
  · rw [List.count_append]
    omega
  · rw [List.count_append, List.count_append]
    omega

section Steps

variable {stub : U64} {reload : U16} {place : Place}

/-- An instruction. -/
theorem Ready.instr (htext : text stub = sbTimerIrq) (h : Ready stub reload place m) :
    Ready stub reload place.next (step text m .instr).2 ∧
      Accounts [(step text m .instr).1] place place.next m (step text m .instr).2 := by
  obtain ⟨pics, channel, idt, clock, flag, frames, code⟩ := m
  obtain ⟨hconfig, hhandler, hreload, rfl, rfl, rfl, hisr⟩ := h
  -- a step that is seen by nobody, and ticks where the place says so
  have hsilent : ∀ m' : Machine, m'.clock = sbTimerTick^[place.ticks] clock →
      m'.pics.pending = pics.pending →
      Accounts [none] place place.next ⟨pics, channel, idt, clock, place.flag, place.frames,
          place.code⟩ m' :=
    fun m' hclock hpending =>
      ⟨by simp, ⟨place.ticks, hclock, place.owes_eq⟩, by rw [hpending]; rfl⟩
  have hend : (pics.write 0x20 0x20).config = (masterConfig, slaveConfig) := by
    rw [Pair.write_config, hconfig]
    rfl
  have hserved : (pics.write 0x20 0x20).master.isr = 0 := by
    change pics.master.isr &&& (pics.master.isr - 1) = 0
    rw [hisr]
    rcases place with _ | ⟨_ | _ | _⟩ | _ | _ | ⟨_ | _ | _⟩ <;> rfl
  rcases place with _ | part | _ | _ | part
  · refine ⟨⟨hconfig, hhandler, hreload, ?_, rfl, rfl, hisr⟩, hsilent _ rfl rfl⟩
    change text (idt 32).handler ++ [.sti] = _
    rw [hhandler, htext]
    rfl
  · cases part with
    | entered => exact ⟨⟨hconfig, hhandler, hreload, rfl, rfl, rfl, hisr⟩, hsilent _ rfl rfl⟩
    | ticked => exact ⟨⟨hend, hhandler, hreload, rfl, rfl, rfl, hserved⟩, hsilent _ rfl rfl⟩
    | ended => exact ⟨⟨hconfig, hhandler, hreload, rfl, rfl, rfl, hisr⟩, hsilent _ rfl rfl⟩
  · exact ⟨⟨hconfig, hhandler, hreload, rfl, rfl, rfl, hisr⟩, hsilent _ rfl rfl⟩
  · exact ⟨⟨hconfig, hhandler, hreload, rfl, rfl, rfl, hisr⟩, hsilent _ rfl rfl⟩
  · cases part with
    | entered => exact ⟨⟨hconfig, hhandler, hreload, rfl, rfl, rfl, hisr⟩, hsilent _ rfl rfl⟩
    | ticked => exact ⟨⟨hend, hhandler, hreload, rfl, rfl, rfl, hserved⟩, hsilent _ rfl rfl⟩
    | ended => exact ⟨⟨hconfig, hhandler, hreload, rfl, rfl, rfl, hisr⟩, hsilent _ rfl rfl⟩

/-- A request of a device. -/
theorem Ready.raise (h : Ready stub reload place m) (line : Fin 16) :
    Ready stub reload place (step text m (.raise line)).2 ∧
      Accounts [(step text m (.raise line)).1] place place m (step text m (.raise line)).2 := by
  refine ⟨⟨(m.pics.raise_config line).trans h.config, h.handler, h.channel, h.code,
    h.flag, h.frames, (m.pics.raise_isr line).trans h.isr⟩, ?_⟩
  have hpending := m.pics.raise_pending line
  by_cases hpulse : line = 0 ∧ m.pics.pending = false
  · rw [step, if_pos hpulse]
    obtain ⟨rfl, hwaits⟩ := hpulse
    refine ⟨by simp, ⟨0, rfl, by simp⟩, ?_⟩
    simp [hpending, hwaits]
  · rw [step, if_neg hpulse]
    refine ⟨by simp, ⟨0, rfl, by simp⟩, ?_⟩
    have hsame : (m.pics.raise line).pending = m.pics.pending := by
      rw [hpending]
      rcases not_and_or.1 hpulse with hline | hwaits
      · rw [decide_eq_false hline, Bool.false_or]
      · rw [Bool.not_eq_false] at hwaits
        rw [hwaits, Bool.or_true]
    simp [hsame]

variable (htext : text stub = sbTimerIrq) (h : Ready stub reload place m)

include htext h

/-- The processor looks for an interrupt: outside of the handler it takes one from the timer. -/
theorem Ready.interrupt :
    ∃ place', Ready stub reload place' (step text m .interrupt).2 ∧
      Accounts [(step text m .interrupt).1] place place' m (step text m .interrupt).2 ∧
      (place = .idle → m.pics.pending = true → (step text m .interrupt).1 = some (.vector 32)) := by
  have hconfig : m.pics.master.config = masterConfig := congrArg Prod.fst h.config
  have hack := Pair.acknowledge_of_first (p := m.pics) (by rw [hconfig]; rfl) (by rw [hconfig]; rfl)
  by_cases htaken : place = .idle ∧ m.pics.pending = true
  · obtain ⟨rfl, hpending⟩ := htaken
    have hflag : m.interruptFlag = true := h.flag
    have hserving : m.pics.serving = false := by rw [Pair.serving, h.isr]; rfl
    rw [hpending, hserving, if_pos (by rfl), hconfig] at hack
    have hstep : step text m .interrupt =
        (some (.vector 32),
          enter text { m with pics := ⟨m.pics.master.accept 0, m.pics.slave⟩ } 32) := by
      rw [step, if_pos hflag, hack]
      rfl
    have hanswered : (Pair.mk (m.pics.master.accept 0) m.pics.slave).pending = false := by
      simp [Pair.pending, Chip.accept]
    rw [hstep]
    refine ⟨.hard .entered, ⟨h.config, h.handler, h.channel, ?_, rfl, ?_, ?_⟩,
      ⟨by simp, ⟨0, rfl, by simp [Place.owes]⟩, ?_⟩, fun _ _ => rfl⟩
    · change text (m.idt 32).handler ++ m.code = _
      rw [h.handler, h.code, htext]
      rfl
    · change m.interruptFlag :: m.frames = _
      rw [h.flag, h.frames]
      rfl
    · change (if m.pics.master.config.autoEoi then _ else _) = _
      rw [hconfig, h.isr]
      rfl
    · change _ + m.pics.pending.toNat =
        _ + (Pair.mk (m.pics.master.accept 0) m.pics.slave).pending.toNat
      rw [hpending, hanswered]
      rfl
  · have hstep : step text m .interrupt = (none, m) := by
      rw [step, hack]
      by_cases hidle : place = .idle
      · have hpending : m.pics.pending = false := by
          rw [← Bool.not_eq_true]
          exact fun hp => htaken ⟨hidle, hp⟩
        simp [hpending]
      · have hflag : m.interruptFlag = false := by
          rw [h.flag]
          cases place with
          | idle => exact absurd rfl hidle
          | _ => rfl
        rw [hflag, if_neg (by decide)]
    rw [hstep]
    exact ⟨place, h, ⟨by simp, ⟨0, rfl, by simp⟩, by simp⟩, fun hidle hp =>
      absurd ⟨hidle, hp⟩ htaken⟩

theorem Ready.step (e : Happening) : ∃ place', Ready stub reload place' (step text m e).2 ∧
      Accounts [(Machine.step text m e).1] place place' m (Machine.step text m e).2 := by
  cases e with
  | raise line => exact ⟨place, h.raise line⟩
  | instr => exact ⟨place.next, h.instr htext⟩
  | interrupt =>
    obtain ⟨place', hready, haccounts, -⟩ := h.interrupt htext
    exact ⟨place', hready, haccounts⟩

/-- **Every run of the programmed machine.** -/
theorem Ready.run (es : List Happening) :
    ∃ place', Ready stub reload place' (Runs.run (Machine.step text) m es) ∧
      Accounts (outputs (Machine.step text) m es) place place' m
      (Runs.run (Machine.step text) m es) := by
  induction es generalizing m place with
  | nil => exact ⟨place, h, .refl place m⟩
  | cons e es ih =>
    obtain ⟨place', hready, haccounts⟩ := h.step htext e
    obtain ⟨place'', hready', haccounts'⟩ := ih hready
    exact ⟨place'', hready', haccounts.trans haccounts'⟩

/-- A request of the timer is answered as soon as the handler is over. -/
theorem Ready.responds (hpending : m.pics.pending = true) :
    some (.vector 32) ∈ outputs (Machine.step text) m (List.replicate 5 .instr ++
      [.interrupt]) := by
  have hinstrs : ∀ n, Ready stub reload (Place.next^[n] place)
      (Runs.run (Machine.step text) m (List.replicate n .instr)) ∧
      (Runs.run (Machine.step text) m (List.replicate n .instr)).pics.pending = true := by
    intro n
    induction n with
    | zero => exact ⟨h, hpending⟩
    | succ n ih =>
      obtain ⟨hready, hpending⟩ := ih
      obtain ⟨hready', haccounts⟩ := hready.instr htext
      rw [List.replicate_succ', run_concat, Function.iterate_succ_apply']
      refine ⟨hready', ?_⟩
      have hnone : (Machine.step text (Runs.run (Machine.step text) m (List.replicate n .instr))
          .instr).1 = none := by
        unfold Machine.step
        dsimp only
        split <;> rfl
      have hpulses := haccounts.pulses
      rw [hnone, hpending] at hpulses
      exact Bool.toNat_eq_one.1 (by simpa using hpulses.symm)
  obtain ⟨hready, hwaits⟩ := hinstrs 5
  rw [Place.next_five] at hready
  obtain ⟨-, -, -, htaken⟩ := hready.interrupt htext
  rw [outputs_append]
  exact List.mem_append_right _ (List.mem_singleton.2 (htaken rfl hwaits).symm)

end Steps

/-! ### From the call of `timer_init` on -/

/-- `timer_init` has still to do `todo` before its call of the handler. -/
structure Preparing (text : U64 → List Op) (stub : U64) (frequencyHz : U32) (m₀ : Machine)
    (todo : List Op) (m : Machine) : Prop where
  code : m.code = todo ++ [.int 32, .sti]
  flag : m.interruptFlag = false
  alike : ∃ done, done ++ todo = timerSetup stub frequencyHz ∧
    Alike m (done.foldl (Machine.exec text) m₀)

section Whole

variable {stub : U64} {frequencyHz : U32} {m₀ : Machine} {todo : List Op}

/-- The count that `timer_init` starts the timer from. -/
def reloadFor (frequencyHz : U32) : U16 := (timerDivisor frequencyHz).setWidth 16

/-- None of the steps of the setup enables interrupts or enters a handler. -/
theorem timerSetup_quiet (text : U64 → List Op) {op : Op} (hop : op ∈ timerSetup stub frequencyHz) :
    (∀ v, op ≠ .int v) ∧ ∀ m : Machine, m.interruptFlag = false →
      (m.exec text op).interruptFlag = false ∧ (m.exec text op).code = m.code := by
  simp only [timerSetup, picRemap, List.cons_append, List.nil_append, List.mem_cons,
    List.not_mem_nil, or_false] at hop
  rcases hop with rfl | rfl | rfl | rfl | rfl | rfl | rfl | rfl | rfl | rfl | rfl | rfl | rfl | rfl
    | rfl | rfl | rfl | rfl <;>
    exact ⟨fun v => by simp, fun m hm => ⟨by first | rfl | exact hm, rfl⟩⟩

/-- When nothing is left to do, the devices are programmed. -/
theorem Preparing.ready (hframes : m₀.frames = []) (h : Preparing text stub frequencyHz m₀ [] m) :
    Ready stub (reloadFor frequencyHz) .armed m ∧ m.clock = ⟨m₀.clock.sched, 0⟩ := by
  obtain ⟨done, hdone, halike⟩ := h.alike
  rw [List.append_nil] at hdone
  obtain ⟨hconfig, hisr, hhandler, hclock, hreload, hframe⟩ :=
    timerSetup_result text m₀ stub frequencyHz
  rw [← hdone] at hconfig hisr hhandler hclock hreload hframe
  have hrest := halike.rest
  refine ⟨⟨halike.config.trans hconfig, ?_, ?_, h.code, h.flag, ?_, halike.isr.trans hisr⟩, ?_⟩
  · rw [hrest]
    exact hhandler
  · rw [hrest]
    exact hreload
  · rw [hrest]
    exact hframe.trans hframes
  · rw [hrest]
    exact hclock

/-- The next instruction of the setup. -/
theorem Preparing.instr {op : Op} (h : Preparing text stub frequencyHz m₀ (op :: todo) m) :
    Preparing text stub frequencyHz m₀ todo (step text m .instr).2 ∧
    (step text m .instr).1 = none := by
  obtain ⟨done, hdone, halike⟩ := h.alike
  have hmem : op ∈ timerSetup stub frequencyHz :=
    hdone ▸ List.mem_append_right _ (List.mem_cons_self ..)
  obtain ⟨hint, hquiet⟩ := timerSetup_quiet text hmem
  obtain ⟨hflag, hcode⟩ := hquiet { m with code := todo ++ [.int 32, .sti] } h.flag
  have hstep : step text m .instr =
      (none, exec text { m with code := todo ++ [.int 32, .sti] } op) := by
    rw [step, h.code]
    rfl
  rw [hstep]
  refine ⟨⟨hcode, hflag, done ++ [op], by simpa using hdone, ?_⟩, rfl⟩
  have hsame : Alike { m with code := todo ++ [.int 32, .sti] }
      (done.foldl (Machine.exec text) m₀) :=
    ⟨halike.config, halike.isr, by rw [halike.rest]⟩
  rw [List.foldl_concat]
  exact hsame.exec op hint

/-- Requests and looks for an interrupt do not disturb the setup. -/
theorem Preparing.other (h : Preparing text stub frequencyHz m₀ todo m) {e : Happening}
    (he : e ≠ .instr) :
    Preparing text stub frequencyHz m₀ todo (step text m e).2 ∧
    ∀ v, (step text m e).1 ≠ some (.vector v) := by
  cases e with
  | instr => exact absurd rfl he
  | raise line =>
    obtain ⟨done, hdone, halike⟩ := h.alike
    refine ⟨⟨h.code, h.flag, done, hdone, halike.raise line⟩, fun v => ?_⟩
    rw [step]
    split_ifs <;> simp
  | interrupt =>
    have hstep : step text m .interrupt = (none, m) := by rw [step, h.flag, if_neg (by decide)]
    rw [hstep]
    exact ⟨h, by simp⟩

/-- Every run from the setup on: it is still going on and nothing has been interrupted, or the
devices are programmed and the clock has ticked once and once for every interrupt. -/
theorem Preparing.run (htext : text stub = sbTimerIrq) (hframes : m₀.frames = [])
    (h : Preparing text stub frequencyHz m₀ todo m) (es : List Happening) :
    let notes := outputs (step text) m es
    (∃ todo', Preparing text stub frequencyHz m₀ todo' (Runs.run (step text) m es) ∧
      ∀ v, some (.vector v) ∉ notes) ∨
    ∃ place k, Ready stub (reloadFor frequencyHz) place (Runs.run (step text) m es) ∧
      (∀ v, some (.vector v) ∈ notes → v = 32) ∧
      (Runs.run (step text) m es).clock = sbTimerTick^[k] ⟨m₀.clock.sched, 0⟩ ∧
      k + place.owes = 1 + notes.count (some (.vector 32)) := by
  induction es generalizing m todo with
  | nil => exact Or.inl ⟨todo, h, by simp [outputs]⟩
  | cons e es ih =>
    by_cases hlast : todo = []
    · subst hlast
      obtain ⟨hready, hclock⟩ := h.ready hframes
      obtain ⟨place, hready', haccounts⟩ := hready.run htext (e :: es)
      obtain ⟨k, hk, howes⟩ := haccounts.clock
      exact Or.inr ⟨place, k, hready', haccounts.only, by rw [hk, hclock], howes⟩
    · have hstep : ∃ todo', Preparing text stub frequencyHz m₀ todo' (step text m e).2 ∧
          ∀ v, (step text m e).1 ≠ some (.vector v) := by
        by_cases he : e = .instr
        · obtain ⟨op, todo', rfl⟩ := List.exists_cons_of_ne_nil hlast
          subst he
          obtain ⟨hnext, hnone⟩ := h.instr
          exact ⟨todo', hnext, by simp [hnone]⟩
        · exact ⟨todo, h.other he⟩
      obtain ⟨todo', hnext, hsilent⟩ := hstep
      have hcount : ∀ notes : List (Option Note),
          ((step text m e).1 :: notes).count (some (.vector 32)) =
          notes.count (some (.vector 32)) := fun notes => List.count_cons_of_ne (hsilent 32)
      have hmem : ∀ (notes : List (Option Note)) v, some (.vector v) ∈ (step text m e).1 :: notes →
          some (.vector v) ∈ notes :=
            fun notes v hv => (List.mem_cons.1 hv).resolve_left fun heq => hsilent v heq.symm
      simp only [outputs, run_cons, hcount]
      rcases ih hnext with ⟨todo'', hprep, hnone⟩ | ⟨place, k, hready, honly, hclock, howes⟩
      · exact Or.inl ⟨todo'', hprep, fun v hv => hnone v (hmem _ v hv)⟩
      · exact Or.inr ⟨place, k, hready, fun v hv => honly v (hmem _ v hv), hclock, howes⟩

theorem preparing_timerInit (hcode : m₀.code = timerInit stub frequencyHz)
    (hflag : m₀.interruptFlag = false) :
    Preparing text stub frequencyHz m₀ (timerSetup stub frequencyHz) m₀ :=
  ⟨hcode, hflag, [], rfl, rfl, rfl, rfl⟩

/-- When the code has been done, the machine is idle. -/
theorem ready_of_done (htext : text stub = sbTimerIrq)
    (hcode : m₀.code = timerInit stub frequencyHz)
    (hflag : m₀.interruptFlag = false) (hframes : m₀.frames = []) {es : List Happening}
    (hdone : (Runs.run (step text) m₀ es).code = []) :
    Ready stub (reloadFor frequencyHz) .idle (Runs.run (step text) m₀ es) ∧
      (Runs.run (step text) m₀ es).clock =
        sbTimerTick^[1 + (outputs (step text) m₀ es).count (some (.vector 32))]
        ⟨m₀.clock.sched, 0⟩ := by
  rcases (preparing_timerInit hcode hflag).run htext hframes es with
    ⟨todo', hprep, -⟩ | ⟨place, k, hready, -, hclock, howes⟩
  · rw [hprep.code] at hdone
    exact absurd hdone (by simp)
  · obtain rfl := Place.eq_idle_of_code (hready.code.symm.trans hdone)
    exact ⟨hready, by rw [hclock, ← howes]; rfl⟩

/-- **The timer is the only source of interrupts.**  From a call of `timer_init` with interrupts off
on, whatever state the controllers are in, whatever devices ask for and however it all interleaves,
the processor takes no interrupt but vector 32.  Whenever the code has been done, the first
controller lets line 0 through alone, the second one masks nothing, the gate of vector 32 leads to
the stub, interrupts are on, and `sb_timer_tick` has run once for the call in `timer_init` and once
for every interrupt. -/
theorem timer_interrupts (htext : text stub = sbTimerIrq)
    (hcode : m₀.code = timerInit stub frequencyHz)
    (hflag : m₀.interruptFlag = false) (hframes : m₀.frames = []) (es : List Happening) :
    let m := Runs.run (step text) m₀ es
    let notes := outputs (step text) m₀ es
    (∀ v, some (.vector v) ∈ notes → v = 32) ∧
      (m.code = [] → m.pics.config = (masterConfig, slaveConfig) ∧ (m.idt 32).handler = stub ∧
        m.interruptFlag = true ∧
        m.clock = sbTimerTick^[1 + notes.count (some (.vector 32))] ⟨m₀.clock.sched, 0⟩) := by
  refine ⟨?_, fun hdone => ?_⟩
  · rcases (preparing_timerInit hcode hflag).run htext hframes es with
      ⟨todo', -, hnone⟩ | ⟨place, k, -, honly, -⟩
    · exact fun v hv => absurd hv (hnone v)
    · exact honly
  · obtain ⟨hready, hclock⟩ := ready_of_done htext hcode hflag hframes hdone
    exact ⟨hready.config, hready.handler, hready.flag, hclock⟩

/-- **Pulses and interrupts.**  Once `timer_init`, called with interrupts off, is over, the requests
of the timer that find none waiting are as many as the interrupts taken, up to the one that waits in
the end; and one that waits is taken as soon as the handler is over.  A request that finds one
waiting is merged with it, as the controller keeps one bit for each line. -/
theorem timer_pulses (htext : text stub = sbTimerIrq) (hcode : m₀.code = timerInit stub frequencyHz)
    (hflag : m₀.interruptFlag = false) (hframes : m₀.frames = []) {before : List Happening}
    (hdone : (Runs.run (step text) m₀ before).code = []) (after : List Happening) :
    let m := Runs.run (step text) m₀ before
    let m' := Runs.run (step text) m after
    let notes := outputs (step text) m after
    notes.count (some .pulse) + m.pics.pending.toNat =
        notes.count (some (.vector 32)) + m'.pics.pending.toNat ∧
      (m'.pics.pending = true →
        some (.vector 32) ∈ outputs (step text) m' (List.replicate 5 .instr ++ [.interrupt])) := by
  obtain ⟨hready, -⟩ := ready_of_done htext hcode hflag hframes hdone
  obtain ⟨place, hready', haccounts⟩ := hready.run htext after
  exact ⟨haccounts.pulses, hready'.responds htext⟩

/-- Controllers that wait for anything, and the first instruction of `timer_init` to come. -/
def beforeTimer : Machine :=
  ⟨⟨⟨⟨.icw3, true, true, true, 8, 0⟩, 0xFF, 0xFF⟩,
    ⟨⟨.ready, true, true, true, 0x70, 0⟩, 0xFF, 0xFF⟩⟩,
    ⟨0, 0, none, 0⟩, zeroIdt, bootClock, false, [], timerInit 0x1000 100⟩

/-- All of `timer_init`, with a request of the keyboard in between. -/
def throughTimerInit : List Happening :=
  List.replicate 16 .instr ++ .raise 1 :: List.replicate 7 .instr

/-- The stub is the only code that is ever entered. -/
def stubText : U64 → List Op := fun _ => sbTimerIrq

/-- The keyboard and the disk ask in vain, the timer does not. -/
theorem keyboard_masked :
    let es := throughTimerInit ++ [.raise 1, .raise 14, .interrupt, .raise 0, .interrupt]
    ∀ v, some (.vector v) ∈ outputs (step stubText) beforeTimer es → v = 32 := by
  have htext : stubText 0x1000 = sbTimerIrq := rfl
  have hcode : beforeTimer.code = timerInit 0x1000 100 := rfl
  exact (timer_interrupts htext hcode rfl rfl _).1

/-- Three pulses: the second finds the handler at work and waits, the third finds the second. -/
theorem second_pulse_waits :
    let m := Runs.run (step stubText) beforeTimer throughTimerInit
    let m' := Runs.run (step stubText) m [.raise 0, .interrupt, .instr, .raise 0, .raise 0]
    m'.pics.pending = true ∧
      some (.vector 32) ∈ outputs (step stubText) m' (List.replicate 5 .instr ++ [.interrupt]) := by
  have htext : stubText 0x1000 = sbTimerIrq := rfl
  have hcode : beforeTimer.code = timerInit 0x1000 100 := rfl
  have hdone : (Runs.run (step stubText) beforeTimer throughTimerInit).code = [] := rfl
  have hpulses :=
    timer_pulses htext hcode rfl rfl hdone [.raise 0, .interrupt, .instr, .raise 0, .raise 0]
  exact ⟨rfl, hpulses.2 rfl⟩

/-- The divisor is the quotient of the two frequencies, kept between 1 and 65535. -/
theorem toNat_timerDivisor {frequencyHz : U32} (hasked : frequencyHz ≠ 0) :
    (timerDivisor frequencyHz).toNat = min 0xFFFF (max 1 (1193182 / frequencyHz.toNat)) := by
  have hdiv : (pitBaseHz / frequencyHz).toNat = 1193182 / frequencyHz.toNat := BitVec.toNat_udiv
  rw [timerDivisor, ← hdiv]
  simp only [if_neg hasked]
  generalize pitBaseHz / frequencyHz = q
  split_ifs with hzero hlarge hlarge
  · exact absurd hlarge (by decide)
  · subst hzero
    rfl
  · bv_omega
  · bv_omega

/-- Up to half of the input's frequency the divisors are such that mode 3 has them. -/
theorem timerDivisor_bounds (frequencyHz : U32) :
    (frequencyHz.toNat ≤ 596591 → 2 ≤ (timerDivisor frequencyHz).toNat ∧
      (timerDivisor frequencyHz).toNat < 2 ^ 16 ∧
      (19 ≤ frequencyHz.toNat →
        (timerDivisor frequencyHz).toNat = 1193182 / frequencyHz.toNat)) ∧
    (596591 < frequencyHz.toNat → timerDivisor frequencyHz = 1) := by
  by_cases hdefault : frequencyHz = 0
  · subst hdefault
    exact ⟨fun _ => ⟨by decide, by decide, fun h => absurd h (by decide)⟩,
      fun h => absurd h (by decide)⟩
  have hpos : 0 < frequencyHz.toNat := by bv_omega
  rw [toNat_timerDivisor hdefault]
  refine ⟨fun hlow => ?_, fun hhigh => BitVec.eq_of_toNat_eq ?_⟩
  · have htwo : 2 ≤ 1193182 / frequencyHz.toNat := (Nat.le_div_iff_mul_le hpos).2 (by omega)
    refine ⟨by omega, by omega, fun hnineteen => ?_⟩
    have hle : 1193182 / frequencyHz.toNat ≤ 1193182 / 19 :=
      Nat.div_le_div_left hnineteen (by decide)
    omega
  · have hone : 1193182 / frequencyHz.toNat < 2 := (Nat.div_lt_iff_lt_mul hpos).2 (by omega)
    rw [toNat_timerDivisor hdefault, show (1 : U32).toNat = 1 from rfl]
    omega

/-- **The rate of the timer.**  When `timer_init`, called with interrupts off, is over and the
frequency asked for is at most 596591 Hz, the timer asks for an interrupt every 2 to 65535 periods
of its input; for 19 Hz and more it is the largest number for which it is not slower than asked.
For higher frequencies the divisor is 1, which the mode of the timer does not have. -/
theorem timer_rate (htext : text stub = sbTimerIrq) (hcode : m₀.code = timerInit stub frequencyHz)
    (hflag : m₀.interruptFlag = false) (hframes : m₀.frames = []) {es : List Happening}
    (hdone : (Runs.run (step text) m₀ es).code = []) :
    let channel := (Runs.run (step text) m₀ es).channel
    (frequencyHz.toNat ≤ 596591 → ∃ period, channel.period = some period ∧ 2 ≤ period ∧
      period < 2 ^ 16 ∧ (19 ≤ frequencyHz.toNat →
        period * frequencyHz.toNat ≤ 1193182 ∧ 1193182 < (period + 1) * frequencyHz.toNat)) ∧
    (596591 < frequencyHz.toNat → channel.period = none) := by
  obtain ⟨hready, -⟩ := ready_of_done htext hcode hflag hframes hdone
  obtain ⟨hmode, hreload⟩ := hready.channel
  obtain ⟨hlow, hhigh⟩ := timerDivisor_bounds frequencyHz
  have hbit : (3 : BitVec 3).getLsbD 1 = true := rfl
  dsimp only
  rw [Channel.period, hmode, hreload, hbit]
  constructor
  · intro hasked
    obtain ⟨htwo, hlt, hexact⟩ := hlow hasked
    have hcount : (reloadFor frequencyHz).toNat = (timerDivisor frequencyHz).toNat := by
      rw [reloadFor, BitVec.toNat_setWidth, Nat.mod_eq_of_lt hlt]
    have hne : reloadFor frequencyHz ≠ 0 ∧ reloadFor frequencyHz ≠ 1 := by
      constructor <;> bv_omega
    rw [if_neg (not_or.2 ⟨by decide, hne.2⟩), if_neg hne.1, hcount]
    refine ⟨_, rfl, htwo, hlt, fun hnineteen => ?_⟩
    rw [hexact hnineteen]
    refine ⟨Nat.div_mul_le_self .., ?_⟩
    rw [Nat.mul_comm]
    exact Nat.lt_mul_div_succ _ (by omega)
  · intro hasked
    have hone : reloadFor frequencyHz = 1 := by
      rw [reloadFor, hhigh hasked]
      rfl
    rw [if_pos (Or.inr hone)]

/-- At 100 Hz the timer counts to 11931. -/
theorem hundredHz_rate :
    let channel := (Runs.run (step stubText) beforeTimer throughTimerInit).channel
    channel.period = some 11931 ∧ ∃ period, channel.period = some period ∧
      period * 100 ≤ 1193182 ∧ 1193182 < (period + 1) * 100 := by
  have htext : stubText 0x1000 = sbTimerIrq := rfl
  have hcode : beforeTimer.code = timerInit 0x1000 100 := rfl
  have hdone : (Runs.run (step stubText) beforeTimer throughTimerInit).code = [] := rfl
  obtain ⟨period, hperiod, -, -, hrate⟩ := (timer_rate htext hcode rfl rfl hdone).1 (by decide)
  exact ⟨rfl, period, hperiod, hrate (by decide)⟩

end Whole

end Machine

end SuiraBox.Arch
