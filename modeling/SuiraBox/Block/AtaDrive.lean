/-
# The driver on a drive

`kernel/ata_pio.c` against a drive that keeps to the protocol.  The drive latches the registers,
takes a command when it is neither busy nor in a transfer, answers BSY for as long as it likes, and
then moves the 256 words of one sector through the data port.  How long it is busy is any number of
status reads below the driver's poll limit, and every bit that the protocol leaves open is arbitrary
(`DriveModel`).

What the driver is for is a disk: bytes that are read and written in sectors (`diskStep`).  On every
drive of at most 2^28 sectors `sb_ata_pio_init` finds the drive, and from then on every run of
`ata_read` and `ata_write` answers what the disk answers and leaves on the medium what the disk
holds (`ata_refines_disk`).
-/

import SuiraBox.Library.Devices
import SuiraBox.Library.Runs
import SuiraBox.Block.AtaPio

namespace SuiraBox.Block

open PortIo ByteMem Mm Runs

/-! ### The drive -/

/-- What a drive is in the middle of. -/
inductive Phase
  | idle
  /-- words that the host has yet to read -/
  | sending (words : List U16)
  /-- words that have come for a sector -/
  | receiving (address : ℕ) (words : List U16)
  /-- the last command could not be carried out -/
  | failed

structure Drive where
  file : TaskFile
  count : U8
  phase : Phase
  /-- the number of status reads that are still answered with BSY -/
  busy : ℕ
  medium : Mem
  clock : ℕ

/-- What the protocol leaves to the drive: its size and what else it says about itself, how long it
is busy at a time, and the bits that mean nothing. -/
structure DriveModel where
  size : U32
  identify : ℕ → U16
  delay : ℕ → ℕ
  noise : ℕ → U16
  prompt : ∀ t, delay t < ataPollLimit

namespace DriveModel

variable (D : DriveModel)

/-- The words that IDENTIFY returns, with the number of sectors in words 60 and 61. -/
def identifyWords : List U16 := (List.range 256).map fun k =>
  if k = 60 then D.size.setWidth 16 else if k = 61 then (D.size >>> 16).setWidth 16
    else D.identify k

/-- A command for one sector, with the LBA bit set and the first drive selected. -/
def Proper (d : Drive) : Prop :=
  d.count = 1 ∧ d.file.drive &&& 0x50 = 0x40 ∧ d.file.address < D.size.toNat

instance (d : Drive) : Decidable (D.Proper d) := inferInstanceAs (Decidable (_ ∧ _))

/-- What a command starts. -/
def start (d : Drive) (command : U8) : Phase :=
  if command = 0x20 ∧ D.Proper d then .sending (wordsAt d.medium (512 * d.file.address) 256)
  else if command = 0x30 ∧ D.Proper d then .receiving d.file.address []
  else if command = 0xEC then .sending D.identifyWords
  else .failed

/-- A drive that is busy or in a transfer does not listen to its registers. -/
def listens (d : Drive) : Bool :=
  match d.phase with
  | .idle | .failed => d.busy == 0
  | _ => false

/-- A byte written to a port. -/
def write (d : Drive) (port : U16) (value : U8) : Drive :=
  if listens d then
    if port = ataRegCommand then { d with phase := D.start d value, busy := D.delay d.clock }
    else if port = ataRegSecCount0 then { d with count := value }
    else { d with file := d.file.latch port value }
  else d

/-- A word taken from the data port. -/
def send (d : Drive) : Drive :=
  match d.phase with
  | .sending (_ :: w :: words) => { d with phase := .sending (w :: words) }
  | .sending [_] => { d with phase := .idle }
  | _ => d

/-- A word put on the data port; the last one of a sector sends it to the medium. -/
def receive (d : Drive) (word : U16) : Drive :=
  match d.phase with
  | .receiving address words =>
    if words.length + 1 = 256 then
      { d with
        phase := .idle
        busy := D.delay d.clock
        medium := storeWords d.medium (512 * address) (words ++ [word]) }
    else { d with phase := .receiving address (words ++ [word]) }
  | _ => d

def react (d : Drive) (e : Event) : Drive :=
  let d := { d with clock := d.clock + 1 }
  match e with
  | .out8 port value => D.write d port value
  | .in8 port _ => if port = ataRegCommand then { d with busy := d.busy - 1 } else d
  | .in16 port _ => if port = ataRegData ∧ d.busy = 0 then send d else d
  | .out16 port word => if port = ataRegData ∧ d.busy = 0 then D.receive d word else d

/-- The status register: while the drive is busy BSY is the only bit with a meaning. -/
def status (d : Drive) : U8 :=
  let noise : U8 := (D.noise d.clock).setWidth 8
  if d.busy ≠ 0 then noise ||| ataStatusBsy
  else
    let noise := noise &&& ~~~(ataStatusBsy ||| ataStatusDrq ||| ataStatusErr ||| ataStatusDf)
    match d.phase with
    | .idle => noise
    | .sending _ | .receiving _ _ => noise ||| ataStatusDrq
    | .failed => noise ||| ataStatusErr

def data (d : Drive) : U16 :=
  match d.phase with
  | .sending (w :: _) => if d.busy = 0 then w else D.noise d.clock
  | _ => D.noise d.clock

/-- The drive on the bus. -/
def device : Device Drive where
  react := D.react
  in8 d port := if port = ataRegCommand then D.status d else (D.noise d.clock).setWidth 8
  in16 d port := if port = ataRegData then D.data d else D.noise d.clock

end DriveModel

/-- In this phase, with so many busy reads to come and this medium. -/
structure InPhase (phase : Phase) (busy : ℕ) (medium : Mem) (d : Drive) : Prop where
  phase_eq : d.phase = phase
  busy_eq : d.busy = busy
  medium_eq : d.medium = medium

/-- Nothing going on. -/
abbrev Rests (medium : Mem) (d : Drive) : Prop := InPhase .idle 0 medium d

/-! ### The disk -/

/-- A call of the driver. -/
inductive DiskCall
  | read (lba : U64) (count : U32) (buffer : Mem)
  | write (lba : U64) (count : U32) (buffer : Mem)

/-- What the driver is for: the status, the buffer after a read, and the bytes of the disk. -/
def diskStep (device : BlockDevice) (disk : Mem) : DiskCall → (BlockStatus × Option Mem) × Mem
  | .read lba count buffer =>
    if ataRejects device lba count then ((.invalidArgument, some buffer), disk)
    else ((.ok, some (copy buffer 0 disk (512 * lba.toNat) (512 * count.toNat))), disk)
  | .write lba count buffer =>
    if ataRejects device lba count then ((.invalidArgument, none), disk)
    else ((.ok, none), copy disk (512 * lba.toNat) buffer 0 (512 * count.toNat))

/-- What the driver does. -/
def ataStep (bus : Bus) (device : BlockDevice) (h : List Event) :
    DiskCall → (BlockStatus × Option Mem) × List Event
  | .read lba count buffer =>
    let r := ataRead bus device lba count buffer h
    ((r.1.1, some r.1.2), r.2)
  | .write lba count buffer =>
    let r := ataWrite bus device lba count buffer h
    ((r.1.1, none), r.2)

/-! ### Words and bytes -/

variable {address k : ℕ}

theorem length_wordsAt (m : Mem) (a n : ℕ) : (wordsAt m a n).length = n := by
  induction n generalizing a with
  | zero => rfl
  | succ n ih => rw [wordsAt, List.length_cons, ih]

/-- A word stored is its two bytes stored. -/
theorem writeLE_read16 (dst src : Mem) (a b : ℕ) :
    writeLE dst a 2 (read16 src b).toNat = copy dst a src b 2 := by
  have hlt := readLE_lt src b 2
  have hread : (read16 src b).toNat = (src b).toNat + 256 * (src (b + 1)).toNat := by
    rw [read16, BitVec.toNat_ofNat, Nat.mod_eq_of_lt (show _ < 2 ^ 16 from hlt), readLE,
      readLE, readLE, Nat.mul_zero, Nat.add_zero]
  funext x
  rw [writeLE, copy, hread]
  split_ifs with hx
  · have hlow := (src b).isLt
    have hhigh := (src (b + 1)).isLt
    rcases (by omega : x = a ∨ x = a + 1) with rfl | rfl
    · refine BitVec.eq_of_toNat_eq ?_
      rw [Nat.sub_self, pow_zero, Nat.div_one, BitVec.toNat_ofNat, Nat.add_zero b]
      omega
    · refine BitVec.eq_of_toNat_eq ?_
      rw [Nat.add_sub_cancel_left, pow_one, BitVec.toNat_ofNat]
      omega
  · rfl

/-- Words moved from one memory to another carry the bytes along. -/
theorem storeWords_wordsAt (dst src : Mem) (a b n : ℕ) :
    storeWords dst a (wordsAt src b n) = copy dst a src b (2 * n) := by
  induction n generalizing dst a b with
  | zero => exact (copy_zero ..).symm
  | succ n ih =>
    rw [wordsAt, storeWords, ih, writeLE_read16, copy_copy, Nat.mul_succ, Nat.add_comm 2]

/-! ### One command -/

section Command

variable {D : DriveModel} {d₀ : Drive} {disk : Mem} {phase : Phase} {k : ℕ}

theorem after_append (h es : List Event) :
    D.device.after d₀ (h ++ es) = es.foldl D.react (D.device.after d₀ h) := List.foldl_append

/-- The events of `ataCommand` before the command itself. -/
def addressEvents (current : U32) : List Event :=
  [.out8 ataRegDrive (TaskFile.ofLba current).drive, .out8 0x80 0, .out8 0x80 0, .out8 0x80 0,
    .out8 0x80 0, .out8 ataRegSecCount0 1, .out8 ataRegLba0 (TaskFile.ofLba current).lba0,
    .out8 ataRegLba1 (TaskFile.ofLba current).lba1, .out8 ataRegLba2 (TaskFile.ofLba current).lba2]

theorem ataCommand_events (current : U32) (command : U8) (h : List Event) :
    (ataCommand current command h).2 =
      h ++ (addressEvents current ++ [.out8 ataRegCommand command]) := by
  simp only [ataCommand, ataSelect, ioWait, outb, bind_apply, List.append_assoc]
  rfl

/-- A resting drive latches what is written to its registers. -/
theorem react_latch (file : TaskFile) (count : U8) (clock : ℕ) (port : U16)
    (hcommand : port ≠ ataRegCommand) (hcount : port ≠ ataRegSecCount0) (value : U8) :
    D.react ⟨file, count, .idle, 0, disk, clock⟩ (.out8 port value) =
      ⟨file.latch port value, count, .idle, 0, disk, clock + 1⟩ := by
  change D.write ⟨file, count, .idle, 0, disk, clock + 1⟩ port value = _
  rw [DriveModel.write, if_pos (by rfl), if_neg hcommand, if_neg hcount]

theorem react_count (file : TaskFile) (count : U8) (clock : ℕ) (value : U8) :
    D.react ⟨file, count, .idle, 0, disk, clock⟩ (.out8 ataRegSecCount0 value) =
      ⟨file, value, .idle, 0, disk, clock + 1⟩ := by
  change D.write ⟨file, count, .idle, 0, disk, clock + 1⟩ ataRegSecCount0 value = _
  rw [DriveModel.write, if_pos (by rfl), if_neg (by decide), if_pos rfl]

theorem react_command (file : TaskFile) (count : U8) (clock : ℕ) (command : U8) :
    D.react ⟨file, count, .idle, 0, disk, clock⟩ (.out8 ataRegCommand command) =
      ⟨file, count, D.start ⟨file, count, .idle, 0, disk, clock + 1⟩ command,
        D.delay (clock + 1), disk, clock + 1⟩ := by
  change D.write ⟨file, count, .idle, 0, disk, clock + 1⟩ ataRegCommand command = _
  rw [DriveModel.write, if_pos (by rfl), if_pos rfl]

/-- A resting drive takes the address of the sector in. -/
theorem foldl_addressEvents (current : U32) (file : TaskFile) (count : U8) (clock : ℕ) :
    (addressEvents current).foldl D.react ⟨file, count, .idle, 0, disk, clock⟩ =
      ⟨TaskFile.ofLba current, 1, .idle, 0, disk, clock + 9⟩ := by
  simp only [addressEvents, List.foldl_cons, List.foldl_nil, react_count,
    react_latch _ _ _ ataRegDrive (by decide) (by decide), react_latch _ _ _ 0x80 (by decide)
    (by decide), react_latch _ _ _ ataRegLba0 (by decide) (by decide),
    react_latch _ _ _ ataRegLba1 (by decide) (by decide),
    react_latch _ _ _ ataRegLba2 (by decide) (by decide)]
  rfl

/-- The drive register always selects the first drive in LBA mode. -/
theorem drive_ofLba (current : U32) : (TaskFile.ofLba current).drive &&& 0x50 = 0x40 := by
  have hlow : ∀ x : U32, x &&& 0x0F = (x.setWidth 4).setWidth 32 := fun x => by
    refine BitVec.eq_of_toNat_eq ?_
    have h15 : x.toNat &&& 15 = x.toNat % 2 ^ 4 := Nat.and_two_pow_sub_one_eq_mod x.toNat 4
    rw [BitVec.toNat_and, BitVec.toNat_setWidth, BitVec.toNat_setWidth]
    change x.toNat &&& 15 = _
    omega
  have hall : ∀ y : BitVec 4, ((0xE0 : U32) ||| y.setWidth 32).setWidth 8 &&& 0x50 =
      (0x40 : U8) := by decide
  rw [TaskFile.ofLba, hlow]
  exact hall _

/-- After `ataCommand` the drive is busy with what the command has started. -/
theorem triple_ataCommand {current : U32} {command : U8}
    (haddress : current.toNat % 2 ^ 28 = address) (hlt : address < D.size.toNat) {started : Phase}
    (hstart : ∀ d : Drive, d.medium = disk → d.file.address = address → D.Proper d →
      D.start d command = started) :
    D.device.Triple d₀ (Rests disk) (ataCommand current command)
      fun _ d => ∃ k < ataPollLimit, InPhase started k disk d := by
  intro h hrest
  rw [ataCommand_events, after_append, List.foldl_append]
  generalize D.device.after d₀ h = d at hrest ⊢
  obtain ⟨file, count, phase, busy, medium, clock⟩ := d
  obtain ⟨rfl, rfl, rfl⟩ := hrest
  rw [foldl_addressEvents, List.foldl_cons, List.foldl_nil, react_command]
  have hfile : (TaskFile.ofLba current).address = address := (address_ofLba current).trans haddress
  refine ⟨_, D.prompt (clock + 10), ?_, rfl, rfl⟩
  exact hstart ⟨TaskFile.ofLba current, 1, .idle, 0, medium, clock + 10⟩ rfl hfile
    ⟨rfl, drive_ofLba current, hfile ▸ hlt⟩

/-! ### Waiting for the drive -/

theorem status_busy {d : Drive} (h : d.busy ≠ 0) : D.status d &&& ataStatusBsy ≠ 0 := by
  have hall : ∀ x : U8, (x ||| ataStatusBsy) &&& ataStatusBsy ≠ 0 := by decide
  rw [DriveModel.status, if_pos h]
  exact hall _

/-- The phases in which a drive is not busy and has not failed. -/
def Phase.well : Phase → Prop
  | .failed => False
  | _ => True

/-- The phases in which data move. -/
def Phase.moves : Phase → Prop
  | .sending _ | .receiving _ _ => True
  | _ => False

theorem Phase.moves.well (h : phase.moves) : phase.well := by
  cases phase with
  | idle => trivial
  | sending words => trivial
  | receiving address words => trivial
  | failed => exact h

/-- A drive that is ready and has not failed shows neither BSY nor an error. -/
theorem status_well {d : Drive} (hbusy : d.busy = 0) (hphase : d.phase.well) :
    ataFailed (D.status d) = false ∧ D.status d &&& ataStatusBsy = 0 := by
  rw [DriveModel.status, if_neg (by rw [hbusy]; decide)]
  generalize (D.noise d.clock).setWidth 8 = noise
  revert noise
  cases hp : d.phase with
  | idle => decide
  | sending words =>
    dsimp only
    decide
  | receiving address words =>
    dsimp only
    decide
  | failed => exact (hp ▸ hphase : Phase.failed.well).elim

/-- A drive that moves data shows DRQ and no error. -/
theorem status_moves {d : Drive} (hbusy : d.busy = 0) (hphase : d.phase.moves) :
    D.status d &&& (ataStatusErr ||| ataStatusDf) = 0 ∧ D.status d &&& ataStatusDrq ≠ 0 := by
  rw [DriveModel.status, if_neg (by rw [hbusy]; decide)]
  generalize (D.noise d.clock).setWidth 8 = noise
  revert noise
  cases hp : d.phase with
  | idle => exact (hp ▸ hphase : Phase.idle.moves).elim
  | sending words =>
    dsimp only
    decide
  | receiving address words =>
    dsimp only
    decide
  | failed => exact (hp ▸ hphase : Phase.failed.moves).elim

theorem react_in8 (d : Drive) (port : U16) (value : U8) : D.device.react d (.in8 port value) =
    if port = ataRegCommand then { d with busy := d.busy - 1, clock := d.clock + 1 }
    else { d with clock := d.clock + 1 } := rfl

theorem react_in16 (d : Drive) (port value : U16) : D.device.react d (.in16 port value) =
    if port = ataRegData ∧ d.busy = 0 then DriveModel.send { d with clock := d.clock + 1 }
    else { d with clock := d.clock + 1 } := rfl

theorem react_out16 (d : Drive) (port word : U16) : D.device.react d (.out16 port word) =
    if port = ataRegData ∧ d.busy = 0 then D.receive { d with clock := d.clock + 1 } word
    else { d with clock := d.clock + 1 } := rfl

/-- Reading the status takes one busy read off, and changes nothing else. -/
theorem InPhase.read_status {d : Drive} (h : InPhase phase k disk d) (value : U8) :
    InPhase phase (k - 1) disk (D.device.react d (.in8 ataRegCommand value)) := by
  obtain ⟨rfl, rfl, rfl⟩ := h
  rw [react_in8, if_pos rfl]
  exact ⟨rfl, rfl, rfl⟩

theorem in8_status (d : Drive) : D.device.in8 d ataRegCommand = D.status d := by
  simp [DriveModel.device]

/-- `ata_wait_not_busy` ends with the drive ready, if that is soon enough. -/
theorem triple_waitNotBusy (hphase : phase.well) (hk : k < ataPollLimit) :
    D.device.Triple d₀ (InPhase phase k disk) (ataWaitNotBusy (D.device.bus d₀))
      fun status d => ataFailed status = false ∧ InPhase phase 0 disk d := by
  refine (Device.triple_poll (P := fun k => InPhase phase k disk)
    (Q := fun status d => ataFailed status = false ∧ InPhase phase 0 disk d) ?_ ?_ hk 0).bind
    fun r => ?_
  · intro k d hd
    rw [in8_status]
    exact ⟨decide_eq_false (status_busy (by rw [hd.busy_eq]; exact Nat.succ_ne_zero k)),
      hd.read_status _⟩
  · intro d hd
    obtain ⟨hfailed, hbusy⟩ := status_well (D := D) hd.busy_eq (hd.phase_eq ▸ hphase)
    rw [in8_status]
    exact ⟨decide_eq_true hbusy, hfailed, hd.read_status _⟩
  · refine Device.Triple.of_forall fun hr => ?_
    rw [if_pos hr]
    exact Device.Triple.pure fun _ h => h

/-- `ata_wait_drq` ends at once when there is data to move. -/
theorem triple_waitDrq (hphase : phase.moves) :
    D.device.Triple d₀ (InPhase phase 0 disk) (ataWaitDrq (D.device.bus d₀))
      fun status d => (status &&& (ataStatusErr ||| ataStatusDf) = 0 ∧
        status &&& ataStatusDrq ≠ 0) ∧ InPhase phase 0 disk d := by
  refine (Device.triple_poll (P := fun k d => k = 0 ∧ InPhase phase 0 disk d)
    (Q := fun status d => (status &&& (ataStatusErr ||| ataStatusDf) = 0 ∧
      status &&& ataStatusDrq ≠ 0) ∧ InPhase phase 0 disk d) ?_ ?_ (k := 0) (Nat.succ_pos _) 0).imp
    (fun _ h => ⟨rfl, h⟩) (fun _ _ h => h) |>.bind fun r => ?_
  · exact fun k d h => absurd h.1 (Nat.succ_ne_zero k)
  · rintro d ⟨-, hd⟩
    have hstatus := status_moves (D := D) hd.busy_eq (hd.phase_eq ▸ hphase)
    rw [in8_status]
    exact ⟨decide_eq_true (Or.inr hstatus.2), hstatus, hd.read_status _⟩
  · exact Device.Triple.pure fun _ h => h.2

theorem triple_awaitData (hphase : phase.moves) :
    D.device.Triple d₀ (fun d => ∃ k < ataPollLimit, InPhase phase k disk d)
      (ataAwaitData (D.device.bus d₀)) fun ready d => ready = true ∧ InPhase phase 0 disk d := by
  rintro h ⟨k, hk, hd⟩
  have hwait : D.device.Triple d₀ (InPhase phase k disk) (ataAwaitData (D.device.bus d₀))
      fun ready d => ready = true ∧ InPhase phase 0 disk d := by
    refine (triple_waitNotBusy hphase.well hk).bind fun status => Device.Triple.of_forall
      fun hwell => ?_
    rw [if_neg (by rw [hwell]; decide)]
    refine (triple_waitDrq hphase).bind fun status => Device.Triple.of_forall fun hstatus => ?_
    exact Device.Triple.pure fun _ h => ⟨decide_eq_true hstatus, h⟩
  exact hwait h hd

/-! ### Moving a sector -/

/-- A drive that sends hands over its words and then rests. -/
def Sends (disk : Mem) (words : List U16) (d : Drive) : Prop :=
  match words with
  | [] => Rests disk d
  | w :: ws => InPhase (.sending (w :: ws)) 0 disk d

/-- The words that the drive sends are those that are read. -/
theorem triple_data_in (words : List U16) :
    D.device.Triple d₀ (Sends disk words) (inwMany (D.device.bus d₀) ataRegData words.length)
      fun r d => r = words ∧ Rests disk d := by
  refine Device.triple_inwMany (P := Sends disk) (fun w ws d hd => ?_) words
  obtain ⟨file, count, phase, busy, medium, clock⟩ := d
  obtain ⟨rfl, rfl, rfl⟩ := hd
  rw [react_in16, if_pos ⟨rfl, rfl⟩]
  refine ⟨by simp [DriveModel.device, DriveModel.data], ?_⟩
  cases ws with
  | nil => exact ⟨rfl, rfl, rfl⟩
  | cons w' ws => exact ⟨rfl, rfl, rfl⟩

/-- A drive that receives has the words so far, and has put them on the medium when the sector is
complete. -/
def Receives (disk : Mem) (address : ℕ) (words : List U16) (d : Drive) : Prop :=
  if words.length = 256 then
    ∃ k < ataPollLimit, InPhase .idle k (storeWords disk (512 * address) words) d
  else InPhase (.receiving address words) 0 disk d

/-- The last of 256 words starts the write to the medium. -/
theorem react_word (file : TaskFile) (count : U8) (address : ℕ) (words : List U16) (clock : ℕ)
    (word : U16) :
    D.device.react ⟨file, count, .receiving address words, 0, disk,
      clock⟩ (.out16 ataRegData word) = if words.length + 1 = 256 then
        ⟨file, count, .idle, D.delay (clock + 1), storeWords disk (512 * address) (words ++ [word]),
          clock + 1⟩
      else ⟨file, count, .receiving address (words ++ [word]), 0, disk, clock + 1⟩ := by
  rw [react_out16, if_pos ⟨rfl, rfl⟩, DriveModel.receive]

/-- 256 words are written to the sector. -/
theorem triple_data_out {words : List U16} (hlen : words.length = 256) :
    D.device.Triple d₀ (InPhase (.receiving address []) 0 disk) (outwMany ataRegData words)
      fun _ d => ∃ k < ataPollLimit, InPhase .idle k (storeWords disk (512 * address) words) d := by
  have hrun : D.device.Triple d₀ (Receives disk address []) (outwMany ataRegData words)
      fun _ d => Receives disk address words d := by
    refine Device.triple_outwMany fun done w ws d hall hd => ?_
    have hdone : done.length + 1 ≤ 256 := by
      rw [← hlen, ← hall, List.length_append, List.length_cons]
      omega
    rw [Receives, if_neg (by omega)] at hd
    obtain ⟨file, count, phase, busy, medium, clock⟩ := d
    obtain ⟨rfl, rfl, rfl⟩ := hd
    rw [Receives, List.length_append, List.length_singleton, react_word]
    by_cases hfull : done.length + 1 = 256
    · rw [if_pos hfull, if_pos hfull]
      exact ⟨_, D.prompt (clock + 1), rfl, rfl, rfl⟩
    · rw [if_neg hfull, if_neg hfull]
      exact ⟨rfl, rfl, rfl⟩
  refine hrun.imp (fun d hd => ?_) fun _ d hd => ?_
  · rw [Receives, if_neg (by decide)]
    exact hd
  · rwa [Receives, if_pos hlen] at hd

end Command

/-! ### The loops -/

section Sectors

variable {D : DriveModel} {d₀ : Drive} {disk : Mem} {device : BlockDevice} {lba : U64}

/-- The loop over the sectors goes through when every round does. -/
theorem triple_eachSector {τ : Type} {body : U32 → τ → Io (Option τ)} {P : ℕ → τ → Drive → Prop}
    {n : ℕ} (hbody : ∀ k < n, ∀ s, D.device.Triple d₀ (P k s) (body (BitVec.ofNat 32 k) s)
      fun r d => ∃ s', r = some s' ∧ P (k + 1) s' d) (s : τ) :
    D.device.Triple d₀ (P 0 s) (eachSector body n 0 s) fun r d => r.1 = .ok ∧ P n r.2 d := by
  -- induction on the rounds to come, `k` of them being done
  suffices h : ∀ m k s, k + m = n → D.device.Triple d₀ (P k s)
      (eachSector body m (BitVec.ofNat 32 k) s)
      fun r d => r.1 = .ok ∧ P n r.2 d from h n 0 s (Nat.zero_add n)
  intro m
  induction m with
  | zero =>
    rintro k s rfl
    exact Device.Triple.pure fun d hd => ⟨rfl, hd⟩
  | succ m ih =>
    intro k s hkm
    refine (hbody k (by omega) s).bind fun r h hr => ?_
    obtain ⟨s', rfl, hnext⟩ := hr
    have hsector : BitVec.ofNat 32 k + 1 = BitVec.ofNat 32 (k + 1) := (BitVec.ofNat_add ..).symm
    change _ ∧ _
    rw [hsector]
    exact ih (k + 1) s' (by omega) h hnext

/-- The number of the sector that round `k` works on. -/
theorem current_eq (hfits : lba.toNat + k < 2 ^ 28) :
    ((lba + (BitVec.ofNat 32 k).setWidth 64).setWidth 32 : U32).toNat % 2 ^ 28 = lba.toNat + k := by
  rw [BitVec.toNat_setWidth, BitVec.toNat_add, BitVec.toNat_setWidth, BitVec.toNat_ofNat]
  omega

/-- The place of sector `k` in the buffer. -/
theorem place_eq (hsize : device.sectorSize = 512) (hk : k < 256) :
    (BitVec.ofNat 32 k * device.sectorSize).toNat = 512 * k ∧
    (device.sectorSize / 2).toNat = 256 := by
  rw [hsize]
  refine ⟨?_, rfl⟩
  rw [BitVec.toNat_mul, BitVec.toNat_ofNat]
  change k % 2 ^ 32 * 512 % 2 ^ 32 = 512 * k
  omega

/-- The read command sends the sector. -/
theorem start_read (d : Drive) (hmedium : d.medium = disk)
    (haddress : d.file.address = address) (hproper : D.Proper d) :
    D.start d 0x20 = .sending (wordsAt disk (512 * address) 256) := by
  rw [DriveModel.start, if_pos ⟨rfl, hproper⟩, hmedium, haddress]

/-- The write command waits for the sector. -/
theorem start_write (d : Drive) (_ : d.medium = disk)
    (haddress : d.file.address = address) (hproper : D.Proper d) :
    D.start d 0x30 = .receiving address [] := by
  rw [DriveModel.start, if_neg fun h => absurd h.1 (by decide), if_pos ⟨rfl, hproper⟩, haddress]

/-- One round of `ata_read`. -/
theorem triple_readSector (hsize : device.sectorSize = 512) (hsmall : D.size.toNat ≤ 2 ^ 28)
    (hk : k < 256) (hlba : lba.toNat + k < D.size.toNat) (dst : Mem) :
    D.device.Triple d₀ (Rests disk)
      (readSector (D.device.bus d₀) device lba (BitVec.ofNat 32 k) dst)
      fun r d => r = some (copy dst (512 * k) disk (512 * (lba.toNat + k)) 512) ∧ Rests disk d := by
  obtain ⟨hplace, hwords⟩ := place_eq hsize hk
  refine (triple_ataCommand (current_eq (by omega)) hlba start_read).bind fun _ => ?_
  refine (triple_awaitData (show Phase.moves (.sending _) from trivial)).bind fun ready =>
    Device.Triple.of_forall fun hr => ?_
  rw [if_pos hr, hwords]
  have hlen := length_wordsAt disk (512 * (lba.toNat + k)) 256
  have hin : D.device.Triple d₀ (Sends disk _) _ _ :=
    triple_data_in (wordsAt disk (512 * (lba.toNat + k)) 256)
  rw [hlen] at hin
  refine (hin.imp (fun d hd => hd) fun _ _ h => h).bind fun words => Device.Triple.of_forall
    fun hw => ?_
  refine Device.Triple.pure fun d hd => ⟨?_, hd⟩
  rw [hw, hplace, storeWords_wordsAt]

/-- One round of `ata_write`. -/
theorem triple_writeSector (hsize : device.sectorSize = 512) (hsmall : D.size.toNat ≤ 2 ^ 28)
    (hk : k < 256) (hlba : lba.toNat + k < D.size.toNat) (src : Mem) :
    D.device.Triple d₀ (Rests disk)
      (writeSector (D.device.bus d₀) device lba src (BitVec.ofNat 32 k) ())
      fun r d => r = some () ∧ Rests (copy disk (512 * (lba.toNat + k)) src (512 * k) 512) d := by
  obtain ⟨hplace, hwords⟩ := place_eq hsize hk
  refine (triple_ataCommand (current_eq (by omega)) hlba start_write).bind fun _ => ?_
  refine (triple_awaitData (show Phase.moves (.receiving _ _) from trivial)).bind fun ready =>
    Device.Triple.of_forall fun hr => ?_
  rw [if_pos hr, hplace, hwords]
  refine (triple_data_out (length_wordsAt ..)).bind fun _ h hd => ?_
  obtain ⟨j, hj, hd⟩ := hd
  rw [storeWords_wordsAt] at hd
  refine ((triple_waitNotBusy (show Phase.well .idle from trivial) hj).bind
    (R := fun r d => r = some () ∧ Rests (copy disk (512 * (lba.toNat + k)) src (512 * k) 512) d)
    fun status => Device.Triple.of_forall fun hwell => ?_) h hd
  rw [if_neg (by rw [hwell]; decide)]
  exact Device.Triple.pure fun d hd => ⟨rfl, hd⟩

/-- **`ata_read` reads the disk.** -/
theorem triple_ataRead (hsize : device.sectorSize = 512)
    (hcount : device.sectorCount.toNat = D.size.toNat)
    (hsmall : D.size.toNat ≤ 2 ^ 28) {count : U32} (hcall : ¬ ataRejects device lba count)
    (buffer : Mem) :
    D.device.Triple d₀ (Rests disk) (ataRead (D.device.bus d₀) device lba count buffer)
      fun r d => r = (.ok, copy buffer 0 disk (512 * lba.toNat) (512 * count.toNat)) ∧
      Rests disk d := by
  obtain ⟨hpos, hmax, hfits⟩ := not_ataRejects_iff.1 hcall
  rw [ataRead, if_neg hcall]
  refine (triple_eachSector
    (P := fun k dst d => dst = copy buffer 0 disk (512 * lba.toNat) (512 * k) ∧ Rests disk d)
    (fun k hk dst => Device.Triple.of_forall fun hdst => ?_) buffer).imp ?_ ?_
  · refine (triple_readSector hsize hsmall (by omega) (by omega) dst).imp (fun _ h => h) ?_
    rintro r d ⟨rfl, hd⟩
    refine ⟨_, rfl, ?_, hd⟩
    rw [hdst, Nat.mul_add, Nat.mul_succ, ← copy_copy, Nat.zero_add]
  · exact fun d hd => ⟨(copy_zero ..).symm, hd⟩
  · rintro ⟨status, dst⟩ d ⟨hstatus, hdst, hd⟩
    exact ⟨Prod.ext hstatus hdst, hd⟩

/-- **`ata_write` writes the disk.** -/
theorem triple_ataWrite (hsize : device.sectorSize = 512)
    (hcount : device.sectorCount.toNat = D.size.toNat)
    (hsmall : D.size.toNat ≤ 2 ^ 28) {count : U32} (hcall : ¬ ataRejects device lba count)
    (buffer : Mem) :
    D.device.Triple d₀ (Rests disk) (ataWrite (D.device.bus d₀) device lba count buffer)
      fun r d => r.1 = .ok ∧ Rests (copy disk (512 * lba.toNat) buffer 0
        (512 * count.toNat)) d := by
  obtain ⟨hpos, hmax, hfits⟩ := not_ataRejects_iff.1 hcall
  rw [ataWrite, if_neg hcall]
  refine (triple_eachSector (P := fun k _ => Rests (copy disk (512 * lba.toNat) buffer 0 (512 * k)))
    (fun k hk _ => ?_) ()).imp (fun d hd => ?_) fun _ _ h => h
  · refine (triple_writeSector hsize hsmall (by omega) (by omega) buffer).imp (fun _ h => h) ?_
    rintro r d ⟨rfl, hd⟩
    refine ⟨(), rfl, ?_⟩
    have hjoin := copy_copy disk (512 * lba.toNat) buffer 0 (512 * k) 512
    rw [Nat.zero_add] at hjoin
    rwa [Nat.mul_add, hjoin, ← Nat.mul_succ] at hd
  · rwa [Nat.mul_zero, copy_zero]

end Sectors

/-! ### Finding the drive -/

section Init

variable {D : DriveModel} {d₀ : Drive} {disk : Mem}

/-- The events of `ataIdentify` before the command. -/
def identifyEvents : List Event :=
  [.out8 ataPrimaryCtrl 0, .out8 0x80 0, .out8 0x80 0, .out8 0x80 0, .out8 0x80 0,
    .out8 ataRegDrive 0xA0, .out8 0x80 0, .out8 0x80 0, .out8 0x80 0, .out8 0x80 0,
    .out8 ataRegSecCount0 0, .out8 ataRegLba0 0, .out8 ataRegLba1 0, .out8 ataRegLba2 0]

theorem ataIdentify_events (h : List Event) :
    (ataIdentify h).2 = h ++ (identifyEvents ++ [.out8 ataRegCommand 0xEC]) := by
  simp only [ataIdentify, ioWait, outb, bind_apply, List.append_assoc]
  rfl

/-- Writing to registers leaves a resting drive at rest. -/
theorem foldl_rests {es : List Event} (hes : ∀ e ∈ es, ∃ port value, e = .out8 port value ∧
    port ≠ ataRegCommand) {d : Drive} (hd : Rests disk d) : Rests disk (es.foldl D.react d) := by
  induction es generalizing d with
  | nil => exact hd
  | cons e es ih =>
    refine ih (fun e he => hes e (List.mem_cons_of_mem _ he)) ?_
    obtain ⟨port, value, rfl, hport⟩ := hes e (List.mem_cons_self ..)
    obtain ⟨file, count, phase, busy, medium, clock⟩ := d
    obtain ⟨rfl, rfl, rfl⟩ := hd
    rcases eq_or_ne port ataRegSecCount0 with rfl | hcount
    · rw [react_count]
      exact ⟨rfl, rfl, rfl⟩
    · rw [react_latch _ _ _ port hport hcount]
      exact ⟨rfl, rfl, rfl⟩

/-- The drive answers with its identification. -/
theorem triple_ataIdentify : D.device.Triple d₀ (Rests disk) ataIdentify
    fun _ d => ∃ k < ataPollLimit, InPhase (.sending D.identifyWords) k disk d := by
  intro h hrest
  rw [ataIdentify_events, after_append, List.foldl_append, List.foldl_cons, List.foldl_nil]
  have hrest : Rests disk (identifyEvents.foldl D.react (D.device.after d₀ h)) := foldl_rests (by
    simp only [identifyEvents, List.forall_mem_cons, Event.out8.injEq, List.not_mem_nil,
      false_implies, implies_true, and_true]
    refine ⟨?_, ?_, ?_, ?_, ?_, ?_, ?_, ?_, ?_, ?_, ?_, ?_, ?_, ?_⟩ <;>
      exact ⟨_, _, ⟨rfl, rfl⟩, by decide⟩) hrest
  generalize identifyEvents.foldl D.react _ = d at hrest ⊢
  obtain ⟨file, count, phase, busy, medium, clock⟩ := d
  obtain ⟨rfl, rfl, rfl⟩ := hrest
  rw [react_command]
  exact ⟨_, D.prompt _, rfl, rfl, rfl⟩

theorem status_ne_zero {d : Drive} (hphase : d.phase.moves) : D.status d ≠ 0 := by
  by_cases hbusy : d.busy = 0
  · intro hzero
    exact (status_moves (D := D) hbusy hphase).2 (by rw [hzero]; rfl)
  · intro hzero
    exact status_busy (D := D) hbusy (by rw [hzero]; rfl)

/-- The device that the driver registers for the drive. -/
def DriveModel.registered (D : DriveModel) : BlockDevice :=
  ⟨"ata-primary-master", D.size.setWidth 64, 512⟩

/-- The sizes of the identification make the device. -/
theorem ataAttach_drive {g : AtaState} (hroom : g.devices.length < 16) (hsize : D.size ≠ 0) :
    ataAttach g (D.identifyWords.getD 60 0) (D.identifyWords.getD 61 0) =
      (.ok, ⟨D.registered, 1, D.size.setWidth 64, g.devices ++ [D.registered]⟩) := by
  have hlow : D.identifyWords.getD 60 0 = D.size.setWidth 16 := rfl
  have hhigh : D.identifyWords.getD 61 0 = (D.size >>> 16).setWidth 16 := rfl
  have hsectors : (((D.size >>> 16).setWidth 16).setWidth 64 <<< 16 |||
      (D.size.setWidth 16).setWidth 64 : U64) = D.size.setWidth 64 := by
    refine BitVec.eq_of_toNat_eq ((toNat_sectors _ _).trans ?_)
    have hlt := D.size.isLt
    rw [BitVec.toNat_setWidth, BitVec.toNat_setWidth, BitVec.toNat_setWidth,
      BitVec.toNat_ushiftRight, Nat.shiftRight_eq_div_pow]
    omega
  have hzero : D.size.setWidth 64 ≠ 0 := fun h => hsize (by
    have hnat := congrArg BitVec.toNat h
    rw [BitVec.toNat_setWidth, Nat.mod_eq_of_lt (D.size.isLt.trans (by decide))] at hnat
    exact BitVec.eq_of_toNat_eq hnat)
  have hregister : sbBlockRegister g.devices D.registered = (.ok, g.devices ++ [D.registered]) :=
    if_neg (not_or.2 ⟨(by decide : (512 : U32) ≠ 0), not_or.2 ⟨hzero, Nat.not_le.2 hroom⟩⟩)
  rw [ataAttach, hlow, hhigh, hsectors, if_neg hzero]
  change ((sbBlockRegister g.devices D.registered).1,
    (⟨D.registered, 1, _, (sbBlockRegister g.devices D.registered).2⟩ : AtaState)) = _
  rw [hregister]

/-- **The driver finds the drive**, with its size, and the medium is as it was. -/
theorem triple_sbAtaPioInit {g : AtaState} (hroom : g.devices.length < 16) (hsize : D.size ≠ 0) :
    D.device.Triple d₀ (Rests disk) (sbAtaPioInit (D.device.bus d₀) g) fun r d =>
      r = (.ok, ⟨D.registered, 1, D.size.setWidth 64, g.devices ++ [D.registered]⟩) ∧
          Rests disk d := by
  refine triple_ataIdentify.bind fun _ => ?_
  have hstatus : D.device.Triple d₀ (fun d => ∃ k < ataPollLimit,
      InPhase (.sending D.identifyWords) k disk d)
      (inb (D.device.bus d₀) ataRegCommand) fun status d => status ≠ 0 ∧
        ∃ k < ataPollLimit, InPhase (.sending D.identifyWords) k disk d := by
    refine Device.triple_inb ?_
    rintro d ⟨k, hk, hd⟩
    rw [in8_status]
    exact ⟨status_ne_zero (by rw [hd.phase_eq]; trivial), k - 1, by omega, hd.read_status _⟩
  refine hstatus.bind fun status => Device.Triple.of_forall fun hne => ?_
  rw [if_neg hne]
  refine (triple_awaitData (show Phase.moves (.sending _) from trivial)).bind fun ready =>
    Device.Triple.of_forall fun hr => ?_
  rw [if_pos hr]
  have hlen : D.identifyWords.length = 256 := by
    rw [DriveModel.identifyWords, List.length_map, List.length_range]
  have hin : D.device.Triple d₀ (Sends disk _) _ _ := triple_data_in D.identifyWords
  rw [hlen] at hin
  refine (hin.imp (fun d hd => ?_) fun _ _ h => h).bind fun words => Device.Triple.of_forall
    fun hw => ?_
  · exact hd
  · refine Device.Triple.pure fun d hd => ⟨?_, hd⟩
    rw [hw]
    exact ataAttach_drive hroom hsize

end Init

/-! ### The driver as a disk -/

/-- **The ATA driver refines a disk.**  On a drive of 1 to 2^28 sectors that keeps to the protocol,
however long it takes and whatever the open bits are, `sb_ata_pio_init` succeeds and registers a
device of that size. Every run of `ata_read` and `ata_write` then answers what the disk answers,
with the same bytes in the buffers, and leaves the drive at rest with the bytes of the disk on its
medium. -/
theorem ata_refines_disk (D : DriveModel) {d₀ : Drive} {disk : Mem} (hrest : Rests disk d₀)
    (hpos : 0 < D.size.toNat) (hsmall : D.size.toNat ≤ 2 ^ 28) {g : AtaState}
    (hroom : g.devices.length < 16) (calls : List DiskCall) :
    ∃ h, sbAtaPioInit (D.device.bus d₀) g [] =
        ((.ok, ⟨D.registered, 1, D.size.setWidth 64, g.devices ++ [D.registered]⟩), h) ∧
      outputs (ataStep (D.device.bus d₀) D.registered) h calls =
        outputs (diskStep D.registered) disk calls ∧
      Rests (run (diskStep D.registered) disk calls)
        (D.device.after d₀ (run (ataStep (D.device.bus d₀) D.registered) h calls)) := by
  have hsize : D.size ≠ 0 := fun h => absurd hpos (by rw [h]; decide)
  have hcount : D.registered.sectorCount.toNat = D.size.toNat := by
    rw [DriveModel.registered, BitVec.toNat_setWidth,
      Nat.mod_eq_of_lt (D.size.isLt.trans (by decide))]
  obtain ⟨hinit, hrest⟩ :=
    (triple_sbAtaPioInit hroom hsize : D.device.Triple d₀ (Rests disk) _ _) [] hrest
  refine ⟨_, Prod.ext hinit rfl, ?_⟩
  refine run_simulation (R := fun h disk => Rests disk (D.device.after d₀ h)) ?_ calls hrest
  rintro h disk (⟨lba, count, buffer⟩ | ⟨lba, count, buffer⟩) hrest
  · by_cases hcall : ataRejects D.registered lba count
    · rw [ataStep, diskStep, if_pos hcall, ataRead, if_pos hcall]
      exact ⟨rfl, hrest⟩
    · obtain ⟨hok, hafter⟩ := triple_ataRead rfl hcount hsmall hcall buffer h hrest
      rw [ataStep, diskStep, if_neg hcall]
      exact ⟨by rw [hok], hafter⟩
  · by_cases hcall : ataRejects D.registered lba count
    · rw [ataStep, diskStep, if_pos hcall, ataWrite, if_pos hcall]
      exact ⟨rfl, hrest⟩
    · obtain ⟨hok, hafter⟩ := triple_ataWrite rfl hcount hsmall hcall buffer h hrest
      rw [ataStep, diskStep, if_neg hcall]
      exact ⟨by rw [hok], hafter⟩

/-- A drive of eight sectors that is busy for three status reads at a time. -/
def slowDrive : DriveModel := ⟨8, fun _ => 0, fun _ => 3, fun _ => 0xFFFF, fun _ => by decide⟩

/-- The drive when the machine is switched on. -/
def driveAtRest (disk : Mem) : Drive := ⟨⟨0, 0, 0, 0⟩, 0, .idle, 0, disk, 0⟩

/-- The bytes 0, 1, 2 and so on. -/
def countingBytes : Mem := fun i => BitVec.ofNat 8 i

/-- A sector written to the slow drive is read back. -/
theorem slowDrive_reads_back :
    ∃ h dst, outputs (ataStep (slowDrive.device.bus (driveAtRest fun _ => 0)) slowDrive.registered)
        h [.write 2 1 countingBytes, .read 2 1 fun _ => 0, .read 7 2 fun _ => 0] =
      [(.ok, none), (.ok, some dst), (.invalidArgument, some fun _ => 0)] ∧ dst 0x1FF = 0xFF ∧
      dst 0x200 = 0 := by
  have hrest : Rests (fun _ => 0) (driveAtRest fun _ => 0) := ⟨rfl, rfl, rfl⟩
  obtain ⟨h, -, hout, -⟩ := ata_refines_disk slowDrive hrest (by decide) (by decide) (g := .boot)
    (by decide) [.write 2 1 countingBytes, .read 2 1 fun _ => 0, .read 7 2 fun _ => 0]
  exact ⟨h, _, hout, rfl, rfl⟩

end SuiraBox.Block
