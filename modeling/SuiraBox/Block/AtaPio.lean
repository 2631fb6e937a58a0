/-
# The ATA disk driver

`kernel/ata_pio.c`, and `sb_block_register` of `kernel/block.c`.  The driver asks the drive for its
size with IDENTIFY, and reads and writes one sector per command: it puts the number of the sector
into four registers, writes the command, waits for the drive and moves the data through the data
port.

What the drive is told is a view of the events on the ports (`driveLog`): the four registers keep
what was last written to them, and a command takes the address they hold at that moment, 8 + 8 + 8
bits and the low four of the drive register.  The driver accepts drives of up to 2^32 - 1 sectors,
so a sector has an address of its own exactly as far as these 28 bits reach
(`sectors_addressed_iff`).

Pointers that the functions check against null are not null here.
-/

import SuiraBox.Library.PortIo
import SuiraBox.Library.ByteMem
import SuiraBox.Library.Words
import SuiraBox.Mm.Pmm

namespace SuiraBox.Block

open PortIo ByteMem Mm

/-! ### Block devices -/

/-- `sb_block_status_t`. -/
inductive BlockStatus
  | ok
  | invalidArgument
  | notReady
  deriving DecidableEq

/-- `sb_block_device_t`.  The functions of the one device that this driver registers are `ataRead`
and `ataWrite`. -/
structure BlockDevice where
  name : String
  sectorCount : U64
  sectorSize : U32
  deriving DecidableEq

/-- `sb_block_register`, on the table of at most 16 devices. -/
def sbBlockRegister (devices : List BlockDevice) (device : BlockDevice) :
    BlockStatus × List BlockDevice :=
  if device.sectorSize = 0 ∨ device.sectorCount = 0 ∨
    16 ≤ devices.length then (.invalidArgument, devices)
  else (.ok, devices ++ [device])

/-! ### Registers and waiting -/

abbrev ataPrimaryIo : U16 := 0x1F0
abbrev ataPrimaryCtrl : U16 := 0x3F6
abbrev ataRegData : U16 := ataPrimaryIo + 0
abbrev ataRegSecCount0 : U16 := ataPrimaryIo + 2
abbrev ataRegLba0 : U16 := ataPrimaryIo + 3
abbrev ataRegLba1 : U16 := ataPrimaryIo + 4
abbrev ataRegLba2 : U16 := ataPrimaryIo + 5
abbrev ataRegDrive : U16 := ataPrimaryIo + 6

/-- Status when it is read, command when it is written. -/
abbrev ataRegCommand : U16 := ataPrimaryIo + 7

abbrev ataStatusBsy : U8 := 0x80
abbrev ataStatusDrq : U8 := 0x08
abbrev ataStatusErr : U8 := 0x01
abbrev ataStatusDf : U8 := 0x20

/-- `ATA_POLL_LIMIT`. -/
def ataPollLimit : ℕ := 999999 + 1

/-- `io_wait`. -/
def ioWait : Io Unit := do
  outb 0x80 0
  outb 0x80 0
  outb 0x80 0
  outb 0x80 0

/-- `ata_wait_not_busy`. -/
def ataWaitNotBusy (bus : Bus) : Io U8 := do
  let r ← poll bus ataRegCommand (fun status => decide (status &&& ataStatusBsy = 0)) ataPollLimit 0
  pure (if r.2 then r.1 else r.1 ||| ataStatusBsy)

/-- `ata_wait_drq`. -/
def ataWaitDrq (bus : Bus) : Io U8 := do
  let r ← poll bus ataRegCommand (fun status =>
      decide (status &&& (ataStatusErr ||| ataStatusDf) ≠ 0 ∨
    status &&& ataStatusDrq ≠ 0)) ataPollLimit 0
  pure r.1

/-- A status that makes the driver give up. -/
def ataFailed (status : U8) : Bool :=
  decide (status &&& (ataStatusBsy ||| ataStatusErr ||| ataStatusDf) ≠ 0)

/-- The wait that follows every command, and whether the drive is then ready to move data. -/
def ataAwaitData (bus : Bus) : Io Bool := do
  let status ← ataWaitNotBusy bus
  if ataFailed status then pure false else do
    let status ← ataWaitDrq bus
    pure (decide (status &&& (ataStatusErr ||| ataStatusDf) = 0 ∧ status &&& ataStatusDrq ≠ 0))

section Waiting

variable {σ : Type} {view : List Event → σ} {bus : Bus}

/-- Waiting for the drive keeps what one status read keeps. -/
theorem keeps_ataWaitNotBusy (hread : ∀ port, Keeps view (inb bus port)) :
    Keeps view (ataWaitNotBusy bus) :=
  (keeps_poll (hread _) _ _ _).bind fun _ => keeps_pure _

/-- So does waiting for data. -/
theorem keeps_ataAwaitData (hread : ∀ port, Keeps view (inb bus port)) :
    Keeps view (ataAwaitData bus) := by
  have hdrq : Keeps view (ataWaitDrq bus) := (keeps_poll (hread _) _ _ _).bind fun _ => keeps_pure _
  exact (keeps_ataWaitNotBusy hread).bind fun _ =>
    (keeps_pure _).ite (hdrq.bind fun _ => keeps_pure _)

end Waiting

/-! ### Reading and writing sectors -/

/-- `ata_select`. -/
def ataSelect (lba : U32) : Io Unit := do
  outb ataRegDrive (((0xE0 : U32) ||| ((lba >>> 24) &&& 0x0F)).setWidth 8)
  ioWait

/-- How `ata_read` and `ata_write` program a command for one sector. -/
def ataCommand (current : U32) (command : U8) : Io Unit := do
  ataSelect current
  outb ataRegSecCount0 1
  outb ataRegLba0 ((current &&& 0xFF).setWidth 8)
  outb ataRegLba1 (((current >>> 8) &&& 0xFF).setWidth 8)
  outb ataRegLba2 (((current >>> 16) &&& 0xFF).setWidth 8)
  outb ataRegCommand command

/-- The arguments that both functions refuse. -/
def ataRejects (device : BlockDevice) (lba : U64) (count : U32) : Prop :=
  count = 0 ∨ 255 < count ∨ device.sectorCount ≤ lba ∨ device.sectorCount - lba < count.setWidth 64

instance (device : BlockDevice) (lba : U64) (count : U32) :
    Decidable (ataRejects device lba count) :=
  inferInstanceAs (Decidable (_ ∨ _))

/-- Words stored one after the other from an address on. -/
def storeWords (m : Mem) (a : ℕ) : List U16 → Mem
  | [] => m
  | word :: words => storeWords (writeLE m a 2 word.toNat) (a + 2) words

/-- The `n` words from an address on. -/
def wordsAt (m : Mem) (a : ℕ) : ℕ → List U16
  | 0 => []
  | n + 1 => read16 m a :: wordsAt m (a + 2) n

/-- One round of the loop of `ata_read`: the buffer with the sector in it, unless the drive
failed. -/
def readSector (bus : Bus) (device : BlockDevice) (lba : U64) (sector : U32) (dst : Mem) :
    Io (Option Mem) := do
  ataCommand ((lba + sector.setWidth 64).setWidth 32) 0x20
  let ready ← ataAwaitData bus
  if ready then do
    let words ← inwMany bus ataRegData (device.sectorSize / 2).toNat
    pure (some (storeWords dst (sector * device.sectorSize).toNat words))
  else pure none

/-- One round of the loop of `ata_write`. -/
def writeSector (bus : Bus) (device : BlockDevice) (lba : U64) (src : Mem) (sector : U32)
    (_ : Unit) : Io (Option Unit) := do
  ataCommand ((lba + sector.setWidth 64).setWidth 32) 0x30
  let ready ← ataAwaitData bus
  if ready then do
    outwMany ataRegData (wordsAt src (sector * device.sectorSize).toNat
      (device.sectorSize / 2).toNat)
    let status ← ataWaitNotBusy bus
    pure (if ataFailed status then none else some ())
  else pure none

/-- The loop over the sectors, from `sector` on and `n` of them, with what a round hands to the
next. -/
def eachSector {σ : Type} (body : U32 → σ → Io (Option σ)) : ℕ → U32 → σ → Io (BlockStatus × σ)
  | 0, _, s => pure (.ok, s)
  | n + 1, sector, s => do
    match ← body sector s with
    | none => pure (.notReady, s)
    | some s => eachSector body n (sector + 1) s

/-- `ata_read`, with what it leaves in the buffer. -/
def ataRead (bus : Bus) (device : BlockDevice) (lba : U64) (count : U32) (buffer : Mem) :
    Io (BlockStatus × Mem) :=
  if ataRejects device lba count then pure (.invalidArgument, buffer)
  else eachSector (readSector bus device lba) count.toNat 0 buffer

/-- `ata_write`. -/
def ataWrite (bus : Bus) (device : BlockDevice) (lba : U64) (count : U32) (buffer : Mem) :
    Io (BlockStatus × Unit) :=
  if ataRejects device lba count then pure (.invalidArgument, ())
  else eachSector (writeSector bus device lba buffer) count.toNat 0 ()

/-! ### Finding the drive -/

/-- The globals of the driver and of the block layer. -/
structure AtaState where
  device : BlockDevice
  ready : U8
  sectors : U64
  devices : List BlockDevice

/-- The end of `sb_ata_pio_init`, with words 60 and 61 of what IDENTIFY has returned. -/
def ataAttach (g : AtaState) (low high : U16) : BlockStatus × AtaState :=
  let sectors : U64 := high.setWidth 64 <<< 16 ||| low.setWidth 64
  if sectors = 0 then (.notReady, { g with sectors })
  else
    let device : BlockDevice := ⟨"ata-primary-master", sectors, 512⟩
    let registered := sbBlockRegister g.devices device
    (registered.1, ⟨device, 1, sectors, registered.2⟩)

/-- How `sb_ata_pio_init` asks the drive to identify itself. -/
def ataIdentify : Io Unit := do
  outb ataPrimaryCtrl 0
  ioWait
  outb ataRegDrive 0xA0
  ioWait
  outb ataRegSecCount0 0
  outb ataRegLba0 0
  outb ataRegLba1 0
  outb ataRegLba2 0
  outb ataRegCommand 0xEC

/-- `sb_ata_pio_init`. -/
def sbAtaPioInit (bus : Bus) (g : AtaState) : Io (BlockStatus × AtaState) := do
  ataIdentify
  let status ← inb bus ataRegCommand
  if status = 0 then pure (.notReady, g) else do
    let ready ← ataAwaitData bus
    if ready then do
      let identify ← inwMany bus ataRegData 256
      pure (ataAttach g (identify.getD 60 0) (identify.getD 61 0))
    else pure (.notReady, g)

/-- `sb_ata_pio_device`. -/
def sbAtaPioDevice (g : AtaState) : Option BlockDevice :=
  if g.ready ≠ 0 then some g.device else none

/-- The device came out of a call of `sb_ata_pio_init` that returned `SB_BLOCK_OK`. -/
def Accepted (device : BlockDevice) : Prop :=
  ∃ bus g h, (sbAtaPioInit bus g h).1.1 = .ok ∧
    sbAtaPioDevice (sbAtaPioInit bus g h).1.2 = some device

/-- The two words of the sector count, put together. -/
theorem toNat_sectors (low high : U16) :
    (high.setWidth 64 <<< 16 ||| low.setWidth 64 : U64).toNat =
      high.toNat * 2 ^ 16 + low.toNat := by
  have hhigh := high.isLt
  rw [BitVec.toNat_or, BitVec.toNat_shiftLeft, BitVec.toNat_setWidth, BitVec.toNat_setWidth,
    Nat.mod_eq_of_lt (hhigh.trans (by decide)), Nat.mod_eq_of_lt (low.isLt.trans (by decide)),
    Nat.shiftLeft_eq, Nat.mod_eq_of_lt (by omega), Nat.mul_comm]
  exact (Nat.two_pow_add_eq_or_of_lt low.isLt high.toNat).symm

/-- A drive is attached with the sector count that it has told, which is not zero. -/
theorem ataAttach_ok {g : AtaState} {low high : U16} (hok : (ataAttach g low high).1 = .ok) :
    (ataAttach g low high).2.device.sectorCount ≠ 0 ∧
      (ataAttach g low high).2.device.sectorCount.toNat = high.toNat * 2 ^ 16 + low.toNat := by
  rw [ataAttach] at hok ⊢
  split_ifs at hok ⊢ with hzero
  exact ⟨hzero, toNat_sectors low high⟩

/-- An initialisation that succeeds has come to its end. -/
theorem sbAtaPioInit_ok {bus : Bus} {g : AtaState} {h : List Event}
    (hok : (sbAtaPioInit bus g h).1.1 = .ok) :
    ∃ low high, (sbAtaPioInit bus g h).1 = ataAttach g low high := by
  simp only [sbAtaPioInit, bind_apply, Io.ite_apply, apply_ite Prod.fst, pure_apply] at hok ⊢
  split_ifs at hok ⊢
  exact ⟨_, _, rfl⟩

/-- A device that has been accepted has as many sectors as IDENTIFY said, a number of 32 bits. -/
theorem Accepted.sectorCount {device : BlockDevice} (hdev : Accepted device) :
    0 < device.sectorCount.toNat ∧ device.sectorCount.toNat < 2 ^ 32 := by
  obtain ⟨bus, g, h, hok, hdevice⟩ := hdev
  obtain ⟨low, high, hattach⟩ := sbAtaPioInit_ok hok
  rw [hattach] at hok hdevice
  rw [sbAtaPioDevice] at hdevice
  split_ifs at hdevice
  obtain ⟨hzero, hcount⟩ := ataAttach_ok hok
  rw [Option.some.inj hdevice] at hzero hcount
  have hpos : device.sectorCount.toNat ≠ 0 := fun h => hzero (BitVec.eq_of_toNat_eq h)
  have hlow := low.isLt
  have hhigh := high.isLt
  omega

/-! ### A drive that works -/

/-- A drive that is always ready for data, and sends `word 0`, `word 1` and so on. -/
def readyBus (word : ℕ → U16) : Bus := ⟨fun _ _ => 0x08, fun h _ => word (wordsRead h)⟩

/-- The drive that is always ready says so on every port. -/
theorem readyBus_in8 (word : ℕ → U16) (h : List Event) (port : U16) :
    (readyBus word).in8 h port = 0x08 := rfl

/-- Waiting for it ends at once. -/
theorem ataWaitNotBusy_ready (word : ℕ → U16) (h : List Event) :
    (ataWaitNotBusy (readyBus word) h).1 = 0x08 := by
  rw [ataWaitNotBusy, bind_apply, ataPollLimit, poll_succ_of_test (readyBus_in8 word _ _)
    (by decide)]
  rfl

/-- It has data at once. -/
theorem ataAwaitData_ready (word : ℕ → U16) (h : List Event) :
    (ataAwaitData (readyBus word) h).1 = true := by
  have hdrq : ∀ h, (ataWaitDrq (readyBus word) h).1 = 0x08 := fun h => by
    rw [ataWaitDrq, bind_apply, ataPollLimit, poll_succ_of_test (readyBus_in8 word _ _) (by decide)]
    rfl
  rw [ataAwaitData, bind_apply, ataWaitNotBusy_ready, Io.ite_apply, if_neg (by decide),
    bind_apply, hdrq]
  rfl

/-- The `IDENTIFY` command reads no words itself. -/
theorem keeps_wordsRead_ataIdentify : Keeps wordsRead ataIdentify := by
  have hout := keeps_wordsRead_outb
  have hwait : Keeps wordsRead ioWait :=
    (hout _ _).bind fun _ => (hout _ _).bind fun _ => (hout _ _).bind fun _ => hout _ _
  exact (hout _ _).bind fun _ => hwait.bind fun _ => (hout _ _).bind fun _ => hwait.bind fun _ =>
    (hout _ _).bind fun _ => (hout _ _).bind fun _ => (hout _ _).bind fun _ => (hout _ _).bind
      fun _ => hout _ _

/-- Initialising it attaches the sector count in words 60 and 61. -/
theorem sbAtaPioInit_ready (word : ℕ → U16) (g : AtaState) :
    (sbAtaPioInit (readyBus word) g []).1 = ataAttach g (word 60) (word 61) := by
  have hwords : ∀ h, wordsRead (ataAwaitData (readyBus word)
      (inb (readyBus word) ataRegCommand h).2).2 = wordsRead h := fun h => by
    rw [keeps_ataAwaitData (keeps_wordsRead_inb _), keeps_wordsRead_inb]
  have hstatus : (inb (readyBus word) ataRegCommand (ataIdentify []).2).1 ≠ 0 :=
    (by decide : (0x08 : U8) ≠ 0)
  simp only [sbAtaPioInit, bind_apply, Io.ite_apply, if_neg hstatus, ataAwaitData_ready, if_pos,
    pure_apply]
  rw [inwMany_eq (fun _ => rfl), hwords, keeps_wordsRead_ataIdentify]
  rfl

/-- Words 60 and 61 say that the drive has `n` sectors. -/
def sizeWord (n : U64) (k : ℕ) : U16 := if k = 60 then n.setWidth 16 else (n >>> 16).setWidth 16

/-- The globals at boot. -/
def AtaState.boot : AtaState := ⟨⟨"", 0, 0⟩, 0, 0, []⟩

/-- The driver accepts every number of sectors that has 32 bits and is not zero. -/
theorem accepted_iff (n : U64) :
    (∃ device, Accepted device ∧ device.sectorCount = n) ↔ 0 < n.toNat ∧ n.toNat < 2 ^ 32 := by
  constructor
  · rintro ⟨device, hdev, rfl⟩
    exact hdev.sectorCount
  · rintro ⟨hpos, hlt⟩
    have hsectors : ((sizeWord n 61).setWidth 64 <<< 16 ||| (sizeWord n 60).setWidth 64 : U64) =
        n := by
      refine BitVec.eq_of_toNat_eq ((toNat_sectors _ _).trans ?_)
      change ((n >>> 16).setWidth 16).toNat * 2 ^ 16 + (n.setWidth 16).toNat = n.toNat
      rw [BitVec.toNat_setWidth, BitVec.toNat_setWidth, BitVec.toNat_ushiftRight,
        Nat.shiftRight_eq_div_pow]
      omega
    have hzero : n ≠ 0 := fun h => absurd hpos (by rw [h]; decide)
    have hregister : sbBlockRegister [] ⟨"ata-primary-master", n, 512⟩ =
        (.ok, [⟨"ata-primary-master", n, 512⟩]) :=
      if_neg (not_or.2 ⟨(by decide : (512 : U32) ≠ 0), not_or.2 ⟨hzero, (by decide : ¬ 16 ≤ 0)⟩⟩)
    have hinit : (sbAtaPioInit (readyBus (sizeWord n)) .boot []).1 =
        (.ok, ⟨⟨"ata-primary-master", n, 512⟩, 1, n, [⟨"ata-primary-master", n, 512⟩]⟩) := by
      rw [sbAtaPioInit_ready, ataAttach, hsectors, if_neg hzero]
      simp only [AtaState.boot, hregister]
    exact ⟨_, ⟨readyBus (sizeWord n), .boot, [], by rw [hinit], by rw [hinit]; rfl⟩, rfl⟩

/-! ### What the drive is told -/

/-- The registers that hold the address of the next command. -/
structure TaskFile where
  lba0 : U8
  lba1 : U8
  lba2 : U8
  drive : U8

/-- The address of 28 bits in them. -/
def TaskFile.address (f : TaskFile) : ℕ :=
  f.lba0.toNat + 2 ^ 8 * (f.lba1.toNat + 2 ^ 8 * (f.lba2.toNat + 2 ^ 8 * (f.drive &&& 0x0F).toNat))

def TaskFile.latch (f : TaskFile) (port : U16) (value : U8) : TaskFile :=
  if port = ataRegLba0 then { f with lba0 := value }
  else if port = ataRegLba1 then { f with lba1 := value }
  else if port = ataRegLba2 then { f with lba2 := value }
  else if port = ataRegDrive then { f with drive := value }
  else f

/-- The registers, and the addresses of all commands so far. -/
structure DriveLog where
  file : TaskFile
  issued : List ℕ

def DriveLog.step (d : DriveLog) : Event → DriveLog
  | .out8 port value =>
    if port = ataRegCommand then { d with issued := d.issued ++ [d.file.address] }
    else { d with file := d.file.latch port value }
  | _ => d

def driveLog (h : List Event) : DriveLog := h.foldl DriveLog.step ⟨⟨0, 0, 0, 0⟩, []⟩

/-- The log takes one event after the other. -/
theorem driveLog_concat (h : List Event) (e : Event) : driveLog (h ++ [e]) = (driveLog h).step e :=
  List.foldl_concat ..

/-- A byte that is written is logged. -/
theorem driveLog_outb (port : U16) (value : U8) (h : List Event) :
    driveLog (outb port value h).2 = (driveLog h).step (.out8 port value) := driveLog_concat h _

/-- The addresses that the drive has been given commands for. -/
def issued (h : List Event) : List ℕ := (driveLog h).issued

/-- The reads of `io_wait` leave the log alone. -/
theorem driveLog_ioWait (h : List Event) : driveLog (ioWait h).2 = driveLog h := by
  simp only [ioWait, bind_apply, driveLog_outb]
  rfl

/-- The registers as `ataCommand` sets them. -/
def TaskFile.ofLba (current : U32) : TaskFile where
  lba0 := (current &&& 0xFF).setWidth 8
  lba1 := ((current >>> 8) &&& 0xFF).setWidth 8
  lba2 := ((current >>> 16) &&& 0xFF).setWidth 8
  drive := ((0xE0 : U32) ||| ((current >>> 24) &&& 0x0F)).setWidth 8

/-- After a command the task file holds the sector, and its address has been issued. -/
theorem driveLog_ataCommand (current : U32) (command : U8) (h : List Event) :
    driveLog (ataCommand current command h).2 =
      ⟨TaskFile.ofLba current, issued h ++ [(TaskFile.ofLba current).address]⟩ := by
  simp only [ataCommand, ataSelect, bind_apply, driveLog_outb, driveLog_ioWait]
  rfl

/-- The four registers hold 28 bits of the sector number. -/
theorem address_ofLba (current : U32) :
    (TaskFile.ofLba current).address = current.toNat % 2 ^ 28 := by
  have hbyte : ∀ x : U32, ((x &&& 0xFF).setWidth 8).toNat = x.toNat % 2 ^ 8 := fun x =>
    Words.toNat_setWidth_and x rfl
  -- the bits of 0xE0 are not among the four that count
  have hdrive : ∀ x : U32, (((0xE0 : U32) ||| (x &&& 0x0F)).setWidth 8 &&& 0x0F : U8).toNat =
      x.toNat % 2 ^ 4 :=
    fun x => by
      have hand : x.toNat &&& 15 = x.toNat % 2 ^ 4 := Nat.and_two_pow_sub_one_eq_mod x.toNat 4
      have hor : 224 ||| x.toNat % 2 ^ 4 = 224 + x.toNat % 2 ^ 4 :=
        (Nat.two_pow_add_eq_or_of_lt (i := 5) (by omega) 7).symm
      rw [BitVec.toNat_and, BitVec.toNat_setWidth, BitVec.toNat_or, BitVec.toNat_and]
      change (224 ||| (x.toNat &&& 15)) % 2 ^ 8 &&& 2 ^ 4 - 1 = _
      rw [hand, hor, Nat.and_two_pow_sub_one_eq_mod]
      omega
  simp only [TaskFile.address, TaskFile.ofLba, hbyte, hdrive, BitVec.toNat_ushiftRight,
    Nat.shiftRight_eq_div_pow]
  omega

/-- A command issues one address: 28 bits of the sector number. -/
theorem issued_ataCommand (current : U32) (command : U8) (h : List Event) :
    issued (ataCommand current command h).2 = issued h ++ [current.toNat % 2 ^ 28] := by
  rw [issued, driveLog_ataCommand, address_ofLba]

/-! Everything after a command leaves the drive's registers alone. -/

/-- Reading a byte issues nothing. -/
theorem keeps_inb (bus : Bus) (port : U16) : Keeps issued (inb bus port) := fun h => by
  rw [issued, inb, driveLog_concat]
  rfl

/-- Reading a word issues nothing. -/
theorem keeps_inw (bus : Bus) (port : U16) : Keeps issued (inw bus port) := fun h => by
  rw [issued, inw, driveLog_concat]
  rfl

/-- Writing a word issues nothing. -/
theorem keeps_outw (port value : U16) : Keeps issued (outw port value) := fun h => by
  rw [issued, outw, driveLog_concat]
  rfl

section Rounds

variable (bus : Bus) (device : BlockDevice) (lba : U64) (buffer : Mem) (sector : U32)
    (h : List Event)

/-- The address that a round of either loop gives to the drive. -/
def sectorAddress : ℕ := ((lba + sector.setWidth 64).setWidth 32 : U32).toNat % 2 ^ 28

/-- A command, and then something that gives no other command to the drive. -/
theorem issued_command_bind {α : Type} {x : Io α} (hx : Keeps issued x) (command : U8) :
    issued ((ataCommand ((lba + sector.setWidth 64).setWidth 32) command >>= fun _ => x) h).2 =
      issued h ++ [sectorAddress lba sector] :=
  (hx _).trans (issued_ataCommand _ command h)

/-- Reading a sector issues its address, whatever the drive answers. -/
theorem issued_readSector :
    issued (readSector bus device lba sector buffer h).2 =
      issued h ++ [sectorAddress lba sector] := by
  refine issued_command_bind lba sector h ?_ 0x20
  refine (keeps_ataAwaitData (keeps_inb bus)).bind fun ready => Keeps.ite ?_ (keeps_pure _)
  exact (keeps_inwMany (keeps_inw bus _) _).bind fun _ => keeps_pure _

/-- Writing a sector issues its address, whatever the drive answers. -/
theorem issued_writeSector :
    issued (writeSector bus device lba buffer sector () h).2 =
      issued h ++ [sectorAddress lba sector] := by
  refine issued_command_bind lba sector h ?_ 0x30
  refine (keeps_ataAwaitData (keeps_inb bus)).bind fun ready => Keeps.ite ?_ (keeps_pure _)
  exact (keeps_outwMany (keeps_outw _) _).bind fun _ =>
    (keeps_ataWaitNotBusy (keeps_inb bus)).bind fun _ => keeps_pure _

end Rounds

/-! ### The loop over the sectors -/

section Loop

variable {σ : Type} {body : U32 → σ → Io (Option σ)} {address : U32 → ℕ}

/-- If each round gives one address to the drive, the loop gives those of the first rounds, and of
all rounds if it succeeds. -/
theorem issued_eachSector
    (hbody : ∀ sector s h, issued (body sector s h).2 = issued h ++ [address sector])
    (n : ℕ) (sector : U32) (s : σ) (h : List Event) :
    ∃ k ≤ n, issued (eachSector body n sector s h).2 =
        issued h ++ (List.range k).map (fun i => address (sector + BitVec.ofNat 32 i)) ∧
      ((eachSector body n sector s h).1.1 = .ok → k = n) := by
  induction n generalizing sector s h with
  | zero => exact ⟨0, Nat.le_refl 0, (List.append_nil _).symm, fun _ => rfl⟩
  | succ n ih =>
    have hfirst := hbody sector s h
    rw [eachSector, bind_apply]
    rcases (body sector s h).1 with _ | s'
    · exact ⟨1, Nat.succ_pos n, by simpa using hfirst, fun hok => nomatch hok⟩
    · obtain ⟨k, hk, hissued, hok⟩ := ih (sector + 1) s' (body sector s h).2
      refine ⟨k + 1, Nat.succ_le_succ hk, hissued.trans ?_, fun h => congrArg (· + 1) (hok h)⟩
      have hnext : ∀ i, sector + BitVec.ofNat 32 (i + 1) = sector + 1 + BitVec.ofNat 32 i :=
        fun i => by
        rw [BitVec.ofNat_add, BitVec.add_comm (BitVec.ofNat 32 i), ← BitVec.add_assoc]
        rfl
      simp only [hfirst, List.range_succ_eq_map, List.map_cons, List.map_map, Function.comp_def,
        Nat.succ_eq_add_one, hnext, List.append_assoc, List.singleton_append, BitVec.add_zero]

/-- The loop succeeds when every round does. -/
theorem eachSector_ok (hbody : ∀ sector s h, (body sector s h).1 ≠ none) (n : ℕ)
    (sector : U32) (s : σ) (h : List Event) : (eachSector body n sector s h).1.1 = .ok := by
  induction n generalizing sector s h with
  | zero => rfl
  | succ n ih =>
    obtain ⟨s', hs'⟩ := Option.ne_none_iff_exists'.1 (hbody sector s h)
    rw [eachSector, bind_apply, hs']
    exact ih _ _ _

end Loop

/-! ### Calls of the driver -/

/-- A call of one of the two functions, with its buffer. -/
inductive Transfer
  | read (buffer : Mem)
  | write (buffer : Mem)

def Transfer.run (bus : Bus) (device : BlockDevice) (lba : U64) (count : U32) (t : Transfer) :
    Io BlockStatus := fun h =>
  match t with
  | .read buffer =>
    ((ataRead bus device lba count buffer h).1.1, (ataRead bus device lba count buffer h).2)
  | .write buffer =>
    ((ataWrite bus device lba count buffer h).1.1, (ataWrite bus device lba count buffer h).2)

/-- Whatever the drive answers, the addresses it is given are `lba`, `lba + 1` and so on, without a
gap, and `count` of them when the call succeeds. -/
def Addressed (device : BlockDevice) (lba : U64) (count : U32) (t : Transfer) : Prop :=
  ∀ bus h, ∃ k ≤ count.toNat,
    issued (t.run bus device lba count h).2 = issued h ++ List.range' lba.toNat k ∧
      ((t.run bus device lba count h).1 = .ok → k = count.toNat)

/-- A call for the one sector `x` can give the address `a` to the drive. -/
def GoesTo (device : BlockDevice) (x : U64) (a : ℕ) : Prop :=
  ¬ ataRejects device x 1 ∧ ∃ t bus h, issued (Transfer.run bus device x 1 t h).2 = issued h ++ [a]

/-- No two sectors of the device go to the same address. -/
def NoAlias (device : BlockDevice) : Prop := ∀ x y a, GoesTo device x a → GoesTo device y a → x = y

section Calls

variable {device : BlockDevice} {lba : U64} {count : U32} {t : Transfer} {h : List Event}

/-- A transfer passes the tests of the driver when it has 1 to 255 sectors, all inside the
device. -/
theorem not_ataRejects_iff : ¬ ataRejects device lba count ↔
    0 < count.toNat ∧ count.toNat ≤ 255 ∧ lba.toNat + count.toNat ≤ device.sectorCount.toNat := by
  unfold ataRejects
  bv_omega

/-- On a drive that is always ready a transfer that passes the tests succeeds. -/
theorem Transfer.run_ready (hcall : ¬ ataRejects device lba count) (word : ℕ → U16) :
    (t.run (readyBus word) device lba count h).1 = .ok := by
  cases t with
  | read buffer =>
    rw [Transfer.run, ataRead, if_neg hcall]
    refine eachSector_ok (fun sector s h => ?_) _ _ _ _
    rw [readSector, bind_apply, bind_apply, ataAwaitData_ready, Io.ite_apply, if_pos rfl]
    exact Option.some_ne_none _
  | write buffer =>
    rw [Transfer.run, ataWrite, if_neg hcall]
    refine eachSector_ok (fun sector s h => ?_) _ _ _ _
    rw [writeSector, bind_apply, bind_apply, ataAwaitData_ready, Io.ite_apply, if_pos rfl,
      bind_apply, bind_apply, ataWaitNotBusy_ready]
    exact Option.some_ne_none _

/-- The address of a sector is its number without the bits from 28 on. -/
theorem sectorAddress_eq (lba : U64) (i : ℕ) :
    sectorAddress lba (0 + BitVec.ofNat 32 i) = (lba.toNat + i) % 2 ^ 28 := by
  have hzero : (0 : U32) + BitVec.ofNat 32 i = BitVec.ofNat 32 i := BitVec.zero_add _
  rw [sectorAddress, hzero, BitVec.toNat_setWidth, BitVec.toNat_add, BitVec.toNat_setWidth,
    BitVec.toNat_ofNat]
  omega

/-- What a call that is not refused gives to the drive. -/
theorem Transfer.issued_run (hcall : ¬ ataRejects device lba count) (bus : Bus) : ∃ k ≤ count.toNat,
    issued (t.run bus device lba count h).2 =
      issued h ++ (List.range k).map (fun i => (lba.toNat + i) % 2 ^ 28) ∧
    ((t.run bus device lba count h).1 = .ok → k = count.toNat) := by
  simp only [← sectorAddress_eq]
  cases t with
  | read buffer =>
    rw [Transfer.run, ataRead, if_neg hcall]
    exact issued_eachSector (fun sector s h => issued_readSector bus device lba s sector h) _ _ _ _
  | write buffer =>
    rw [Transfer.run, ataWrite, if_neg hcall]
    exact issued_eachSector (fun sector _ h => issued_writeSector bus device lba buffer sector h) _
      _ _ _

/-- The call addresses the right sectors exactly if they all have numbers of 28 bits. -/
theorem addressed_iff (hcall : ¬ ataRejects device lba count) :
    Addressed device lba count t ↔ lba.toNat + count.toNat ≤ 2 ^ 28 := by
  obtain ⟨hpos, -, -⟩ := not_ataRejects_iff.1 hcall
  constructor
  · intro haddr
    -- a drive that works gets all addresses, and the last one is right
    have hok := Transfer.run_ready (t := t) (h := []) hcall fun _ => 0
    obtain ⟨k, -, hright, hk⟩ := haddr (readyBus fun _ => 0) []
    obtain ⟨k', -, hgiven, hk'⟩ :=
      Transfer.issued_run (t := t) (h := []) hcall (readyBus fun _ => 0)
    obtain rfl := hk hok
    obtain rfl := hk' hok
    have hlists := List.append_cancel_left (hgiven.symm.trans hright)
    rw [List.range'_eq_map_range] at hlists
    have hlast := List.map_inj_left.1 hlists (count.toNat - 1) (List.mem_range.2 (by omega))
    omega
  · intro hfits bus h
    obtain ⟨k, hk, hgiven, hok⟩ := Transfer.issued_run (t := t) (h := h) hcall bus
    refine ⟨k, hk, hgiven.trans ?_, hok⟩
    rw [List.range'_eq_map_range]
    refine congrArg _ (List.map_congr_left fun i hi => Nat.mod_eq_of_lt ?_)
    have hi := List.mem_range.1 hi
    omega

/-- Sector `x` of the device is looked for at 28 bits of `x`. -/
theorem goesTo_iff {x : U64} {a : ℕ} :
    GoesTo device x a ↔ x.toNat < device.sectorCount.toNat ∧ a = x.toNat % 2 ^ 28 := by
  have hcall : ¬ ataRejects device x 1 ↔ x.toNat < device.sectorCount.toNat := by
    rw [not_ataRejects_iff]
    exact ⟨fun h => h.2.2, fun h => ⟨by decide, by decide, h⟩⟩
  constructor
  · rintro ⟨hx, t, bus, h, ha⟩
    refine ⟨hcall.1 hx, ?_⟩
    obtain ⟨k, hk, hgiven, -⟩ := Transfer.issued_run (t := t) (h := h) hx bus
    have hlists := List.append_cancel_left (hgiven.symm.trans ha)
    rcases Nat.le_one_iff_eq_zero_or_eq_one.1 hk with rfl | rfl
    · cases hlists
    · exact (List.singleton_inj.1 hlists).symm
  · rintro ⟨hx, rfl⟩
    have hx := hcall.2 hx
    refine ⟨hx, .read fun _ => 0, readyBus fun _ => 0, [], ?_⟩
    obtain ⟨k, -, hgiven, hk⟩ :=
      Transfer.issued_run (t := .read fun _ => 0) (h := []) hx (readyBus fun _ => 0)
    obtain rfl := hk (Transfer.run_ready hx _)
    exact hgiven

/-- No two sectors share an address when the device has at most `2 ^ 28`. -/
theorem noAlias_iff : NoAlias device ↔ device.sectorCount.toNat ≤ 2 ^ 28 := by
  constructor
  · intro hno
    by_contra hbig
    -- sector 2^28 goes where sector 0 goes
    have hzero : GoesTo device 0 0 := goesTo_iff.2 ⟨Nat.pos_of_ne_zero (by omega), rfl⟩
    have hhigh : GoesTo device 0x10000000 0 := goesTo_iff.2 ⟨Nat.lt_of_not_le hbig, rfl⟩
    exact absurd (hno _ _ _ hzero hhigh) (by decide)
  · intro hsmall x y a hx hy
    obtain ⟨hxlt, rfl⟩ := goesTo_iff.1 hx
    obtain ⟨hylt, heq⟩ := goesTo_iff.1 hy
    refine BitVec.eq_of_toNat_eq ?_
    omega

end Calls

/-- **When each sector goes to its own place.**  An accepted drive may have any number of sectors of
32 bits.  A call gives the right addresses to it exactly if its last sector has a number of 28 bits,
and no two sectors share an address exactly if all sectors of the drive do. -/
theorem sectors_addressed_iff {device : BlockDevice} (hdev : Accepted device) :
    device.sectorCount.toNat < 2 ^ 32 ∧
    (∀ lba count t, ¬ ataRejects device lba count →
      (Addressed device lba count t ↔ lba.toNat + count.toNat ≤ 2 ^ 28)) ∧
    (NoAlias device ↔ device.sectorCount.toNat ≤ 2 ^ 28) :=
  ⟨hdev.sectorCount.2, fun _ _ _ => addressed_iff, noAlias_iff⟩

/-- A disk of four megabytes. -/
theorem smallDrive_addressed : ∃ device : BlockDevice, device.sectorCount = 8192 ∧
    (∀ t, Addressed device 8000 192 t) ∧ NoAlias device := by
  obtain ⟨device, hdev, hcount⟩ := (accepted_iff 8192).2 (by decide)
  obtain ⟨-, hcalls, halias⟩ := sectors_addressed_iff hdev
  have hcall : ¬ ataRejects device 8000 192 := not_ataRejects_iff.2 (by rw [hcount]; decide)
  exact ⟨device, hcount, fun t => (hcalls 8000 192 t hcall).2 (by decide),
    halias.2 (by rw [hcount]; decide)⟩

/-- On a disk of more than 2^28 sectors, which the driver accepts, sector 2^28 goes where sector 0
goes. -/
theorem bigDrive_aliases : ∃ device :
    BlockDevice, Accepted device ∧ ¬ ataRejects device 0x10000000 1 ∧
    (∀ t, ¬ Addressed device 0x10000000 1 t) ∧ GoesTo device 0 0 ∧ GoesTo device 0x10000000 0 := by
  obtain ⟨device, hdev, hcount⟩ := (accepted_iff 0x10000001).2 (by decide)
  have hcall : ¬ ataRejects device 0x10000000 1 := not_ataRejects_iff.2 (by rw [hcount]; decide)
  refine ⟨device, hdev, hcall, fun t => ?_, goesTo_iff.2 ?_, goesTo_iff.2 ?_⟩
  · rw [addressed_iff hcall]
    decide
  · rw [hcount]
    decide
  · rw [hcount]
    decide

end SuiraBox.Block
