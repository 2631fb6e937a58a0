/-
# The storage stack

`kernel/vfs.c` over the drivers of the kernel: the ATA driver, the memory disk of `kernel/block.c`
and the one of `kernel/storage_selftest.c`.  The VFS checks a call against the size of the device
and hands it on; a driver checks it once more.

What the stack is for is a store of sectors (`storeStep`).  A driver serves a store when its read
and write do what the store does, up to a largest number of sectors per call (`Serves`), and over
such a driver every run of VFS calls answers what the store answers (`Serves.run`).  The three
drivers serve: `ata_serves`, `blockTest_serves`, `storageTest_serves`.  Both self-tests pass
whatever is on the disk (`storage_selftests`).
-/

import SuiraBox.Block.AtaDrive
import SuiraBox.Fs.Fat32

namespace SuiraBox.Block

open PortIo ByteMem Mm Runs
open Fs (VfsStatus)

/-! ### The VFS over a driver -/

/-- `sb_block_device_t` with its functions, which work on the state `σ` of the driver. -/
structure Driver (σ : Type) where
  device : BlockDevice
  read : U64 → U32 → Mem → σ → (BlockStatus × Mem) × σ
  write : U64 → U32 → Mem → σ → BlockStatus × σ

/-- `sb_vfs_mount_t`. -/
structure Mounted (σ : Type) where
  driver : Driver σ
  sectorSize : U32
  totalSectors : U64

variable {σ : Type}

/-- `sb_vfs_mount`. -/
def sbVfsMount (driver : Driver σ) : Except VfsStatus (Mounted σ) :=
  if driver.device.sectorSize = 0 ∨ driver.device.sectorCount = 0 then .error .invalidArgument
  else .ok ⟨driver, driver.device.sectorSize, driver.device.sectorCount⟩

/-- The arguments that the VFS refuses. -/
def vfsRejects (total lba : U64) (count : U32) : Prop :=
  count = 0 ∨ total ≤ lba ∨ total - lba < count.setWidth 64

instance (total lba : U64) (count : U32) : Decidable (vfsRejects total lba count) :=
  inferInstanceAs (Decidable (_ ∨ _))

/-- What the VFS makes of the status of a driver. -/
def vfsStatus : BlockStatus → Except VfsStatus Unit
  | .ok => .ok ()
  | _ => .error .ioError

/-- `sb_vfs_read_sectors`, with the buffer it leaves behind. -/
def sbVfsReadSectors (mount : Mounted σ) (lba : U64) (count : U32) (buffer : Mem) (s : σ) :
    (Except VfsStatus Unit × Mem) × σ :=
  if vfsRejects mount.totalSectors lba count then ((.error .invalidArgument, buffer), s)
  else
    let r := mount.driver.read lba count buffer s
    ((vfsStatus r.1.1, r.1.2), r.2)

/-- `sb_vfs_write_sectors`. -/
def sbVfsWriteSectors (mount : Mounted σ) (lba : U64) (count : U32) (buffer : Mem) (s : σ) :
    Except VfsStatus Unit × σ :=
  if vfsRejects mount.totalSectors lba count then (.error .invalidArgument, s)
  else
    let r := mount.driver.write lba count buffer s
    (vfsStatus r.1, r.2)

/-- A call of the VFS: its status, and the buffer after a read. -/
def vfsStep (mount : Mounted σ) (s : σ) : DiskCall → (Except VfsStatus Unit × Option Mem) × σ
  | .read lba count buffer =>
    let r := sbVfsReadSectors mount lba count buffer s
    ((r.1.1, some r.1.2), r.2)
  | .write lba count buffer =>
    let r := sbVfsWriteSectors mount lba count buffer s
    ((r.1, none), r.2)

/-! ### The store -/

/-- A store of `total` sectors that moves at most `most` of them at a time. -/
def storeStep (total : U64) (most : ℕ) (disk : Mem) :
    DiskCall → (Except VfsStatus Unit × Option Mem) × Mem
  | .read lba count buffer =>
    if vfsRejects total lba count then ((.error .invalidArgument, some buffer), disk)
    else if most < count.toNat then ((.error .ioError, some buffer), disk)
    else ((.ok (), some (copy buffer 0 disk (512 * lba.toNat) (512 * count.toNat))), disk)
  | .write lba count buffer =>
    if vfsRejects total lba count then ((.error .invalidArgument, none), disk)
    else if most < count.toNat then ((.error .ioError, none), disk)
    else ((.ok (), none), copy disk (512 * lba.toNat) buffer 0 (512 * count.toNat))

/-- The driver does on its states what the store does on the disks that `R` relates to them. -/
structure Serves (driver : Driver σ) (most : ℕ) (R : σ → Mem → Prop) : Prop where
  read : ∀ {s disk lba count} (buffer : Mem), R s disk →
    ¬ vfsRejects driver.device.sectorCount lba count → let r := driver.read lba count buffer s
    R r.2 disk ∧ if most < count.toNat then r.1.1 ≠ .ok ∧ r.1.2 = buffer
      else r.1 = (.ok, copy buffer 0 disk (512 * lba.toNat) (512 * count.toNat))
  write : ∀ {s disk lba count} (buffer : Mem), R s disk →
    ¬ vfsRejects driver.device.sectorCount lba count → let r := driver.write lba count buffer s
    if most < count.toNat then r.1 ≠ .ok ∧ R r.2 disk
      else r.1 = .ok ∧ R r.2 (copy disk (512 * lba.toNat) buffer 0 (512 * count.toNat))

/-- Every failure of the device becomes an I/O error. -/
theorem vfsStatus_of_ne {status : BlockStatus} (h : status ≠ .ok) :
    vfsStatus status = .error .ioError := by
  cases status with
  | ok => exact absurd rfl h
  | invalidArgument => rfl
  | notReady => rfl

/-- A mount keeps the device and its size. -/
theorem sbVfsMount_ok {driver : Driver σ} {mount : Mounted σ} (h : sbVfsMount driver = .ok mount) :
    mount = ⟨driver, driver.device.sectorSize, driver.device.sectorCount⟩ := by
  unfold sbVfsMount at h
  split_ifs at h
  exact (Except.ok.inj h).symm

/-- Over a driver that serves, one call of the VFS is one call of the store. -/
theorem Serves.vfsStep {driver : Driver σ} {most : ℕ} {R : σ → Mem → Prop}
    (hdriver : Serves driver most R) {mount : Mounted σ} (hmount : sbVfsMount driver = .ok mount)
    {s : σ} {disk : Mem} (call : DiskCall) (hs : R s disk) :
    (vfsStep mount s call).1 = (storeStep driver.device.sectorCount most disk call).1 ∧
      R (vfsStep mount s call).2 (storeStep driver.device.sectorCount most disk call).2 := by
  obtain rfl := sbVfsMount_ok hmount
  cases call with
  | read lba count buffer =>
    rw [Block.vfsStep, storeStep, sbVfsReadSectors]
    by_cases hcall : vfsRejects driver.device.sectorCount lba count
    · rw [if_pos hcall, if_pos hcall]
      exact ⟨rfl, hs⟩
    · rw [if_neg hcall, if_neg hcall]
      obtain ⟨hafter, hread⟩ := hdriver.read buffer hs hcall
      by_cases hmost : most < count.toNat
      · rw [if_pos hmost] at hread ⊢
        refine ⟨?_, hafter⟩
        dsimp only
        rw [vfsStatus_of_ne hread.1, hread.2]
      · rw [if_neg hmost] at hread ⊢
        refine ⟨?_, hafter⟩
        dsimp only
        rw [hread]
        rfl
  | write lba count buffer =>
    rw [Block.vfsStep, storeStep, sbVfsWriteSectors]
    by_cases hcall : vfsRejects driver.device.sectorCount lba count
    · rw [if_pos hcall, if_pos hcall]
      exact ⟨rfl, hs⟩
    · rw [if_neg hcall, if_neg hcall]
      have hwrite := hdriver.write buffer hs hcall
      by_cases hmost : most < count.toNat
      · rw [if_pos hmost] at hwrite ⊢
        refine ⟨?_, hwrite.2⟩
        dsimp only
        rw [vfsStatus_of_ne hwrite.1]
      · rw [if_neg hmost] at hwrite ⊢
        refine ⟨?_, hwrite.2⟩
        dsimp only
        rw [hwrite.1]
        rfl

/-- **The VFS refines the store.**  Every run of calls over a driver that serves gives the statuses
and the bytes of the store. -/
theorem Serves.run {driver : Driver σ} {most : ℕ} {R : σ → Mem → Prop}
    (hdriver : Serves driver most R) {mount : Mounted σ} (hmount : sbVfsMount driver = .ok mount)
    {s : σ} {disk : Mem} (hs : R s disk) (calls : List DiskCall) :
    outputs (Block.vfsStep mount) s calls =
      outputs (storeStep driver.device.sectorCount most) disk calls ∧
      R (Runs.run (Block.vfsStep mount) s calls)
        (Runs.run (storeStep driver.device.sectorCount most) disk calls) :=
  run_simulation (fun _ _ call h => hdriver.vfsStep hmount call h) calls hs

/-- A request is let through when it is inside the volume and not empty. -/
theorem not_vfsRejects_iff {total lba : U64} {count : U32} : ¬ vfsRejects total lba count ↔
    0 < count.toNat ∧ lba.toNat + count.toNat ≤ total.toNat := by
  unfold vfsRejects
  bv_omega

/-! ### The ATA driver -/

/-- The ATA driver on a bus; its state is what has happened on the ports. -/
def ataDriver (bus : Bus) (device : BlockDevice) : Driver (List Event) where
  device := device
  read lba count buffer h := ataRead bus device lba count buffer h
  write lba count buffer h :=
    ((ataWrite bus device lba count buffer h).1.1, (ataWrite bus device lba count buffer h).2)

/-- Past the VFS, the driver refuses exactly the calls for more than 255 sectors. -/
theorem ataRejects_iff {device : BlockDevice} {lba : U64} {count : U32}
    (hvfs : ¬ vfsRejects device.sectorCount lba count) :
    ataRejects device lba count ↔ 255 < count.toNat := by
  obtain ⟨hpos, hfits⟩ := not_vfsRejects_iff.1 hvfs
  rw [← not_iff_not, not_ataRejects_iff]
  omega

/-- A drive behind `ata_pio.c` serves its sectors. -/
theorem ata_serves (D : DriveModel) (d₀ : Drive) (hsmall : D.size.toNat ≤ 2 ^ 28) :
    Serves (ataDriver (D.device.bus d₀) D.registered) 255 fun h disk =>
    Rests disk (D.device.after d₀ h) := by
  have hcount : D.registered.sectorCount.toNat = D.size.toNat := by
    rw [DriveModel.registered, BitVec.toNat_setWidth,
      Nat.mod_eq_of_lt (D.size.isLt.trans (by decide))]
  constructor
  · intro h disk lba count buffer hrest hvfs
    have hiff : ataRejects D.registered lba count ↔ 255 < count.toNat := ataRejects_iff hvfs
    by_cases hcall : ataRejects D.registered lba count
    · simp only [ataDriver, ataRead, if_pos hcall, if_pos (hiff.1 hcall), pure_apply]
      exact ⟨hrest, by decide, trivial⟩
    · obtain ⟨hok, hafter⟩ := triple_ataRead rfl hcount hsmall hcall buffer h hrest
      simp only [if_neg fun h => hcall (hiff.2 h)]
      exact ⟨hafter, hok⟩
  · intro h disk lba count buffer hrest hvfs
    have hiff : ataRejects D.registered lba count ↔ 255 < count.toNat := ataRejects_iff hvfs
    by_cases hcall : ataRejects D.registered lba count
    · simp only [ataDriver, ataWrite, if_pos hcall, if_pos (hiff.1 hcall), pure_apply]
      exact ⟨by decide, hrest⟩
    · obtain ⟨hok, hafter⟩ := triple_ataWrite rfl hcount hsmall hcall buffer h hrest
      simp only [if_neg fun h => hcall (hiff.2 h)]
      exact ⟨hok, hafter⟩

/-! ### The memory disks -/

/-- A loop that moves `n` bytes, with its counter `i`. -/
def moveBytes {w : ℕ} (dstAt srcAt : BitVec w → ℕ) (src : Mem) : ℕ → BitVec w → Mem → Mem
  | 0, _, dst => dst
  | n + 1, i, dst => moveBytes dstAt srcAt src n (i + 1) (write8 dst (dstAt i) (src (srcAt i)))

/-- The loop copies, as long as its counter does not wrap around. -/
theorem moveBytes_eq {w : ℕ} {dstAt srcAt : BitVec w → ℕ} {a b n : ℕ} (hn : n < 2 ^ w)
    (hto : ∀ i, i.toNat < n → dstAt i = a + i.toNat) (hfrom : ∀ i, i.toNat < n →
      srcAt i = b + i.toNat) (src dst : Mem) :
    moveBytes dstAt srcAt src n 0 dst = copy dst a src b n := by
  -- induction on the bytes to go, with `k` of them moved
  suffices h : ∀ m k, k + m = n → ∀ dst', dst' = copy dst a src b k →
      moveBytes dstAt srcAt src m (BitVec.ofNat w k) dst' = copy dst a src b n by
    have h₀ := h n 0 (Nat.zero_add n) dst (copy_zero ..).symm
    exact h₀
  intro m
  induction m with
  | zero =>
    rintro k rfl dst' rfl
    rfl
  | succ m ih =>
    rintro k hk dst' rfl
    have hlt : k < 2 ^ w := by omega
    have hcounter : (BitVec.ofNat w k).toNat = k := by rw [BitVec.toNat_ofNat, Nat.mod_eq_of_lt hlt]
    have hnext : BitVec.ofNat w k + 1 = BitVec.ofNat w (k + 1) := (BitVec.ofNat_add ..).symm
    rw [moveBytes, hnext, hto _ (by omega), hfrom _ (by omega), hcounter]
    refine ih (k + 1) (by omega) _ ?_
    rw [write8_eq_copy, copy_copy]

/-- The memory disk of `block.c`: `test_disk_read` there. -/
def blockTestRead (device : BlockDevice) (lba : U64) (count : U32) (buffer disk : Mem) :
    (BlockStatus × Mem) × Mem :=
  if count = 0 ∨ device.sectorCount ≤ lba ∨ device.sectorCount - lba < count.setWidth 64 then
    ((.invalidArgument, buffer), disk)
  else
    let offset : U64 := lba * device.sectorSize.setWidth 64
    let length : U64 := count.setWidth 64 * device.sectorSize.setWidth 64
    ((.ok, moveBytes (fun i : U64 => i.toNat) (fun i => (offset + i).toNat) disk length.toNat 0
      buffer), disk)

/-- `test_disk_write` of `block.c`. -/
def blockTestWrite (device : BlockDevice) (lba : U64) (count : U32) (buffer disk : Mem) :
    BlockStatus × Mem :=
  if count = 0 ∨ device.sectorCount ≤ lba ∨ device.sectorCount - lba < count.setWidth 64 then
    (.invalidArgument, disk)
  else
    let offset : U64 := lba * device.sectorSize.setWidth 64
    let length : U64 := count.setWidth 64 * device.sectorSize.setWidth 64
    (.ok, moveBytes (fun i : U64 => (offset + i).toNat)
      (fun i => i.toNat) buffer length.toNat 0 disk)

/-- `test_disk_read` of `storage_selftest.c`: the numbers are constants, and the counter has 32
bits. -/
def storageTestRead (lba : U64) (count : U32) (buffer disk : Mem) : (BlockStatus × Mem) × Mem :=
  -- `SB_STORAGE_TEST_SECTORS` and `SB_BLOCK_SECTOR_SIZE`
  if count = 0 ∨ 8 ≤ lba ∨ 8 - lba < count.setWidth 64 then ((.invalidArgument, buffer), disk)
  else
    let offset : U64 := lba * 512
    ((.ok, moveBytes (fun i : U32 => i.toNat) (fun i => (offset + i.setWidth 64).toNat) disk
      (count * 512).toNat 0 buffer), disk)

/-- `test_disk_write` of `storage_selftest.c`. -/
def storageTestWrite (lba : U64) (count : U32) (buffer disk : Mem) : BlockStatus × Mem :=
  if count = 0 ∨ 8 ≤ lba ∨ 8 - lba < count.setWidth 64 then (.invalidArgument, disk)
  else
    let offset : U64 := lba * 512
    (.ok, moveBytes (fun i : U32 => (offset + i.setWidth 64).toNat)
      (fun i => i.toNat) buffer (count * 512).toNat 0 disk)

/-- The device of `sb_block_selftest`. -/
def blockTestDriver : Driver Mem where
  device := ⟨"memory-test", 8, 512⟩
  read := blockTestRead ⟨"memory-test", 8, 512⟩
  write := blockTestWrite ⟨"memory-test", 8, 512⟩

/-- `g_test_disk_device` of `storage_selftest.c`. -/
def storageTestDriver : Driver Mem where
  device := ⟨"memtest0", 8, 512⟩
  read := storageTestRead
  write := storageTestWrite

/-- The places in a memory disk of eight sectors. -/
theorem offset_eq {lba : U64} {count : U32} (hfits : lba.toNat + count.toNat ≤ 8) :
    (lba * 512).toNat = 512 * lba.toNat ∧
      (count.setWidth 64 * 512 : U64).toNat = 512 * count.toNat ∧
      (count * 512).toNat = 512 * count.toNat := by
  have hwide : (count.setWidth 64).toNat = count.toNat := by
    rw [BitVec.toNat_setWidth, Nat.mod_eq_of_lt (by omega)]
  refine ⟨?_, ?_, ?_⟩
  · rw [BitVec.toNat_mul]
    change lba.toNat * 512 % 2 ^ 64 = _
    omega
  · rw [BitVec.toNat_mul, hwide]
    change count.toNat * 512 % 2 ^ 64 = _
    omega
  · rw [BitVec.toNat_mul]
    change count.toNat * 512 % 2 ^ 32 = _
    omega

section TestDisks

variable {lba : U64} {count : U32} (hcall : ¬ vfsRejects 8 lba count)

include hcall

/-- What is let through is inside the eight sectors. -/
theorem fits_of_call : lba.toNat + count.toNat ≤ 8 :=
  (not_vfsRejects_iff.1 hcall).2

/-- The test driver copies out of its sectors. -/
theorem blockTestRead_eq (buffer disk : Mem) (name : String) :
    blockTestRead ⟨name, 8, 512⟩ lba count buffer disk =
      ((.ok, copy buffer 0 disk (512 * lba.toNat) (512 * count.toNat)), disk) := by
  have hfits := fits_of_call hcall
  obtain ⟨hoffset, hlength, -⟩ := offset_eq hfits
  refine (if_neg hcall).trans ?_
  change ((_, moveBytes _ _ _ (count.setWidth 64 * 512 : U64).toNat 0 _), _) = _
  rw [hlength, moveBytes_eq (a := 0) (b := 512 * lba.toNat) (by omega)
    (fun i _ => (Nat.zero_add _).symm)]
  intro i hi
  change (lba * 512 + i).toNat = _
  rw [BitVec.toNat_add, hoffset]
  omega

/-- It copies into its sectors. -/
theorem blockTestWrite_eq (buffer disk : Mem) (name : String) :
    blockTestWrite ⟨name, 8, 512⟩ lba count buffer disk =
      (.ok, copy disk (512 * lba.toNat) buffer 0 (512 * count.toNat)) := by
  have hfits := fits_of_call hcall
  obtain ⟨hoffset, hlength, -⟩ := offset_eq hfits
  refine (if_neg hcall).trans ?_
  change (_, moveBytes _ _ _ (count.setWidth 64 * 512 : U64).toNat 0 _) = _
  rw [hlength, moveBytes_eq (a := 512 * lba.toNat) (b := 0) (by omega) ?_ fun i _ =>
    (Nat.zero_add _).symm]
  intro i hi
  change (lba * 512 + i).toNat = _
  rw [BitVec.toNat_add, hoffset]
  omega

/-- So does the driver of the storage test. -/
theorem storageTestRead_eq (buffer disk : Mem) :
    storageTestRead lba count buffer disk =
      ((.ok, copy buffer 0 disk (512 * lba.toNat) (512 * count.toNat)), disk) := by
  have hfits := fits_of_call hcall
  obtain ⟨hoffset, -, hlength⟩ := offset_eq hfits
  refine (if_neg hcall).trans ?_
  dsimp only
  rw [hlength, moveBytes_eq (a := 0) (b := 512 * lba.toNat) (by omega)
    (fun i _ => (Nat.zero_add _).symm)]
  intro i hi
  rw [BitVec.toNat_add, hoffset, BitVec.toNat_setWidth]
  omega

/-- It copies into its sectors too. -/
theorem storageTestWrite_eq (buffer disk : Mem) :
    storageTestWrite lba count buffer disk =
      (.ok, copy disk (512 * lba.toNat) buffer 0 (512 * count.toNat)) := by
  have hfits := fits_of_call hcall
  obtain ⟨hoffset, -, hlength⟩ := offset_eq hfits
  refine (if_neg hcall).trans ?_
  dsimp only
  rw [hlength, moveBytes_eq (a := 512 * lba.toNat) (b := 0) (by omega) ?_ fun i _ =>
    (Nat.zero_add _).symm]
  intro i hi
  rw [BitVec.toNat_add, hoffset, BitVec.toNat_setWidth]
  omega

/-- A call of the memory disks never asks for more than they have. -/
theorem not_most : ¬ 8 < count.toNat := by
  have hfits := fits_of_call hcall
  omega

end TestDisks

/-- The test driver serves its sectors. -/
theorem blockTest_serves : Serves blockTestDriver 8 (· = ·) := by
  constructor
  · rintro s disk lba count buffer rfl hcall
    dsimp only [blockTestDriver]
    rw [blockTestRead_eq hcall, if_neg (not_most hcall)]
    exact ⟨rfl, rfl⟩
  · rintro s disk lba count buffer rfl hcall
    dsimp only [blockTestDriver]
    rw [blockTestWrite_eq hcall, if_neg (not_most hcall)]
    exact ⟨rfl, rfl⟩

/-- So does the driver of the storage test. -/
theorem storageTest_serves : Serves storageTestDriver 8 (· = ·) := by
  constructor
  · rintro s disk lba count buffer rfl hcall
    dsimp only [storageTestDriver]
    rw [storageTestRead_eq hcall, if_neg (not_most hcall)]
    exact ⟨rfl, rfl⟩
  · rintro s disk lba count buffer rfl hcall
    dsimp only [storageTestDriver]
    rw [storageTestWrite_eq hcall, if_neg (not_most hcall)]
    exact ⟨rfl, rfl⟩

/-! ### Runs over the three drivers -/

/-- A drive with sectors is registered with a nonzero size. -/
theorem size_ne_zero {D : DriveModel} (hpos : 0 < D.size.toNat) :
    D.size.setWidth 64 ≠ 0 := fun hzero => by
  have hnat := congrArg BitVec.toNat hzero
  rw [BitVec.toNat_setWidth, Nat.mod_eq_of_lt (D.size.isLt.trans (by decide))] at hnat
  exact absurd hnat (Nat.ne_of_gt hpos)

/-- A device that the driver has registered mounts. -/
theorem sbVfsMount_ata {D : DriveModel} (d₀ : Drive) (hpos : 0 < D.size.toNat) :
    sbVfsMount (ataDriver (D.device.bus d₀) D.registered) =
      .ok ⟨ataDriver (D.device.bus d₀) D.registered, 512, D.size.setWidth 64⟩ :=
  if_neg (not_or.2 ⟨(by decide : (512 : U32) ≠ 0), size_ne_zero hpos⟩)

/-- **Storage on an ATA drive** of 1 to `2 ^ 28` sectors that keeps to the protocol.  The registered
device mounts, and every run of VFS calls on it answers what a store of that size answers, with the
bytes of the store on the medium in the end.  Only calls for more than 255 sectors inside the device
come back as I/O errors. -/
theorem vfs_on_ata (D : DriveModel) (d₀ : Drive) (hpos : 0 < D.size.toNat)
    (hsmall : D.size.toNat ≤ 2 ^ 28) {h : List Event} {disk : Mem}
    (hrest : Rests disk (D.device.after d₀ h)) (calls : List DiskCall) :
    ∃ mount, sbVfsMount (ataDriver (D.device.bus d₀) D.registered) = .ok mount ∧
      outputs (vfsStep mount) h calls = outputs (storeStep (D.size.setWidth 64) 255) disk calls ∧
      Rests (run (storeStep (D.size.setWidth 64) 255) disk calls)
        (D.device.after d₀ (run (vfsStep mount) h calls)) :=
  ⟨_, sbVfsMount_ata d₀ hpos, (ata_serves D d₀ hsmall).run (sbVfsMount_ata d₀ hpos) hrest calls⟩

/-- Two sectors written to the slow drive through the VFS, and the second one read back. -/
theorem vfs_on_slowDrive :
    ∃ mount dst, outputs (vfsStep (σ := List Event) mount) []
      [.write 1 2 countingBytes, .read 2 1 fun _ => 0] =
      [(.ok (), none), (.ok (), some dst)] ∧ dst 0xFF = 0xFF ∧ dst 0x200 = 0 := by
  obtain ⟨mount, -, hout, -⟩ :=
    vfs_on_ata slowDrive (driveAtRest fun _ => 0) (by decide) (by decide)
    (h := []) ⟨rfl, rfl, rfl⟩ [.write 1 2 countingBytes, .read 2 1 fun _ => 0]
  exact ⟨mount, _, hout, rfl, rfl⟩

/-- **The two memory disks are one.**  The disk of `block.c` and the disk of `storage_selftest.c`
mount, and every run of VFS calls gets the same answers from both, those of a store of eight
sectors, and leaves the same bytes on both. -/
theorem test_disks_alike (disk : Mem) (calls : List DiskCall) :
    ∃ mount mount', sbVfsMount blockTestDriver = .ok mount ∧
      sbVfsMount storageTestDriver = .ok mount' ∧
      outputs (vfsStep mount) disk calls = outputs (storeStep 8 8) disk calls ∧
      outputs (vfsStep mount') disk calls = outputs (storeStep 8 8) disk calls ∧
      run (vfsStep mount) disk calls = run (storeStep 8 8) disk calls ∧
      run (vfsStep mount') disk calls = run (storeStep 8 8) disk calls := by
  obtain ⟨hout, hrun⟩ := blockTest_serves.run rfl (rfl : disk = disk) calls
  obtain ⟨hout', hrun'⟩ := storageTest_serves.run rfl (rfl : disk = disk) calls
  exact ⟨_, _, rfl, rfl, hout, hout', hrun, hrun'⟩

/-! ### The self-tests -/

/-- `sb_block_get`. -/
def sbBlockGet (devices : List BlockDevice) (index : U32) : Option BlockDevice :=
  if devices.length ≤ index.toNat then none else devices[index.toNat]?

/-- `sb_block_count`. -/
def sbBlockCount (devices : List BlockDevice) : U32 := BitVec.ofNat 32 devices.length

/-- The pattern that a self-test writes, byte `i`. -/
def testPattern (key : U32) : Mem := fun i => (BitVec.ofNat 32 i ^^^ key).setWidth 8

/-- The last loop of both self-tests: the first 512 bytes are the same. -/
def sameSector (a b : Mem) : Bool := (List.range 512).all fun i => a i == b i

/-- `sb_block_selftest`, with the device table and the memory disk it leaves behind.  The functions
of the device it gets back are those of the device it has registered. -/
def sbBlockSelftest (devices : List BlockDevice) (disk : Mem) :
    BlockStatus × List BlockDevice × Mem :=
  match sbBlockRegister devices blockTestDriver.device with
  | (.ok, devices) =>
    match sbBlockGet devices (sbBlockCount devices - 1) with
    | none => (.notReady, devices, disk)
    | some device =>
      let written := blockTestWrite device 2 1 (testPattern 0xA5) disk
      let read := blockTestRead device 2 1 (fun _ => 0) written.2
      if written.1 ≠ .ok then (.notReady, devices, written.2)
      else if read.1.1 ≠ .ok then (.notReady, devices, read.2)
      else if sameSector read.1.2 (testPattern 0xA5) then (.ok, devices, read.2)
      else (.invalidArgument, devices, read.2)
  | (_, devices) => (.invalidArgument, devices, disk)

/-- `sb_storage_selftest`. -/
def sbStorageSelftest (devices : List BlockDevice) (disk : Mem) : ℤ × List BlockDevice × Mem :=
  match sbBlockRegister devices storageTestDriver.device with
  | (.ok, devices) =>
    match sbVfsMount storageTestDriver with
    | .error _ => (0, devices, disk)
    | .ok mount =>
      let written := sbVfsWriteSectors mount 2 1 (testPattern 0x5A) disk
      match written.1 with
      | .error _ => (0, devices, written.2)
      | .ok () =>
        let read := sbVfsReadSectors mount 2 1 (fun _ => 0) written.2
        match read.1.1 with
        | .error _ => (0, devices, read.2)
        | .ok () => (if sameSector read.1.2 (testPattern 0x5A) then 1 else 0, devices, read.2)
  | (_, devices) => (0, devices, disk)

/-- A device is registered while there is room. -/
theorem sbBlockRegister_eq {devices : List BlockDevice} {device : BlockDevice}
    (hsize : device.sectorSize ≠ 0) (hcount : device.sectorCount ≠ 0) :
    sbBlockRegister devices device =
      if devices.length < 16 then (.ok, devices ++ [device]) else (.invalidArgument, devices) := by
  rw [sbBlockRegister]
  by_cases hroom : devices.length < 16
  · rw [if_pos hroom, if_neg (not_or.2 ⟨hsize, not_or.2 ⟨hcount, Nat.not_le.2 hroom⟩⟩)]
  · rw [if_neg hroom, if_pos (Or.inr (Or.inr (Nat.not_lt.1 hroom)))]

/-- The device registered last. -/
theorem sbBlockGet_last {devices : List BlockDevice} (hroom : devices.length < 16)
    (device : BlockDevice) :
    sbBlockGet (devices ++ [device]) (sbBlockCount (devices ++ [device]) - 1) = some device := by
  have hlen : (devices ++ [device]).length = devices.length + 1 := by
    rw [List.length_append, List.length_singleton]
  have hindex : (sbBlockCount (devices ++ [device]) - 1).toNat = devices.length := by
    rw [sbBlockCount, hlen]
    bv_omega
  rw [sbBlockGet, hindex, hlen, if_neg (by omega), List.getElem?_concat_length]

/-- A sector that has been written is the same when it is read back. -/
theorem sameSector_copy (buffer disk pattern : Mem) (a : ℕ) :
    sameSector (copy buffer 0 (copy disk a pattern 0 512) a 512) pattern = true := by
  refine List.all_eq_true.2 fun i hi => beq_iff_eq.2 ?_
  have hi := List.mem_range.1 hi
  have hout := copy_of_inside buffer (copy disk a pattern 0 512) (a := 0) (b := a) hi
  have hin := copy_of_inside disk pattern (a := a) (b := 0) hi
  rw [Nat.zero_add] at hout hin
  rw [hout, hin]

/-- The block test with room for its device. -/
theorem sbBlockSelftest_eq {devices : List BlockDevice} (hroom : devices.length < 16) (disk : Mem) :
    sbBlockSelftest devices disk =
      (.ok, devices ++ [blockTestDriver.device], copy disk 1024 (testPattern 0xA5) 0 512) := by
  have hcall : ¬ vfsRejects 8 2 1 := by decide
  have hwrite : blockTestWrite blockTestDriver.device 2 1 (testPattern 0xA5) disk =
      (.ok, copy disk 1024 (testPattern 0xA5) 0 512) := blockTestWrite_eq hcall _ _ _
  have hread : ∀ disk, blockTestRead blockTestDriver.device 2 1 (fun _ => 0) disk =
      ((.ok, copy (fun _ => 0) 0 disk 1024 512), disk) := fun _ => blockTestRead_eq hcall _ _ _
  simp only [sbBlockSelftest, sbBlockRegister_eq (by decide : blockTestDriver.device.sectorSize ≠ 0)
    (by decide), if_pos hroom, sbBlockGet_last hroom, hwrite, hread, ne_eq, not_true_eq_false,
    if_false, sameSector_copy, if_true]

/-- The storage test with room for its device. -/
theorem sbStorageSelftest_eq {devices : List BlockDevice} (hroom : devices.length < 16)
    (disk : Mem) : sbStorageSelftest devices disk =
      (1, devices ++ [storageTestDriver.device], copy disk 1024 (testPattern 0x5A) 0 512) := by
  have hcall : ¬ vfsRejects 8 2 1 := by decide
  have hmount : sbVfsMount storageTestDriver = .ok ⟨storageTestDriver, 512, 8⟩ := rfl
  have hwrite : sbVfsWriteSectors ⟨storageTestDriver, 512, 8⟩ 2 1 (testPattern 0x5A) disk =
      (.ok (), copy disk 1024 (testPattern 0x5A) 0 512) := by
    have hdriver := storageTestWrite_eq hcall (testPattern 0x5A) disk
    rw [sbVfsWriteSectors, if_neg hcall]
    dsimp only [storageTestDriver]
    rw [hdriver]
    rfl
  have hread : ∀ disk, sbVfsReadSectors ⟨storageTestDriver, 512, 8⟩ 2 1 (fun _ => 0) disk =
      ((.ok (), copy (fun _ => 0) 0 disk 1024 512), disk) := fun disk => by
    have hdriver := storageTestRead_eq hcall (fun _ => 0) disk
    rw [sbVfsReadSectors, if_neg hcall]
    dsimp only [storageTestDriver]
    rw [hdriver]
    rfl
  simp only [sbStorageSelftest,
    sbBlockRegister_eq (by decide : storageTestDriver.device.sectorSize ≠ 0) (by decide),
    if_pos hroom, hmount, hwrite, hread, sameSector_copy, if_true]

/-- **The storage self-tests.**  Whatever is registered and whatever is on the memory disks, each
test passes exactly if the table of devices has room for one more, and then it has registered its
device and changed sector 2 of its disk, and nothing else. -/
theorem storage_selftests (devices : List BlockDevice) (disk : Mem) :
    sbBlockSelftest devices disk =
      (if devices.length < 16 then
        (.ok, devices ++ [blockTestDriver.device], copy disk 1024 (testPattern 0xA5) 0 512)
      else (.invalidArgument, devices, disk)) ∧
    sbStorageSelftest devices disk =
      (if devices.length < 16 then
        (1, devices ++ [storageTestDriver.device], copy disk 1024 (testPattern 0x5A) 0 512)
      else (0, devices, disk)) := by
  by_cases hroom : devices.length < 16
  · rw [if_pos hroom, if_pos hroom]
    exact ⟨sbBlockSelftest_eq hroom disk, sbStorageSelftest_eq hroom disk⟩
  · have hfull : ∀ device : BlockDevice, device.sectorSize ≠ 0 → device.sectorCount ≠ 0 →
        sbBlockRegister devices device = (.invalidArgument, devices) := by
      intro device hsize hcount
      rw [sbBlockRegister_eq hsize hcount, if_neg hroom]
    rw [if_neg hroom, if_neg hroom, sbBlockSelftest, sbStorageSelftest, hfull _ (by decide)
      (by decide), hfull _ (by decide) (by decide)]
    exact ⟨rfl, rfl⟩

end SuiraBox.Block
