/-
# What a mount takes for granted

`sb_fat32_mount` checks a boot sector and leaves a few of its fields aside: the number of
FATs is taken to be two, the number of sectors that the volume gives itself is compared
with zero only, and the root cluster with two only.  The device's sector size is compared
with the 512 bytes of the buffers, but from below.

The two results are equivalences: which boot sectors, and which devices, the reader treats
as they are.
-/

import SuiraBox.Fs.SectorReads

namespace SuiraBox.Fs

open ByteMem Mm Trace Runs

variable {device : BlockDevice} {mount : VfsMount} {fs : Fat32} {boot : Mem} {c : U32} {fuel : ℕ}

/-- A mount has the size of the device, which is not zero. -/
theorem sbVfsMount_eq_ok (h : sbVfsMount device = .ok mount) :
    mount = ⟨device, device.sectorSize, device.sectorCount⟩ ∧ device.sectorCount ≠ 0 := by
  unfold sbVfsMount at h
  split_ifs at h with hzero
  exact ⟨(Except.ok.inj h).symm, fun hcount => hzero (Or.inr hcount)⟩

/-! ### The geometry of the volume -/

/-- The geometry that a boot sector describes. -/
structure BootGeometry where
  sectorsPerCluster : ℕ
  reserved : ℕ
  fats : ℕ
  total : ℕ
  fatSize : ℕ
  rootCluster : ℕ

/-- Its fields, with their places in the sector. -/
def bootGeometry (boot : Mem) : BootGeometry where
  sectorsPerCluster := (boot 13).toNat
  reserved := (le16 boot 14).toNat
  fats := (boot 16).toNat
  total := (le32 boot 32).toNat
  fatSize := (le32 boot 36).toNat
  rootCluster := (le32 boot 44).toNat

namespace BootGeometry

variable (g : BootGeometry)

/-- The sector after the FATs. -/
def dataStart : ℕ := g.reserved + g.fats * g.fatSize

/-- The first sector of the root directory. -/
def rootSector : ℕ := g.dataStart + (g.rootCluster - 2) * g.sectorsPerCluster

/-- The number of sectors of the volume on a device of `count` sectors. -/
def sectors (count : ℕ) : ℕ := if g.total = 0 then count else min g.total count

end BootGeometry

/-- The data of the mounted volume begin where its boot sector says, and the FATs and the first
sector of the root directory are inside the volume. -/
structure Honours (fs : Fat32) (g : BootGeometry) (count : ℕ) : Prop where
  data : fs.firstDataSector.toNat = g.dataStart
  fats : g.dataStart ≤ g.sectors count
  root : g.rootSector < g.sectors count

/-- The first data sector in the numbers of the boot sector. -/
theorem firstData_of_mount (hvfs : sbVfsMount device = .ok mount)
    (hboot : device.read 0 1 = some boot) (hmount : (sbFat32Mount mount).value = some fs) :
    fs.firstDataSector.toNat = (bootGeometry boot).reserved + 2 * (bootGeometry boot).fatSize ∧
      0 < (bootGeometry boot).fatSize := by
  obtain ⟨geo, -⟩ := geometry_of_mount hmount
  obtain ⟨boot', hread, hok, rfl⟩ := sbFat32Mount_eq_some_iff.1 hmount
  obtain ⟨rfl, hcount⟩ := sbVfsMount_eq_ok hvfs
  obtain rfl : boot = boot' := by
    have hroom : ¬ (device.sectorCount ≤ 0 ∨ device.sectorCount - 0 < (1 : U32).setWidth 64) := by
      bv_omega
    rw [readSector, value_tell, sbVfsReadSectors, if_neg (by decide), if_neg hroom, hboot] at hread
    exact Option.some.inj hread
  refine ⟨geo.firstData.trans (congrArg (· + _) ?_), hok.fat⟩
  exact BitVec.toNat_setWidth_of_le (by decide)

/-- **When a mount follows the boot sector.**  It does if and only if there are two FATs, and the
root directory begins inside the volume. -/
theorem geometry_honoured_iff (hvfs : sbVfsMount device = .ok mount)
    (hboot : device.read 0 1 = some boot) (hmount : (sbFat32Mount mount).value = some fs) :
    Honours fs (bootGeometry boot) device.sectorCount.toNat ↔
      (bootGeometry boot).fats = 2 ∧
        (bootGeometry boot).rootSector < (bootGeometry boot).sectors device.sectorCount.toNat := by
  obtain ⟨hfirst, hpos⟩ := firstData_of_mount hvfs hboot hmount
  generalize bootGeometry boot = g at *
  have hdata : fs.firstDataSector.toNat = g.dataStart ↔ g.fats = 2 := by
    rw [hfirst, BootGeometry.dataStart, Nat.add_left_cancel_iff, Nat.mul_left_inj (by omega),
      eq_comm]
  constructor
  · intro h
    exact ⟨hdata.1 h.data, h.root⟩
  · rintro ⟨htwo, hroot⟩
    exact ⟨hdata.2 htwo, (Nat.le_add_right _ _).trans hroot.le, hroot⟩

/-- The small disk with the number of its FATs. -/
def fatsImage (fats : U8) : Mem := write8 smallImage 16 fats

/-- A volume with two FATs is read as it was made. -/
theorem twoFats_honoured :
    Honours (diskVolume 1 (fatsImage 2) 8) (bootGeometry (sectorsOf (fatsImage 2) 0)) 8 := by
  have hvfs : sbVfsMount (diskDevice (fatsImage 2) 8) = .ok (diskMount (fatsImage 2) 8) := rfl
  exact (geometry_honoured_iff hvfs rfl rfl).2 ⟨rfl, by decide⟩

/-- A volume with one FAT is mounted, with data that begin one sector late. -/
theorem oneFat_misplaced :
    sbVfsMount (diskDevice (fatsImage 1) 8) = .ok (diskMount (fatsImage 1) 8) ∧
    (sbFat32Mount (diskMount (fatsImage 1) 8)).value = some (diskVolume 1 (fatsImage 1) 8) ∧
    ¬ Honours (diskVolume 1 (fatsImage 1) 8) (bootGeometry (sectorsOf (fatsImage 1) 0)) 8 := by
  refine ⟨rfl, rfl, fun h => ?_⟩
  exact absurd (h.data : 3 = 2) (by decide)

/-! ### The buffers -/

/-- The number of bytes that the driver delivers. -/
def SectorRead.bytes (device : BlockDevice) (e : SectorRead) : ℕ :=
  e.count.toNat * device.sectorSize.toNat

/-- They fit into a buffer of the reader. -/
def SectorRead.Fits (device : BlockDevice) (e : SectorRead) : Prop :=
  -- `SB_FAT32_SECTOR_BYTES`
  e.bytes device ≤ 512

/-- The read of one sector. -/
def SectorRead.Single (e : SectorRead) : Prop := e.count = 1

/-- Following a link reads single sectors. -/
theorem single_followLink : Safe SectorRead.Single (followLink fs c) := by
  have hnext : Safe SectorRead.Single (fatNextCluster fs c) := by
    unfold fatNextCluster
    exact safe_ite (fun _ => safe_pure _) fun _ =>
      safe_onSome.2 ⟨(safe_readSector ..).2 rfl, fun _ _ => safe_pure _⟩
  refine safe_onSome.2 ⟨hnext, fun next _ => ?_⟩
  exact safe_ite (fun _ => safe_pure _) fun _ => safe_pure _

/-- So does the walk along the chain. -/
theorem single_seek {unit rem : U32} : Safe SectorRead.Single (seek fs unit fuel c rem) := by
  induction fuel generalizing c rem with
  | zero => exact safe_pure _
  | succ fuel ih =>
    refine safe_ite (fun _ => ?_) fun _ => safe_pure _
    exact safe_onSome.2 ⟨single_followLink, fun next _ => ih⟩

/-- So does the copy. -/
theorem single_copyLoop {clusterSize offset remaining : U32} {pos : ℕ} {dst : Mem} :
    Safe SectorRead.Single (copyLoop fs clusterSize fuel c offset remaining pos dst) := by
  induction fuel generalizing c offset remaining pos dst with
  | zero => exact safe_pure _
  | succ fuel ih =>
    refine safe_ite (fun _ => safe_pure _) fun _ => ?_
    refine safe_onSome.2 ⟨(safe_readSector ..).2 rfl, fun sector _ => ?_⟩
    refine safe_ite (fun _ => ?_) fun _ => ih
    exact safe_onSome.2 ⟨single_followLink, fun next _ => ih⟩

/-- **Every call reads sector by sector.** -/
theorem single_run (call : FatCall) : Safe SectorRead.Single (call.run fs fuel) := by
  cases call with
  | rootEntry index entry =>
    refine (safe_bind ..).2 ⟨safe_ite (fun _ => safe_pure _) fun _ => ?_, safe_pure _⟩
    refine safe_onSome.2 ⟨single_seek, fun found _ => ?_⟩
    rcases found with _ | ⟨cluster, remaining⟩
    · exact safe_pure _
    · refine safe_onSome.2 ⟨(safe_readSector ..).2 rfl, fun sector _ => ?_⟩
      exact safe_ite (fun _ => safe_pure _) fun _ => safe_pure _
  | readFile entry offset length buffer =>
    refine (safe_bind ..).2 ⟨safe_ite (fun _ => safe_pure _) fun _ => ?_, safe_pure _⟩
    refine safe_ite (fun _ => safe_pure _) fun _ => safe_onSome.2 ⟨single_seek, fun found _ => ?_⟩
    rcases found with _ | ⟨cluster, remaining⟩
    · exact safe_pure _
    · exact single_copyLoop

/-- Mounting makes one read, of the boot sector, unless the sectors are small. -/
theorem safe_sbFat32Mount {P : SectorRead → Prop} :
    Safe P (sbFat32Mount mount) ↔ (512 ≤ mount.sectorSize.toNat → P ⟨.boot, 0, 1⟩) := by
  unfold sbFat32Mount
  rcases Nat.lt_or_ge mount.sectorSize.toNat 512 with hlt | hge
  · rw [if_pos (by bv_omega)]
    exact ⟨fun _ hge => absurd hlt (Nat.not_lt.2 hge), fun _ => safe_pure _⟩
  · rw [if_neg (by bv_omega), safe_onSome, safe_readSector, forall_prop_of_true hge]
    refine and_iff_left fun boot _ => ?_
    exact safe_ite (fun _ => safe_pure _) fun _ => safe_ite (fun _ => safe_pure _) fun _ =>
      safe_ite (fun _ => safe_pure _) fun _ => safe_ite (fun _ => safe_pure _) fun _ => safe_pure _

/-- A single sector fits in the buffer unless the device has larger sectors. -/
theorem fits_iff_of_single {e : SectorRead} (h : e.Single) :
    e.Fits device ↔ device.sectorSize.toNat ≤ 512 := by
  rw [SectorRead.Fits, SectorRead.bytes, h, show (1 : U32).toNat = 1 from rfl, Nat.one_mul]

/-- **When the reads fit their buffers.**  All reads of a mount and of the calls on the mounted
volume do if and only if the sectors of the device have 512 bytes at most. -/
theorem reads_fit_iff (hvfs : sbVfsMount device = .ok mount) :
    (Safe (SectorRead.Fits device) (sbFat32Mount mount) ∧
      ∀ fs, (sbFat32Mount mount).value = some fs → ∀ call fuel,
        Safe (SectorRead.Fits device) (FatCall.run fs fuel call)) ↔
      device.sectorSize.toNat ≤ 512 := by
  have hsize : mount.sectorSize = device.sectorSize := by rw [(sbVfsMount_eq_ok hvfs).1]
  have hboot : (⟨.boot, 0, 1⟩ : SectorRead).Single := rfl
  rw [safe_sbFat32Mount, hsize, fits_iff_of_single hboot]
  constructor
  · rintro ⟨hmount, -⟩
    rcases Nat.le_total device.sectorSize.toNat 512 with hle | hge
    · exact hle
    · exact hmount hge
  · intro hle
    refine ⟨fun _ => hle, fun fs _ call fuel => ?_⟩
    exact (single_run call).mono fun e he => (fits_iff_of_single he).2 hle

/-- All reads of a volume on a disk with sectors of 512 bytes fit. -/
theorem smallDisk_fits :
    Safe (SectorRead.Fits (diskDevice smallImage 8)) (sbFat32Mount (diskMount smallImage 8)) ∧
      ∀ fs, (sbFat32Mount (diskMount smallImage 8)).value = some fs → ∀ call fuel,
        Safe (SectorRead.Fits (diskDevice smallImage 8)) (FatCall.run fs fuel call) := by
  have hvfs : sbVfsMount (diskDevice smallImage 8) = .ok (diskMount smallImage 8) := rfl
  exact (reads_fit_iff hvfs).2 (by decide)

/-- The small disk behind a driver with sectors of 4096 bytes. -/
def largeSectors : BlockDevice := { diskDevice smallImage 8 with sectorSize := 4096 }

/-- The boot sector of that disk is asked for, and has 4096 bytes. -/
theorem largeSectors_overflow :
    ∃ mount, sbVfsMount largeSectors = .ok mount ∧
      ∃ e ∈ (sbFat32Mount mount).events, e.bytes largeSectors = 4096 ∧ ¬ e.Fits largeSectors := by
  refine ⟨_, rfl, ⟨.boot, 0, 1⟩, List.mem_cons_self, rfl, ?_⟩
  exact Nat.not_le.2 (by decide : 512 < 4096)

end SuiraBox.Fs
