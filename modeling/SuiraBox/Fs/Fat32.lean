/-
# The FAT32 reader

`kernel/vfs.c` and `kernel/fs/fat32.c`.  A driver hands out sectors, the VFS
checks their numbers against the size of the device, and the reader above finds
its way: from the boot sector to the geometry of the volume, from a cluster to
the next one through the file allocation table, from a cluster to its sectors.
All its arithmetic is in 32 bits.

The reader never writes, so the drivers here have no state: this is the VFS of `SuiraBox.Block.Vfs`
as it looks in one state of its driver (`sbVfsMount_view` and `sbVfsReadSectors_view` in
`SuiraBox.Fs.OnDrive`).

Pointers that the functions check against null are not null here.  Every sector
that the reader asks for is recorded, with what it is for: the boot sector, the
FAT entry of a cluster, or a sector of a cluster's data.  The loops that follow a
chain run on fuel, and `none` says that it ran out.
-/

import SuiraBox.Library.Trace
import SuiraBox.Library.Runs
import SuiraBox.Mm.Pmm

namespace SuiraBox.Fs

open ByteMem Mm Trace Runs

/-! ### Devices and the VFS -/

/-- `sb_block_device_t`.  `read` is the driver's function: the bytes it puts into the
buffer, or none when its status is not `SB_BLOCK_OK`. -/
structure BlockDevice where
  sectorCount : U64
  sectorSize : U32
  read : U64 → U32 → Option Mem

/-- `sb_vfs_mount_t`. -/
structure VfsMount where
  blockDevice : BlockDevice
  sectorSize : U32
  totalSectors : U64

/-- `sb_vfs_status_t`, except `SB_VFS_OK`. -/
inductive VfsStatus
  | invalidArgument
  | notFound
  | ioError
  | notReady
  deriving DecidableEq

/-- `sb_vfs_mount`. -/
def sbVfsMount (device : BlockDevice) : Except VfsStatus VfsMount :=
  if device.sectorSize = 0 ∨ device.sectorCount = 0 then .error .invalidArgument
  else .ok ⟨device, device.sectorSize, device.sectorCount⟩

/-- `sb_vfs_read_sectors`, with the bytes it leaves in the buffer. -/
def sbVfsReadSectors (mount : VfsMount) (lba : U64) (count : U32) : Except VfsStatus Mem :=
  if count = 0 then .error .invalidArgument
  else if mount.totalSectors ≤ lba ∨ mount.totalSectors - lba < count.setWidth 64 then
    .error .invalidArgument
  else match mount.blockDevice.read lba count with
    | some bytes => .ok bytes
    | none => .error .ioError

/-! ### The reader -/

/-- What a sector is read for. -/
inductive Purpose
  | boot
  | fat (cluster : U32)
  | data (cluster sector : U32)
  deriving DecidableEq

/-- One call of `sb_vfs_read_sectors`. -/
structure SectorRead where
  purpose : Purpose
  lba : U64
  count : U32
  deriving DecidableEq

/-- `sb_fat32_t`. -/
structure Fat32 where
  mount : VfsMount
  bytesPerSector : U32 := 0
  sectorsPerCluster : U32 := 0
  reservedSectors : U32 := 0
  fatSizeSectors : U32 := 0
  rootCluster : U32 := 0
  firstDataSector : U32 := 0

/-- `sb_fat32_dirent_t`. -/
structure Dirent where
  name : Mem
  attributes : U8
  firstCluster : U32
  fileSize : U32

/-- `le16`. -/
def le16 (p : Mem) (a : ℕ) : U16 := (p a).setWidth 16 ||| (p (a + 1)).setWidth 16 <<< 8

/-- `le32`. -/
def le32 (p : Mem) (a : ℕ) : U32 :=
  (p a).setWidth 32 ||| (p (a + 1)).setWidth 32 <<< 8 ||| (p (a + 2)).setWidth 32 <<< 16 |||
    (p (a + 3)).setWidth 32 <<< 24

/-- `read_sector`. -/
def readSector (fs : Fat32) (purpose : Purpose) (lba : U64) : Traced SectorRead (Option Mem) :=
  tell ⟨purpose, lba, 1⟩
    (match sbVfsReadSectors fs.mount lba 1 with
    | .ok bytes => some bytes
    | .error _ => none)

/-- `cluster_to_lba`. -/
def clusterToLba (fs : Fat32) (cluster : U32) : U32 :=
  fs.firstDataSector + (cluster - 2) * fs.sectorsPerCluster

/-- The sector in which `fat_next_cluster` looks for the entry of a cluster. -/
def fatSector (fs : Fat32) (cluster : U32) : U32 :=
  fs.reservedSectors + cluster * 4 / fs.bytesPerSector

/-- `fat_next_cluster`. -/
def fatNextCluster (fs : Fat32) (cluster : U32) : Traced SectorRead (Option U32) :=
  let fatIndex := cluster * 4 % fs.bytesPerSector
  if fs.bytesPerSector < fatIndex + 4 then pure none
  else onSome (readSector fs (.fat cluster) ((fatSector fs cluster).setWidth 64)) none fun sector =>
    pure (some (le32 sector fatIndex.toNat &&& 0x0FFFFFFF))

/-- The step of every loop along a chain: the link of a cluster, unless the lookup
fails or the link ends the chain. -/
def followLink (fs : Fat32) (cluster : U32) : Traced SectorRead (Option U32) :=
  onSome (fatNextCluster fs cluster) none fun next =>
    -- `SB_FAT32_EOC_MIN`
    if 0x0FFFFFF8 ≤ next ∨ next < 2 then pure none else pure (some next)

/-- The first loop of `sb_fat32_read_root_entry` and of `sb_fat32_read_file`: whole
clusters of `unit` records, or bytes, are skipped.  The inner `none` is the
`return 0` in the loop. -/
def seek (fs : Fat32) (unit : U32) : ℕ → U32 → U32 → Traced SectorRead (Option (Option (U32 × U32)))
  | 0, _, _ => pure none
  | fuel + 1, cluster, remaining =>
    if unit ≤ remaining then
      onSome (followLink fs cluster) (some none) fun next =>
        seek fs unit fuel next (remaining - unit)
    else pure (some (some (cluster, remaining)))

/-- `sb_fat32_mount`. -/
def sbFat32Mount (mount : VfsMount) : Traced SectorRead (Option Fat32) :=
  -- `SB_FAT32_SECTOR_BYTES`
  if mount.sectorSize < 512 then pure none
  else onSome (readSector { mount } .boot 0) none fun boot =>
    if le16 boot 510 ≠ 0xAA55 ∨ le16 boot 11 ≠ 512 then pure none
    else
      let fs : Fat32 := {
        mount
        bytesPerSector := (le16 boot 11).setWidth 32
        sectorsPerCluster := (boot 13).setWidth 32
        reservedSectors := (le16 boot 14).setWidth 32
        fatSizeSectors := le32 boot 36
        rootCluster := le32 boot 44 }
      let totalSectors : U32 :=
        if le32 boot 32 = 0 then mount.totalSectors.setWidth 32 else le32 boot 32
      if fs.bytesPerSector = 0 ∨ fs.sectorsPerCluster = 0 ∨ fs.reservedSectors = 0 ∨
          fs.fatSizeSectors = 0 ∨ fs.rootCluster < 2 ∨ totalSectors = 0 then pure none
      else
        let rootDirSectors : U32 := 0
        if (BitVec.allOnes 32 - fs.reservedSectors - rootDirSectors) / 2 < fs.fatSizeSectors then
          pure none
        else
          let firstData := fs.reservedSectors + 2 * fs.fatSizeSectors + rootDirSectors
          if mount.totalSectors ≤ firstData.setWidth 64 then pure none
          else pure (some { fs with firstDataSector := firstData })

/-- A loop of `format_83_name`, with `n` characters to go. -/
def copyName (raw : Mem) : ℕ → ℕ → ℕ → Mem → ℕ × Mem
  | 0, _, pos, out => (pos, out)
  | n + 1, i, pos, out =>
    if raw i = 0x20 then (pos, out)
    else if pos < 12 then copyName raw n (i + 1) (pos + 1) (write8 out pos (raw i))
    else copyName raw n (i + 1) pos out

/-- `format_83_name`. -/
def format83Name (raw out : Mem) : Mem :=
  let (pos, out) := copyName raw 8 0 0 out
  let (pos, out) :=
    if raw 8 ≠ 0x20 ∧ raw 8 ≠ 0 then copyName raw 3 8 (pos + 1) (write8 out pos 0x2E)
    else (pos, out)
  write8 out pos 0

/-- `sb_fat32_read_root_entry`. -/
def sbFat32ReadRootEntry (fs : Fat32) (fuel : ℕ) (index : U32) (entry : Dirent) :
    Traced SectorRead (Option (ℤ × Dirent)) :=
  if fs.bytesPerSector ≠ 512 then pure (some (0, entry))
  else
    -- `SB_FAT32_ENTRY_SIZE`
    let entriesPerSector := fs.bytesPerSector / 32
    let entriesPerCluster := entriesPerSector * fs.sectorsPerCluster
    onSome (seek fs entriesPerCluster fuel fs.rootCluster index) none fun found =>
      match found with
      | none => pure (some (0, entry))
      | some (cluster, remaining) =>
        let sectorIndex := remaining / entriesPerSector
        let entryIndex := remaining % entriesPerSector
        let lba := clusterToLba fs cluster + sectorIndex
        onSome (readSector fs (.data cluster sectorIndex) (lba.setWidth 64)) (some (0, entry))
          fun sector =>
            let raw : Mem := fun i => sector ((entryIndex * 32).toNat + i)
            if raw 0 = 0 ∨ raw 0 = 0xE5 ∨ raw 11 &&& 0x0F = 0x0F then pure (some (0, entry))
            else pure (some (1, {
              name := format83Name raw entry.name
              attributes := raw 11
              firstCluster := (le16 raw 20).setWidth 32 <<< 16 ||| (le16 raw 26).setWidth 32
              fileSize := le32 raw 28 }))

/-- The loop that copies `n` bytes of a sector, from byte `start` on, to the buffer
from `pos` on. -/
def copyBytes (dst : Mem) (pos : ℕ) (sector : Mem) (start : ℕ) : ℕ → Mem
  | 0 => dst
  | n + 1 => write8 (copyBytes dst pos sector start n) (pos + n) (sector (start + n))

/-- The second loop of `sb_fat32_read_file`: the buffer from `pos` on is still to be
filled with `remaining` bytes, which begin at `offset` in `cluster`. -/
def copyLoop (fs : Fat32) (clusterSize : U32) :
    ℕ → U32 → U32 → U32 → ℕ → Mem → Traced SectorRead (Option (ℤ × Mem))
  | 0, _, _, _, _, _ => pure none
  | fuel + 1, cluster, offset, remaining, pos, dst =>
    if remaining = 0 then pure (some (1, dst))
    else
      let clusterLba := clusterToLba fs cluster
      let sectorIndex := offset / fs.bytesPerSector
      let inSector := offset % fs.bytesPerSector
      onSome (readSector fs (.data cluster sectorIndex) ((clusterLba + sectorIndex).setWidth 64))
        (some (0, dst)) fun sector =>
          let copyLen :=
            if remaining < fs.bytesPerSector - inSector then remaining
            else fs.bytesPerSector - inSector
          let dst := copyBytes dst pos sector inSector.toNat copyLen.toNat
          if 0 < remaining - copyLen ∧ clusterSize ≤ offset + copyLen then
            onSome (followLink fs cluster) (some (0, dst)) fun next =>
              copyLoop fs clusterSize fuel next 0 (remaining - copyLen) (pos + copyLen.toNat) dst
          else
            copyLoop fs clusterSize fuel cluster (offset + copyLen) (remaining - copyLen)
              (pos + copyLen.toNat) dst

/-- `sb_fat32_read_file`, with the buffer it leaves behind. -/
def sbFat32ReadFile (fs : Fat32) (fuel : ℕ) (entry : Dirent) (offset length : U32) (buffer : Mem) :
    Traced SectorRead (Option (ℤ × Mem)) :=
  -- `SB_FAT32_ATTR_DIRECTORY`
  if entry.attributes &&& 0x10 ≠ 0 ∨ entry.fileSize < offset ∨ entry.fileSize - offset < length ∨
      entry.firstCluster < 2 ∨ fs.bytesPerSector ≠ 512 then pure (some (0, buffer))
  else if length = 0 then pure (some (1, buffer))
  else
    let clusterSize := fs.bytesPerSector * fs.sectorsPerCluster
    onSome (seek fs clusterSize fuel entry.firstCluster offset) none fun found =>
      match found with
      | none => pure (some (0, buffer))
      | some (cluster, offset) => copyLoop fs clusterSize fuel cluster offset length 0 buffer

end SuiraBox.Fs
