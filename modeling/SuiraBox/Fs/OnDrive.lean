/-
# Files on a drive

The whole way of a file: `sb_fat32_read_file` asks the VFS for sectors, the VFS asks the ATA driver,
and the driver asks the drive.  The reader only reads, so its VFS has no state: it is the VFS over a
driver as it looks in one state of the driver (`sbVfsMount_view`, `sbVfsReadSectors_view`).  For a
store of sectors that is a device that answers at once (`fsDevice`); the ATA driver answers the
same, read by read, and leaves the medium alone (`reader_on_drive`).  So a file whose chain is in
order is read from the drive byte by byte as it stands on the disk (`file_on_drive`).

A file may be read in pieces of any lengths.  The pieces can be read exactly if the whole can, on
any device and for any chain, also one that is broken or runs in a circle (`read_in_pieces`).
-/

import SuiraBox.Block.Vfs
import SuiraBox.Fs.FileRead

namespace SuiraBox.Fs

open ByteMem Mm Trace Runs PortIo
open Block (Drive DriveModel Rests ataDriver vfsStep storeStep vfsRejects)

/-! ### What the reader sees of a driver -/

section View

variable {σ : Type}

/-- A driver in one of its states, as the reader sees it: its sizes, and what a read brings into an
empty buffer. -/
def readerView (driver : Block.Driver σ) (s : σ) : BlockDevice where
  sectorCount := driver.device.sectorCount
  sectorSize := driver.device.sectorSize
  read lba count :=
    let r := driver.read lba count (fun _ => 0) s
    if r.1.1 = .ok then some r.1.2 else none

/-- A mount in one of the states of its driver. -/
def mountView (mount : Block.Mounted σ) (s : σ) : VfsMount :=
  ⟨readerView mount.driver s, mount.sectorSize, mount.totalSectors⟩

/-- What the reader makes of a call of the VFS. -/
def readerAnswer (r : Except VfsStatus Unit × Option Mem) : Except VfsStatus Mem :=
  match r with
  | (.ok (), some bytes) => .ok bytes
  | (.ok (), none) => .error .ioError
  | (.error e, _) => .error e

/-- **One `sb_vfs_mount`.**  Mounting what the reader sees is seeing what has been mounted. -/
theorem sbVfsMount_view (driver : Block.Driver σ) (s : σ) :
    sbVfsMount (readerView driver s) =
      (Block.sbVfsMount driver).map fun mount => mountView mount s := by
  by_cases hempty : driver.device.sectorSize = 0 ∨ driver.device.sectorCount = 0
  · rw [sbVfsMount, Block.sbVfsMount, if_pos hempty]
    exact if_pos hempty
  · rw [sbVfsMount, Block.sbVfsMount, if_neg hempty]
    exact if_neg hempty

/-- **One `sb_vfs_read_sectors`.**  Over every driver and in every state, the reader gets what a
call of the VFS with an empty buffer brings. -/
theorem sbVfsReadSectors_view (mount : Block.Mounted σ) (s : σ) (lba : U64) (count : U32) :
    sbVfsReadSectors (mountView mount s) lba count =
      readerAnswer (vfsStep mount s (.read lba count fun _ => 0)).1 := by
  have hrejects : vfsRejects mount.totalSectors lba count ↔ count = 0 ∨
      ((mountView mount s).totalSectors ≤ lba ∨
        (mountView mount s).totalSectors - lba < count.setWidth 64) := Iff.rfl
  have hread : (mountView mount s).blockDevice.read lba count =
      if (mount.driver.read lba count (fun _ => 0) s).1.1 = .ok then
        some (mount.driver.read lba count (fun _ => 0) s).1.2 else none := rfl
  rw [sbVfsReadSectors, vfsStep, Block.sbVfsReadSectors]
  by_cases hzero : count = 0
  · rw [if_pos hzero, if_pos (hrejects.2 (Or.inl hzero))]
    rfl
  by_cases hrange : (mountView mount s).totalSectors ≤ lba ∨
      (mountView mount s).totalSectors - lba < count.setWidth 64
  · rw [if_neg hzero, if_pos hrange, if_pos (hrejects.2 (Or.inr hrange))]
    rfl
  rw [if_neg hzero, if_neg hrange, if_neg (hrejects.not.2 (not_or.2 ⟨hzero, hrange⟩)), hread]
  dsimp only
  generalize (mount.driver.read lba count (fun _ => 0) s).1 = r
  obtain ⟨_ | _ | _, bytes⟩ := r
  · rfl
  · rfl
  · rfl

end View

/-! ### The device for a store -/

/-- A store of sectors as a driver. -/
def storeDriver (total : U64) (most : ℕ) : Block.Driver Mem where
  device := ⟨"store", total, 512⟩
  read lba count buffer disk :=
    if most < count.toNat then ((.invalidArgument, buffer), disk)
    else ((.ok, copy buffer 0 disk (512 * lba.toNat) (512 * count.toNat)), disk)
  write lba count buffer disk :=
    if most < count.toNat then (.invalidArgument, disk)
    else (.ok, copy disk (512 * lba.toNat) buffer 0 (512 * count.toNat))

/-- The VFS over it is the store. -/
theorem vfsStep_storeDriver (total : U64) (most : ℕ) (disk : Mem) (call : Block.DiskCall) :
    vfsStep ⟨storeDriver total most, 512, total⟩ disk call = storeStep total most disk call := by
  cases call with
  | read lba count buffer =>
    rw [vfsStep, Block.sbVfsReadSectors, storeStep]
    split_ifs with hrejects hmost
    · rfl
    · simp only [storeDriver, if_pos hmost]
      rfl
    · simp only [storeDriver, if_neg hmost]
      rfl
  | write lba count buffer =>
    rw [vfsStep, Block.sbVfsWriteSectors, storeStep]
    split_ifs with hrejects hmost
    · rfl
    · simp only [storeDriver, if_pos hmost]
      rfl
    · simp only [storeDriver, if_neg hmost]
      rfl

/-- The sectors of a disk, at most `most` at a time. -/
def fsDevice (total : U64) (most : ℕ) (disk : Mem) : BlockDevice where
  sectorCount := total
  sectorSize := 512
  read lba count :=
    if most < count.toNat then none else some (copy (fun _ => 0) 0 disk (512 * lba.toNat)
      (512 * count.toNat))

/-- They are what the reader sees of the store. -/
theorem fsDevice_eq (total : U64) (most : ℕ) (disk : Mem) :
    fsDevice total most disk = readerView (storeDriver total most) disk := by
  rw [fsDevice, readerView, BlockDevice.mk.injEq]
  refine ⟨rfl, rfl, funext fun lba => funext fun count => ?_⟩
  simp only [storeDriver]
  by_cases hmost : most < count.toNat
  · simp only [if_pos hmost]
    rfl
  · simp only [if_neg hmost, if_true]

/-- The mount of an ATA drive with these bytes on it. -/
def driveMount (D : DriveModel) (disk : Mem) : VfsMount :=
  ⟨fsDevice (D.size.setWidth 64) 255 disk, 512, D.size.setWidth 64⟩

/-- A sector as it arrives in a buffer of zeros. -/
def driveSector (disk : Mem) (lba : ℕ) : Mem := copy (fun _ => 0) 0 disk (512 * lba) 512

/-- The VFS calls behind the sectors that the reader asks for. -/
def readCalls (reads : List SectorRead) : List Block.DiskCall :=
  reads.map fun e => .read e.lba e.count fun _ => 0

/-- What the reader gets from that device is what the store answers. -/
theorem readerAnswer_storeStep (total : U64) (most : ℕ) (disk : Mem) (lba : U64) (count : U32) :
    readerAnswer (storeStep total most disk (.read lba count fun _ => 0)).1 =
      sbVfsReadSectors ⟨fsDevice total most disk, 512, total⟩ lba count := by
  rw [fsDevice_eq, ← vfsStep_storeDriver]
  exact (sbVfsReadSectors_view ⟨storeDriver total most, 512, total⟩ disk lba count).symm

/-- A read leaves the store alone. -/
theorem storeStep_read_snd (total : U64) (most : ℕ) (disk : Mem) (lba : U64) (count : U32)
    (buffer : Mem) : (storeStep total most disk (.read lba count buffer)).2 = disk := by
  rw [storeStep]
  split_ifs <;> rfl

/-- Reads leave the store alone, so a run of reads asks the same disk every time. -/
theorem run_readCalls (total : U64) (most : ℕ) (disk : Mem) (reads : List SectorRead) :
    outputs (storeStep total most) disk (readCalls reads) =
        reads.map (fun e => (storeStep total most disk (.read e.lba e.count fun _ => 0)).1) ∧
      run (storeStep total most) disk (readCalls reads) = disk := by
  induction reads with
  | nil => exact ⟨rfl, rfl⟩
  | cons e reads ih =>
    rw [readCalls, List.map_cons, List.map_cons, outputs, run_cons, storeStep_read_snd]
    exact ⟨congrArg _ ih.1, ih.2⟩

/-- Whatever sectors the reader asks for, one after the other, the driver below the VFS answers what
the reader's device answers, and the medium stays as it is. -/
theorem reader_on_drive {D : DriveModel} {d₀ : Drive} (hpos : 0 < D.size.toNat)
    (hsmall : D.size.toNat ≤ 2 ^ 28) {h : List Event} {disk : Mem}
    (hrest : Rests disk (D.device.after d₀ h)) (reads : List SectorRead) :
    ∃ mount, Block.sbVfsMount (ataDriver (D.device.bus d₀) D.registered) = .ok mount ∧
      (outputs (vfsStep mount) h (readCalls reads)).map readerAnswer =
        reads.map (fun e => sbVfsReadSectors (driveMount D disk) e.lba e.count) ∧
      Rests disk (D.device.after d₀ (run (vfsStep mount) h (readCalls reads))) := by
  have hmount := Block.sbVfsMount_ata (D := D) d₀ hpos
  obtain ⟨hout, hafter⟩ := (Block.ata_serves D d₀ hsmall).run hmount hrest (readCalls reads)
  obtain ⟨hreads, hsame⟩ := run_readCalls (D.size.setWidth 64) 255 disk reads
  refine ⟨_, hmount, ?_, hsame ▸ hafter⟩
  rw [hout]
  change (outputs (storeStep (D.size.setWidth 64) 255) disk _).map readerAnswer = _
  rw [hreads, List.map_map]
  exact List.map_congr_left fun e _ => readerAnswer_storeStep _ 255 disk e.lba e.count

/-! ### A file on a drive -/

/-- The device of a drive that has sectors mounts. -/
theorem sbVfsMount_fsDevice {D : DriveModel} (hpos : 0 < D.size.toNat) (disk : Mem) :
    sbVfsMount (fsDevice (D.size.setWidth 64) 255 disk) = .ok (driveMount D disk) := by
  have hmount : Block.sbVfsMount (storeDriver (D.size.setWidth 64) 255) =
      .ok ⟨storeDriver (D.size.setWidth 64) 255, 512, D.size.setWidth 64⟩ :=
    if_neg (not_or.2 ⟨(by decide : (512 : U32) ≠ 0), Block.size_ne_zero hpos⟩)
  rw [driveMount, fsDevice_eq, sbVfsMount_view, hmount]
  rfl

/-- Its sectors are those of the disk. -/
theorem serves_fsDevice (D : DriveModel) (disk : Mem) :
    Serves (driveSector disk) (fsDevice (D.size.setWidth 64) 255 disk) where
  size := rfl
  count := by
    have hlt := D.size.isLt
    change (D.size.setWidth 64).toNat ≤ _
    rw [BitVec.toNat_setWidth]
    omega
  read _ _ := rfl

/-- The clusters of a volume on a drive have numbers below `2 ^ 30`: there are fewer than `2 ^
29`. -/
theorem cluster_lt_of_inside {D : DriveModel} (hsmall : D.size.toNat ≤ 2 ^ 28) {disk : Mem}
    {fs : Fat32} (geo : Geometry fs) (hmount : fs.mount = driveMount D disk) {c : ℕ}
    (hin : ClusterInside fs c) : c < 2 ^ 30 := by
  have htotal : fs.mount.totalSectors.toNat ≤ 2 ^ 28 := by
    rw [hmount, driveMount, BitVec.toNat_setWidth]
    exact (Nat.mod_le _ _).trans hsmall
  have hclusters : (c - 2) * 1 ≤ (c - 2) * fs.sectorsPerCluster.toNat :=
    Nat.mul_le_mul_left _ geo.cluster_pos
  have hroom := hin.2
  omega

/-- **A file on an ATA drive** of 1 to `2 ^ 28` sectors that keeps to the protocol.  A volume on the
drive is mounted, and a file has its chain inside the volume and as long as the request needs.  Then
`sb_fat32_read_file` succeeds with the bytes of the file, and every sector that mounting and reading
ask for, in that order, is answered so by the driver through the VFS, with the medium unchanged in
the end. -/
theorem file_on_drive {D : DriveModel} {d₀ : Drive} (hpos : 0 < D.size.toNat)
    (hsmall : D.size.toNat ≤ 2 ^ 28) {h : List Event} {disk : Mem}
    (hrest : Rests disk (D.device.after d₀ h)) {fs : Fat32}
    (hmount : (sbFat32Mount (driveMount D disk)).value = some fs) {entry : Dirent}
    {offset length : U32} (req : Requestable entry offset length)
    (hin : ChainInside (driveSector disk) fs entry.firstCluster.toNat) (hlen : length ≠ 0)
    (hreach : ChainReaches (driveSector disk) fs entry.firstCluster.toNat offset.toNat length.toNat)
    {fuel : ℕ} (hfuel : offset.toNat + length.toNat < fuel) (buffer : Mem) :
    ∃ dst mount, (sbFat32ReadFile fs fuel entry offset length buffer).value = some (1, dst) ∧
      (∀ i < length.toNat,
        contentByte (driveSector disk) fs entry.firstCluster.toNat (offset.toNat + i) =
          some (dst i)) ∧
      (∀ i, length.toNat ≤ i → dst i = buffer i) ∧
      Block.sbVfsMount (ataDriver (D.device.bus d₀) D.registered) = .ok mount ∧
      let reads := (sbFat32Mount (driveMount D disk)).events ++
        (sbFat32ReadFile fs fuel entry offset length buffer).events
      (outputs (vfsStep mount) h (readCalls reads)).map readerAnswer =
          reads.map (fun e => sbVfsReadSectors (driveMount D disk) e.lba e.count) ∧
        Rests disk (D.device.after d₀ (run (vfsStep mount) h (readCalls reads))) := by
  have on := onDisk_of_mount (serves_fsDevice D disk) (sbVfsMount_fsDevice hpos disk) hmount
  obtain ⟨mount, hvfs, hanswers, hafter⟩ := reader_on_drive hpos hsmall hrest
    ((sbFat32Mount (driveMount D disk)).events ++
      (sbFat32ReadFile fs fuel entry offset length buffer).events)
  have hfirst : entry.firstCluster.toNat < 2 ^ 30 :=
    cluster_lt_of_inside hsmall on.geometry (geometry_of_mount hmount).2 (hin 0 _ rfl)
  obtain ⟨⟨status, dst⟩, hread, hdel⟩ := sbFat32ReadFile_delivers on.geometry req hfuel buffer
  simp only [byteAt_eq_contentByte on hfirst req.first hin] at hdel
  rcases hdel with ⟨hone, hbytes, hkept⟩ | ⟨-, i, hi, hnone⟩
  · simp only [Nat.zero_add] at hone hbytes hkept
    subst hone
    exact ⟨dst, mount, hread, hbytes, fun i hi => hkept i (Or.inr hi), hvfs, hanswers, hafter⟩
  · have hpos : 0 < length.toNat := Nat.pos_of_ne_zero fun h => hlen (BitVec.eq_of_toNat_eq h)
    exact absurd hnone ((chainReaches_iff hpos).1 hreach i hi)

/-- The small volume on a drive. -/
def driveVolume (D : DriveModel) (disk : Mem) : Fat32 := ⟨driveMount D disk, 512, 1, 1, 1, 2, 3⟩

/-- A request over the boundary of the two clusters, from the slow drive. -/
theorem slowDrive_file :
    ∃ dst mount, (sbFat32ReadFile (driveVolume Block.slowDrive smallImage) 601 (fileEntry 3) 500 100
        fun _ => 0).value = some (1, dst) ∧
      Block.sbVfsMount (ataDriver (Block.slowDrive.device.bus (Block.driveAtRest smallImage))
        Block.slowDrive.registered) = .ok mount := by
  have hrest : Rests smallImage (Block.slowDrive.device.after (Block.driveAtRest smallImage) []) :=
    ⟨rfl, rfl, rfl⟩
  have hmount : (sbFat32Mount (driveMount Block.slowDrive smallImage)).value =
      some (driveVolume Block.slowDrive smallImage) := rfl
  have req : Requestable (fileEntry 3) 500 100 := ⟨by decide, by decide, by decide⟩
  have hreach : ChainReaches (driveSector smallImage) (driveVolume Block.slowDrive smallImage) 3
      500 100 := by
    unfold ChainReaches
    decide
  obtain ⟨dst, mount, hread, -, -, hvfs, -⟩ :=
    file_on_drive (by decide) (by decide) hrest hmount req
    (chainInside_two (d := 4) (by decide) (by decide) (by decide) (by decide)) (by decide) hreach
    (by decide : _ < 601) fun _ => 0
  exact ⟨dst, mount, hread, hvfs⟩

/-! ### Reading in pieces -/

/-- Where piece `k` of a request begins. -/
def pieceStart (lengths : List U32) (k : ℕ) : ℕ := ((lengths.take k).map BitVec.toNat).sum

/-- A piece starts where the one before ends. -/
theorem pieceStart_succ {lengths : List U32} {k : ℕ} {n : U32} (hk : lengths[k]? = some n) :
    pieceStart lengths (k + 1) = pieceStart lengths k + n.toNat := by
  rw [pieceStart, List.take_add_one, hk, List.map_append, List.sum_append]
  simp [pieceStart]

theorem pieceStart_mono (lengths : List U32) {j k : ℕ} (hjk : j ≤ k) :
    pieceStart lengths j ≤ pieceStart lengths k := by
  obtain ⟨d, rfl⟩ := Nat.exists_eq_add_of_le hjk
  rw [pieceStart, pieceStart, List.take_add, List.map_append, List.sum_append]
  exact Nat.le_add_right _ _

theorem pieceStart_length (lengths : List U32) :
    pieceStart lengths lengths.length = (lengths.map BitVec.toNat).sum := by
  rw [pieceStart, List.take_length]

/-- Every byte of a request is in one of its pieces. -/
theorem exists_piece (lengths : List U32) {i : ℕ} (hi : i < (lengths.map BitVec.toNat).sum) :
    ∃ k n, lengths[k]? = some n ∧ pieceStart lengths k ≤ i ∧
      i < pieceStart lengths k + n.toNat := by
  induction lengths using List.reverseRecOn with
  | nil => exact absurd hi (Nat.not_lt_zero i)
  | append_singleton lengths n ih =>
    rw [List.map_append, List.sum_append] at hi
    by_cases hearly : i < (lengths.map BitVec.toNat).sum
    · obtain ⟨k, m, hk, hlo, hhi⟩ := ih hearly
      have hlt := (List.getElem?_eq_some_iff.1 hk).1
      have hsame : pieceStart (lengths ++ [n]) k = pieceStart lengths k := by
        rw [pieceStart, pieceStart, List.take_append_of_le_length hlt.le]
      exact ⟨k, m, by rw [List.getElem?_append_left hlt, hk], by rw [hsame]; exact hlo,
        by rw [hsame]; exact hhi⟩
    · have hstart : pieceStart (lengths ++ [n]) lengths.length =
          (lengths.map BitVec.toNat).sum := by
        rw [pieceStart, List.take_left]
      refine ⟨lengths.length, n, List.getElem?_concat_length .., by omega, ?_⟩
      rw [hstart]
      simpa using hi

/-- A read succeeds if all of its bytes are there. -/
theorem Delivers.ok_iff {bytes : ℕ → Option U8} {n pos : ℕ} {dst : Mem} {r : ℤ × Mem}
    (h : Delivers bytes n pos dst r) : r.1 = 1 ↔ ∀ i < n, bytes i ≠ none := by
  rcases h with ⟨hone, hbytes, -⟩ | ⟨hzero, i, hi, hnone⟩
  · exact iff_of_true hone fun i hi => by simp [hbytes i hi]
  · exact iff_of_false (by simp [hzero]) fun hall => hall i hi hnone

/-- A read that succeeds gives the bytes. -/
theorem Delivers.bytes_eq {bytes : ℕ → Option U8} {n pos : ℕ} {dst : Mem} {r : ℤ × Mem}
    (h : Delivers bytes n pos dst r) (hone : r.1 = 1) {i : ℕ} (hi : i < n) :
    bytes i = some (r.2 (pos + i)) := by
  rcases h with ⟨-, hbytes, -⟩ | ⟨hzero, -⟩
  · exact hbytes i hi
  · simp [hzero] at hone

section Pieces

variable {fs : Fat32} {fuel : ℕ} {entry : Dirent} {offset total : U32} {lengths : List U32}
    {buffer : Mem}

/-- `sb_fat32_read_file` for piece `k`, of `n` bytes. -/
def readPiece (fs : Fat32) (fuel : ℕ) (entry : Dirent) (offset : U32) (lengths : List U32)
    (buffer : Mem) (k : ℕ) (n : U32) : Traced SectorRead (Option (ℤ × Mem)) :=
  sbFat32ReadFile fs fuel entry (offset + BitVec.ofNat 32 (pieceStart lengths k)) n buffer

/-- Each piece is a request of its own, for the bytes at its place. -/
theorem readPiece_delivers (geo : Geometry fs)
    (htotal : total.toNat = (lengths.map BitVec.toNat).sum)
    (req : Requestable entry offset total) (hfuel : offset.toNat + total.toNat < fuel)
    (buffer : Mem) {k : ℕ} {n : U32} (hk : lengths[k]? = some n) :
    pieceStart lengths k + n.toNat ≤ total.toNat ∧
      ∃ r, (readPiece fs fuel entry offset lengths buffer k n).value = some r ∧
        Delivers (fun i => byteAt fs entry.firstCluster (offset.toNat + (pieceStart lengths k + i)))
          n.toNat 0 buffer r := by
  have hlt := (List.getElem?_eq_some_iff.1 hk).1
  have hend : pieceStart lengths k + n.toNat ≤ total.toNat := by
    rw [← pieceStart_succ hk, htotal, ← pieceStart_length]
    exact pieceStart_mono lengths hlt
  have hin := req.inside
  have hsize := entry.fileSize.isLt
  have hoffset : (offset + BitVec.ofNat 32 (pieceStart lengths k)).toNat =
      offset.toNat + pieceStart lengths k := by
    rw [BitVec.toNat_add, BitVec.toNat_ofNat]
    omega
  have hreq : Requestable entry (offset + BitVec.ofNat 32 (pieceStart lengths k)) n :=
    ⟨req.regular, req.first, by omega⟩
  obtain ⟨r, hr, hdel⟩ := sbFat32ReadFile_delivers geo hreq (by omega : _ < fuel) buffer
  refine ⟨hend, r, hr, ?_⟩
  simpa only [hoffset, Nat.add_assoc] using hdel

/-- **A file may be read in pieces.**  On every mounted volume, whatever the device answers and
whatever the chain looks like, a request for the bytes from `offset` on succeeds if and only if all
its pieces do, and then each piece has the bytes that the whole has at its place. -/
theorem read_in_pieces {mount : VfsMount} (hmount : (sbFat32Mount mount).value = some fs)
    (htotal : total.toNat = (lengths.map BitVec.toNat).sum) (req : Requestable entry offset total)
    (hfuel : offset.toNat + total.toNat < fuel) (buffer : Mem) :
    ∃ whole, (sbFat32ReadFile fs fuel entry offset total buffer).value = some whole ∧
      (whole.1 = 1 ↔ ∀ k n, lengths[k]? = some n →
        ∃ dst, (readPiece fs fuel entry offset lengths buffer k n).value = some (1, dst)) ∧
      ∀ k n dst, lengths[k]? = some n →
        (readPiece fs fuel entry offset lengths buffer k n).value = some (1, dst) → whole.1 = 1 →
        ∀ i < n.toNat, dst i = whole.2 (pieceStart lengths k + i) := by
  obtain ⟨geo, -⟩ := geometry_of_mount hmount
  obtain ⟨whole, hwhole, hdel⟩ := sbFat32ReadFile_delivers geo req hfuel buffer
  refine ⟨whole, hwhole, ?_, ?_⟩
  · rw [hdel.ok_iff]
    constructor
    · intro hall k n hk
      obtain ⟨hend, ⟨status, dst⟩, hr, hpiece⟩ := readPiece_delivers geo htotal req hfuel buffer hk
      have hone : status = 1 := hpiece.ok_iff.2 fun i hi => hall _ (by omega)
      exact ⟨dst, by rw [hr, hone]⟩
    · intro hall i hi
      -- byte `i` is in one of the pieces
      obtain ⟨k, n, hk, hlo, hhi⟩ := exists_piece lengths (htotal ▸ hi)
      obtain ⟨dst, hdst⟩ := hall k n hk
      obtain ⟨-, r, hr, hpiece⟩ := readPiece_delivers geo htotal req hfuel buffer hk
      obtain rfl := Option.some.inj (hr.symm.trans hdst)
      have hbyte := hpiece.ok_iff.1 rfl (i - pieceStart lengths k) (by omega)
      rwa [Nat.add_sub_cancel' hlo] at hbyte
  · intro k n dst hk hdst hone i hi
    obtain ⟨hend, r, hr, hpiece⟩ := readPiece_delivers geo htotal req hfuel buffer hk
    obtain rfl := Option.some.inj (hr.symm.trans hdst)
    have hwholeByte := hdel.bytes_eq hone (by omega : pieceStart lengths k + i < _)
    have hpieceByte := hpiece.bytes_eq rfl hi
    simp only [Nat.zero_add] at hwholeByte hpieceByte
    exact Option.some.inj (hpieceByte.symm.trans hwholeByte)

end Pieces

/-- The small volume's file in three pieces. -/
theorem smallVolume_pieces :
    ∃ whole, (sbFat32ReadFile (diskVolume 1 smallImage 8) 2000 (fileEntry 3) 0 512 fun _ =>
      0).value = some whole ∧ (whole.1 = 1 ↔ ∀ k n, [500, 0, 12][k]? = some n → ∃ dst,
        (readPiece (diskVolume 1 smallImage 8) 2000 (fileEntry 3) 0 [500, 0, 12]
          (fun _ => 0) k n).value = some (1, dst)) := by
  have hmount : (sbFat32Mount (diskMount smallImage 8)).value = some (diskVolume 1 smallImage 8) :=
    rfl
  have htotal : (512 : U32).toNat = (([500, 0, 12] : List U32).map BitVec.toNat).sum := rfl
  have req : Requestable (fileEntry 3) 0 512 := ⟨by decide, by decide, by decide⟩
  obtain ⟨whole, hwhole, hiff, -⟩ :=
    read_in_pieces hmount htotal req (by decide : _ < 2000) fun _ => 0
  exact ⟨whole, hwhole, hiff⟩

end SuiraBox.Fs
