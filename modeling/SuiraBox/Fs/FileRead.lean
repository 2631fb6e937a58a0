/-
# Reading a file

What `sb_fat32_read_file` delivers.  Byte `i` of a file is looked for in cluster
number `i / clusterBytes` of the chain that the reader's own lookups follow, in the
sector that its own arithmetic finds (`byteAt`); a request succeeds if and only if
all its bytes are there, and then they are in the buffer (`sbFat32ReadFile_delivers`).
-/

import SuiraBox.Library.Words
import SuiraBox.Fs.Fat32

namespace SuiraBox.Fs

open ByteMem Mm Trace Runs

/-! ### What mounting guarantees -/

/-- What `sb_fat32_mount` checks of a boot sector, in unbounded arithmetic. -/
structure BootAccepted (mount : VfsMount) (boot : Mem) : Prop where
  sectorSize : 512 ≤ mount.sectorSize.toNat
  signature : le16 boot 510 = 0xAA55
  bytes : le16 boot 11 = 512
  cluster : 0 < (boot 13).toNat
  reserved : 0 < (le16 boot 14).toNat
  fat : 0 < (le32 boot 36).toNat
  root : 2 ≤ (le32 boot 44).toNat
  total : le32 boot 32 ≠ 0 ∨ mount.totalSectors.setWidth 32 ≠ 0
  room : (le16 boot 14).toNat + 2 * (le32 boot 36).toNat < 2 ^ 32
  inside : (le16 boot 14).toNat + 2 * (le32 boot 36).toNat < mount.totalSectors.toNat

/-- What it makes of an accepted one. -/
def bootVolume (mount : VfsMount) (boot : Mem) : Fat32 where
  mount
  bytesPerSector := (le16 boot 11).setWidth 32
  sectorsPerCluster := (boot 13).setWidth 32
  reservedSectors := (le16 boot 14).setWidth 32
  fatSizeSectors := le32 boot 36
  rootCluster := le32 boot 44
  firstDataSector := (le16 boot 14).setWidth 32 + 2 * le32 boot 36 + 0

/-- The check for overflow in 32 bits, and the sum it guards. -/
theorem firstData_room (reserved : U16) (fatSize : U32) :
    (BitVec.allOnes 32 - reserved.setWidth 32 - 0) / 2 < fatSize ↔
      ¬ reserved.toNat + 2 * fatSize.toNat < 2 ^ 32 := by
  have hroom : (BitVec.allOnes 32 - reserved.setWidth 32 - 0 : U32).toNat =
      2 ^ 32 - 1 - reserved.toNat := by
    rw [show BitVec.allOnes 32 = 0xFFFFFFFF#32 from rfl]
    bv_omega
  rw [BitVec.lt_def, BitVec.toNat_udiv, hroom, show (2 : U32).toNat = 2 from rfl]
  have := reserved.isLt
  omega

theorem toNat_firstData {reserved : U16} {fatSize : U32} {width : ℕ} (hwidth : 32 ≤ width)
    (h : reserved.toNat + 2 * fatSize.toNat < 2 ^ 32) :
    ((reserved.setWidth 32 + 2 * fatSize + 0).setWidth width).toNat =
      reserved.toNat + 2 * fatSize.toNat := by
  have hsum : (reserved.setWidth 32 + 2 * fatSize + 0 : U32).toNat =
      reserved.toNat + 2 * fatSize.toNat := by bv_omega
  rw [BitVec.toNat_setWidth_of_le hwidth, hsum]

/-- **What mounts, and as what.** -/
theorem sbFat32Mount_eq_some_iff {mount : VfsMount} {fs : Fat32} :
    (sbFat32Mount mount).value = some fs ↔ ∃ boot,
      (readSector { mount } .boot 0).value = some boot ∧
      BootAccepted mount boot ∧ bootVolume mount boot = fs := by
  unfold sbFat32Mount
  simp only [value_ite, value_pure, value_onSome, Option.ite_none_left_eq_some]
  rcases (readSector { mount } .boot 0).value with _ | boot
  · refine iff_of_false (fun h => Option.some_ne_none fs h.2.symm) ?_
    rintro ⟨boot, hboot, -⟩
    exact Option.some_ne_none boot hboot.symm
  simp only [Option.elim_some, Option.ite_none_left_eq_some, not_or, not_not, Option.some.injEq,
    exists_eq_left', firstData_room, bootVolume]
  constructor
  · rintro ⟨hsize, ⟨hsignature, hbytes⟩, ⟨-, hcluster, hreserved, hfat, hroot, htotal⟩, hroom,
      hinside, hfs⟩
    rw [BitVec.le_def, toNat_firstData (by decide) hroom, Nat.not_le] at hinside
    refine ⟨⟨by bv_omega, hsignature, hbytes, by bv_omega, by bv_omega, by bv_omega, by
      bv_omega, ?_, hroom, hinside⟩, hfs⟩
    split_ifs at htotal with hzero
    · exact Or.inr htotal
    · exact Or.inl hzero
  · rintro ⟨hok, hfs⟩
    have hcluster := hok.cluster
    have hreserved := hok.reserved
    have hfat := hok.fat
    have hroot := hok.root
    have hsize := hok.sectorSize
    have htotal := hok.total
    refine ⟨by bv_omega, ⟨hok.signature, hok.bytes⟩, ⟨?_, by bv_omega, by bv_omega, by bv_omega,
      by bv_omega, ?_⟩, hok.room, ?_, hfs⟩
    · rw [hok.bytes]
      decide
    · split_ifs with hzero
      · exact htotal.resolve_left (not_not.2 hzero)
      · exact hzero
    · rw [BitVec.le_def, toNat_firstData (by decide) hok.room, Nat.not_le]
      exact hok.inside

/-- What the volume keeps of these checks. -/
structure Geometry (fs : Fat32) : Prop where
  bytes : fs.bytesPerSector = 512
  cluster_pos : 0 < fs.sectorsPerCluster.toNat
  cluster_lt : fs.sectorsPerCluster.toNat < 256
  reserved_pos : 0 < fs.reservedSectors.toNat
  reserved_lt : fs.reservedSectors.toNat < 2 ^ 16
  fat_pos : 0 < fs.fatSizeSectors.toNat
  root : 2 ≤ fs.rootCluster.toNat
  firstData : fs.firstDataSector.toNat = fs.reservedSectors.toNat + 2 * fs.fatSizeSectors.toNat
  inside : fs.firstDataSector.toNat < fs.mount.totalSectors.toNat

/-- The numbers of a mounted volume fit together. -/
theorem geometry_of_mount {mount : VfsMount} {fs : Fat32}
    (h : (sbFat32Mount mount).value = some fs) : Geometry fs ∧ fs.mount = mount := by
  obtain ⟨boot, -, hok, rfl⟩ := sbFat32Mount_eq_some_iff.1 h
  have hcluster : ((boot 13).setWidth 32).toNat = (boot 13).toNat :=
    BitVec.toNat_setWidth_of_le (by decide)
  have hreserved : ((le16 boot 14).setWidth 32).toNat = (le16 boot 14).toNat :=
    BitVec.toNat_setWidth_of_le (by decide)
  have hfirst : (bootVolume mount boot).firstDataSector.toNat =
      (le16 boot 14).toNat + 2 * (le32 boot 36).toNat := by
    have := toNat_firstData (le_refl 32) hok.room
    rwa [BitVec.setWidth_eq] at this
  exact ⟨{
    bytes := congrArg (BitVec.setWidth 32) hok.bytes
    cluster_pos := hcluster ▸ hok.cluster
    cluster_lt := hcluster ▸ (boot 13).isLt
    reserved_pos := hreserved ▸ hok.reserved
    reserved_lt := hreserved ▸ (le16 boot 14).isLt
    fat_pos := hok.fat
    root := hok.root
    firstData := hfirst.trans (congrArg (· + _) hreserved.symm)
    inside := hfirst ▸ hok.inside }, rfl⟩

/-! ### The reader's own view of the volume -/

variable {fs : Fat32} {c : U32} {i n pos fuel : ℕ}

/-- The bytes of a sector, if the VFS delivers it. -/
def sectorAt (fs : Fat32) (lba : U64) : Option Mem := (readSector fs .boot lba).value

/-- The cluster after `c` in its chain, as the lookup finds it. -/
def link (fs : Fat32) (c : U32) : Option U32 := (followLink fs c).value

/-- The number of bytes in a cluster. -/
def clusterBytes (fs : Fat32) : ℕ := 512 * fs.sectorsPerCluster.toNat

/-- Byte `i` of a chain that begins with cluster `c`, where the reader looks for it. -/
def byteAt (fs : Fat32) (c : U32) (i : ℕ) : Option U8 :=
  (follow (link fs) (i / clusterBytes fs) c).bind fun c =>
    (sectorAt fs
      ((clusterToLba fs c + BitVec.ofNat 32 (i % clusterBytes fs / 512)).setWidth 64)).map
      fun sector => sector (i % 512)

@[simp] theorem value_readSector (purpose : Purpose) (lba : U64) :
    (readSector fs purpose lba).value = sectorAt fs lba := rfl

@[simp] theorem value_followLink : (followLink fs c).value = link fs c := rfl

theorem clusterBytes_pos (geo : Geometry fs) : 0 < clusterBytes fs :=
  Nat.mul_pos (by decide) geo.cluster_pos

/-- Inside the first cluster no link is followed. -/
theorem byteAt_of_lt (hi : i < clusterBytes fs) : byteAt fs c i =
    (sectorAt fs ((clusterToLba fs c + BitVec.ofNat 32 (i / 512)).setWidth 64)).map
      fun sector => sector (i % 512) := by
  rw [byteAt, Nat.div_eq_of_lt hi, Nat.mod_eq_of_lt hi, follow_zero, Option.bind_some]

/-- Behind it the chain goes on with the next cluster. -/
theorem byteAt_add_cluster (geo : Geometry fs) (c : U32) (i : ℕ) :
    byteAt fs c (clusterBytes fs + i) = (link fs c).bind fun c => byteAt fs c i := by
  have hmod : (clusterBytes fs + i) % 512 = i % 512 := by
    rw [clusterBytes, Nat.mul_add_mod]
  rw [byteAt, Nat.add_div_left _ (clusterBytes_pos geo), Nat.add_mod_left, hmod, follow_succ,
    Option.bind_assoc]
  rfl

/-- The skipping loop follows one link for every whole cluster. -/
theorem value_seek {unit rem : U32} (hunit : 0 < unit.toNat) (hfuel : rem.toNat < fuel) :
    (seek fs unit fuel c rem).value =
      some ((follow (link fs) (rem.toNat / unit.toNat) c).map fun c => (c, rem % unit)) := by
  induction fuel generalizing c rem with
  | zero => omega
  | succ fuel ih =>
    rw [seek, value_ite]
    rcases Nat.lt_or_ge rem.toNat unit.toNat with hlt | hge
    · rw [if_neg (by bv_omega), Nat.div_eq_of_lt hlt, follow_zero,
        BitVec.umod_eq_of_lt (by bv_omega)]
      rfl
    · have hsub : (rem - unit).toNat = rem.toNat - unit.toNat := by bv_omega
      have hmod : (rem - unit) % unit = rem % unit := by
        apply BitVec.eq_of_toNat_eq
        rw [BitVec.toNat_umod, BitVec.toNat_umod, hsub, ← Nat.mod_eq_sub_mod hge]
      rw [if_pos (by bv_omega), value_onSome, value_followLink, Nat.div_eq_sub_div hunit hge,
        follow_succ]
      cases link fs c with
      | none => rfl
      | some next => rw [Option.elim_some, ih (by omega), hsub, hmod, Option.bind_some]

/-! ### The copy -/

/-- The answer to a request for `n` bytes: they are all in the buffer from `pos` on, and
nothing else has changed, or one of them is missing. -/
def Delivers (bytes : ℕ → Option U8) (n pos : ℕ) (dst : Mem) (r : ℤ × Mem) : Prop :=
  (r.1 = 1 ∧ (∀ i < n, bytes i = some (r.2 (pos + i))) ∧
      ∀ j, j < pos ∨ pos + n ≤ j → r.2 j = dst j) ∨
    (r.1 = 0 ∧ ∃ i < n, bytes i = none)

/-- A request may be answered in pieces. -/
theorem Delivers.step {bytes : ℕ → Option U8} {k : ℕ} {dst dst' : Mem} {r : ℤ × Mem} (hkn : k ≤ n)
    (hbytes : ∀ i < k, bytes i = some (dst' (pos + i)))
    (hframe : ∀ j, j < pos ∨ pos + k ≤ j → dst' j = dst j)
    (hrest : Delivers (fun i => bytes (k + i)) (n - k) (pos + k) dst' r) :
    Delivers bytes n pos dst r := by
  rcases hrest with ⟨hone, hmore, hkept⟩ | ⟨hzero, i, hi, hnone⟩
  · refine Or.inl ⟨hone, fun i hi => ?_, fun j hj => ?_⟩
    · rcases Nat.lt_or_ge i k with hlt | hge
      · rw [hkept _ (Or.inl (by omega))]
        exact hbytes i hlt
      · have h : bytes (k + (i - k)) = some (r.2 (pos + k + (i - k))) := hmore (i - k) (by omega)
        rwa [Nat.add_assoc, Nat.add_sub_cancel' hge] at h
    · rw [hkept j (by omega), hframe j (by omega)]
  · exact Or.inr ⟨hzero, k + i, by omega, hnone⟩

/-- The copy of a piece, byte by byte. -/
theorem copyBytes_apply (dst : Mem) (pos : ℕ) (sector : Mem) (start n j : ℕ) :
    copyBytes dst pos sector start n j =
      if pos ≤ j ∧ j < pos + n then sector (start + (j - pos)) else dst j := by
  induction n with
  | zero => rw [copyBytes, if_neg (by omega)]
  | succ n ih =>
    rw [copyBytes, write8, ih]
    rcases eq_or_ne j (pos + n) with rfl | hne
    · rw [if_pos rfl, if_pos (by omega), Nat.add_sub_cancel_left]
    · rw [if_neg hne]
      exact if_congr (by omega) rfl rfl

/-- The bytes up to the end of a sector are in that sector. -/
theorem sector_of_add {offset : U32} (hi : offset.toNat % 512 + i < 512) :
    BitVec.ofNat 32 ((offset.toNat + i) / 512) = offset / 512 := by
  apply BitVec.eq_of_toNat_eq
  rw [BitVec.toNat_ofNat, BitVec.toNat_udiv, show (512 : U32).toNat = 512 from rfl]
  omega

/-- The bytes of one sector come from one read. -/
theorem byteAt_same_sector {offset : U32} (hoff : offset.toNat < clusterBytes fs)
    (hi : offset.toNat % 512 + i < 512) : byteAt fs c (offset.toNat + i) =
      (sectorAt fs ((clusterToLba fs c + offset / 512).setWidth 64)).map
        fun sector => sector (offset.toNat % 512 + i) := by
  have hin : offset.toNat + i < clusterBytes fs := by
    unfold clusterBytes at hoff ⊢
    omega
  rw [byteAt_of_lt hin, sector_of_add hi,
    show (offset.toNat + i) % 512 = offset.toNat % 512 + i by omega]

/-- What one round of the copying loop takes: the rest of the sector, or of the request. -/
def pieceLen (offset remaining : U32) : U32 :=
  if remaining < 512 - offset % 512 then remaining else 512 - offset % 512

/-- A piece is not empty, stays in its sector and in its cluster, and ends with the
sector if there is more to come. -/
structure Piece (fs : Fat32) (offset remaining len : U32) : Prop where
  pos : 0 < len.toNat
  room : offset.toNat % 512 + len.toNat ≤ 512
  less : (remaining - len).toNat + len.toNat = remaining.toNat
  next : (offset + len).toNat = offset.toNat + len.toNat
  inside : offset.toNat + len.toNat ≤ clusterBytes fs
  full : remaining.toNat ≠ len.toNat → (offset.toNat + len.toNat) % 512 = 0

/-- The loop takes a piece that ends at a sector, or at the end of what is asked for. -/
theorem piece_pieceLen (geo : Geometry fs) {offset remaining : U32} (hrem : remaining ≠ 0)
    (hoff : offset.toNat < clusterBytes fs) :
    Piece fs offset remaining (pieceLen offset remaining) := by
  have hlt := geo.cluster_lt
  have hstart : (offset % 512).toNat = offset.toNat % 512 := BitVec.toNat_umod
  have hroom : (512 - offset % 512).toNat = 512 - offset.toNat % 512 := by
    rw [BitVec.toNat_sub, hstart, show (512 : U32).toNat = 512 from rfl]
    omega
  have hlen : (pieceLen offset remaining).toNat =
      min remaining.toNat (512 - offset.toNat % 512) := by
    rw [← hroom, pieceLen]
    split_ifs with h <;> bv_omega
  unfold clusterBytes at hoff
  exact {
    pos := by bv_omega
    room := by omega
    less := by bv_omega
    next := by bv_omega
    inside := by unfold clusterBytes; omega
    full := by omega }

/-- **The copying loop delivers.**  It begins inside a cluster, or has nothing to do. -/
theorem copyLoop_delivers (geo : Geometry fs) {clusterSize offset remaining : U32} {dst : Mem}
    (hsize : clusterSize.toNat = clusterBytes fs) (hfuel : remaining.toNat < fuel)
    (hoffset : remaining = 0 ∨ offset.toNat < clusterBytes fs) :
    ∃ r, (copyLoop fs clusterSize fuel c offset remaining pos dst).value = some r ∧
      Delivers (fun i => byteAt fs c (offset.toNat + i)) remaining.toNat pos dst r := by
  induction fuel generalizing c offset remaining pos dst with
  | zero => omega
  | succ fuel ih =>
    rw [copyLoop, value_ite]
    rcases eq_or_ne remaining 0 with rfl | hrem
    · rw [if_pos rfl]
      exact ⟨_, rfl, Or.inl ⟨rfl, fun i hi => absurd hi (Nat.not_lt_zero i), fun _ _ => rfl⟩⟩
    have hoff := hoffset.resolve_left hrem
    rw [if_neg hrem, geo.bytes, value_onSome, value_readSector]
    rcases hsector : sectorAt fs ((clusterToLba fs c + offset / 512).setWidth 64) with _ | sector
    · refine ⟨_, rfl, Or.inr ⟨rfl, 0, by bv_omega, ?_⟩⟩
      change byteAt fs c (offset.toNat + 0) = none
      rw [byteAt_same_sector hoff (by omega), hsector, Option.map_none]
    simp only [Option.elim_some]
    obtain ⟨hpos, hroom, hless, hnext, hin, hfull⟩ := piece_pieceLen geo hrem hoff
    rw [← pieceLen]
    generalize pieceLen offset remaining = len at *
    generalize hdst : copyBytes dst pos sector (offset % 512).toNat len.toNat = dst'
    have hbytes : ∀ i < len.toNat, byteAt fs c (offset.toNat + i) = some (dst' (pos + i)) := by
      intro i hi
      rw [byteAt_same_sector hoff (by omega), hsector, Option.map_some, ← hdst, copyBytes_apply,
        if_pos (by omega), BitVec.toNat_umod, Nat.add_sub_cancel_left]
      rfl
    have hframe : ∀ j, j < pos ∨ pos + len.toNat ≤ j → dst' j = dst j := by
      intro j hj
      rw [← hdst, copyBytes_apply, if_neg (by omega)]
    have hrest : remaining.toNat - len.toNat = (remaining - len).toNat := by omega
    rw [value_ite]
    split_ifs with hmore
    · -- the cluster is used up, and there is more to come
      obtain ⟨hleft, hend⟩ := hmore
      have hcross : offset.toNat + len.toNat = clusterBytes fs := by bv_omega
      have hbehind : ∀ i, byteAt fs c (offset.toNat + (len.toNat + i)) =
          (link fs c).bind fun c => byteAt fs c i := by
        intro i
        rw [← Nat.add_assoc, hcross, byteAt_add_cluster geo]
      rw [value_onSome, value_followLink]
      rcases hlink : link fs c with _ | next
      · refine ⟨_, rfl, Or.inr ⟨rfl, len.toNat, by bv_omega, ?_⟩⟩
        have h := hbehind 0
        rwa [hlink, Nat.add_zero] at h
      · obtain ⟨r, hr, hdel⟩ : ∃ r, (copyLoop fs clusterSize fuel next 0 (remaining - len)
            (pos + len.toNat) dst').value = some r ∧ _ :=
            ih (by omega) (Or.inr (clusterBytes_pos geo))
        refine ⟨r, hr, Delivers.step (by omega) hbytes hframe ?_⟩
        simp only [hbehind, hlink, Option.bind_some, hrest]
        simpa using hdel
    · obtain ⟨r, hr, hdel⟩ : ∃ r, (copyLoop fs clusterSize fuel c (offset + len) (remaining - len)
          (pos + len.toNat) dst').value = some r ∧ _ := ih (by omega) (by bv_omega)
      refine ⟨r, hr, Delivers.step (by omega) hbytes hframe ?_⟩
      simpa only [hrest, ← Nat.add_assoc, ← hnext] using hdel

/-- Whole clusters in front of a byte are links in front of it. -/
theorem byteAt_add_clusters (geo : Geometry fs) (c : U32) (k i : ℕ) :
    byteAt fs c (k * clusterBytes fs + i) = (follow (link fs) k c).bind fun c => byteAt fs c i := by
  induction k generalizing c with
  | zero => rw [Nat.zero_mul, Nat.zero_add, follow_zero, Option.bind_some]
  | succ k ih =>
    rw [Nat.succ_mul, Nat.add_comm _ (clusterBytes fs), Nat.add_assoc, byteAt_add_cluster geo,
      follow_succ, Option.bind_assoc]
    exact congrArg _ (funext ih)

/-- The requests that `sb_fat32_read_file` does not refuse at once. -/
structure Requestable (entry : Dirent) (offset length : U32) : Prop where
  regular : entry.attributes &&& 0x10 = 0
  first : 2 ≤ entry.firstCluster.toNat
  inside : offset.toNat + length.toNat ≤ entry.fileSize.toNat

theorem toNat_clusterSize (geo : Geometry fs) :
    (fs.bytesPerSector * fs.sectorsPerCluster).toNat = clusterBytes fs := by
  have := geo.cluster_lt
  rw [geo.bytes, BitVec.toNat_mul, clusterBytes, show (512 : U32).toNat = 512 from rfl]
  omega

theorem toNat_mod_clusterSize (geo : Geometry fs) (offset : U32) :
    (offset % (fs.bytesPerSector * fs.sectorsPerCluster)).toNat =
      offset.toNat % clusterBytes fs := by
  rw [BitVec.toNat_umod, toNat_clusterSize geo]

/-- The checks of `sb_fat32_read_file`. -/
theorem refuses_iff (geo : Geometry fs) {entry : Dirent} {offset length : U32} :
    (entry.attributes &&& 0x10 ≠ 0 ∨ entry.fileSize < offset ∨ entry.fileSize - offset < length ∨
      entry.firstCluster < 2 ∨ fs.bytesPerSector ≠ 512) ↔ ¬ Requestable entry offset length := by
  rw [geo.bytes]
  constructor
  · rintro h ⟨hreg, hfirst, hin⟩
    rw [hreg] at h
    bv_omega
  · intro h
    by_contra hno
    push Not at hno
    obtain ⟨hreg, h₁, h₂, h₃, -⟩ := hno
    exact h ⟨hreg, by bv_omega, by bv_omega⟩

/-- **A request is answered with the bytes of the chain.** -/
theorem sbFat32ReadFile_delivers (geo : Geometry fs) {entry : Dirent} {offset length : U32}
    (req : Requestable entry offset length) (hfuel : offset.toNat + length.toNat < fuel)
    (buffer : Mem) :
    ∃ r, (sbFat32ReadFile fs fuel entry offset length buffer).value = some r ∧
      Delivers (fun i => byteAt fs entry.firstCluster (offset.toNat + i)) length.toNat 0
      buffer r := by
  rw [sbFat32ReadFile, if_neg fun h => (refuses_iff geo).1 h req]
  rcases eq_or_ne length 0 with rfl | hlen
  · exact ⟨_, rfl, Or.inl ⟨rfl, fun i hi => absurd hi (Nat.not_lt_zero i), fun _ _ => rfl⟩⟩
  have hcs := toNat_clusterSize geo
  have hpos := clusterBytes_pos geo
  have hmod := toNat_mod_clusterSize geo offset
  have hbytes : ∀ i, byteAt fs entry.firstCluster (offset.toNat + i) =
      (follow (link fs) (offset.toNat / clusterBytes fs) entry.firstCluster).bind fun c =>
        byteAt fs c (offset.toNat % clusterBytes fs + i) := by
    intro i
    rw [← byteAt_add_clusters geo, ← Nat.add_assoc, Nat.mul_comm, Nat.div_add_mod]
  rw [if_neg hlen, value_onSome, value_seek (by omega) (by omega), Option.elim_some, hcs]
  rcases hseek : follow (link fs) (offset.toNat / clusterBytes fs) entry.firstCluster with _ | c
  · refine ⟨_, rfl, Or.inr ⟨rfl, 0, by bv_omega, ?_⟩⟩
    change byteAt fs entry.firstCluster (offset.toNat + 0) = none
    rw [hbytes, hseek, Option.bind_none]
  · have hoff : (offset % (fs.bytesPerSector * fs.sectorsPerCluster)).toNat < clusterBytes fs := by
      rw [hmod]
      exact Nat.mod_lt _ hpos
    obtain ⟨r, hr, hdel⟩ := copyLoop_delivers geo (c := c) hcs (by omega : length.toNat < fuel)
      (Or.inr hoff)
    refine ⟨r, hr, ?_⟩
    simp only [hbytes, hseek, Option.bind_some]
    rwa [hmod] at hdel

/-! ### The content of a file -/

theorem toNat_le32 (p : Mem) (a : ℕ) : (le32 p a).toNat = readLE p a 4 := by
  have h₀ := (p a).isLt
  have h₁ := (p (a + 1)).isLt
  have h₂ := (p (a + 2)).isLt
  have h₃ := (p (a + 3)).isLt
  have hadd : ∀ {k x y : ℕ}, x < 2 ^ k → x ||| 2 ^ k * y = x + 2 ^ k * y := by
    intro k x y h
    rw [Nat.or_comm, ← Nat.two_pow_add_eq_or_of_lt h, Nat.add_comm]
  have hbyte : ∀ {k x : ℕ}, x < 2 ^ 8 → k ≤ 24 → (x % 2 ^ 32) <<< k % 2 ^ 32 = 2 ^ k * x := by
    intro k x h hk
    have : 2 ^ k ≤ 2 ^ 24 := Nat.pow_le_pow_right (by decide) hk
    have hmul : 2 ^ k * x < 2 ^ 24 * 2 ^ 8 := Nat.mul_lt_mul_of_le_of_lt this h (by decide)
    rw [Nat.mod_eq_of_lt (by omega : x < 2 ^ 32), Nat.shiftLeft_eq, Nat.mul_comm,
      Nat.mod_eq_of_lt (by omega)]
  change _ = (p a).toNat + 256 * ((p (a + 1)).toNat + 256 * ((p (a + 2)).toNat +
    256 * ((p (a + 3)).toNat + 256 * 0)))
  simp only [le32, BitVec.toNat_or, BitVec.toNat_shiftLeft, BitVec.toNat_setWidth]
  rw [hbyte h₁ (by decide), hbyte h₂ (by decide), hbyte h₃ (by decide),
    Nat.mod_eq_of_lt (by omega : (p a).toNat < 2 ^ 32), hadd (k := 8) h₀, hadd (k := 16) (by omega),
    hadd (k := 24) (by omega)]
  omega

section Content

variable {disk : ℕ → Mem}

/-- The entry of cluster `c` in the first FAT of a volume. -/
def fatEntry (disk : ℕ → Mem) (fs : Fat32) (c : ℕ) : ℕ :=
  readLE (disk (fs.reservedSectors.toNat + 4 * c / 512)) (4 * c % 512) 4

/-- The cluster after `c`: the low 28 bits of its entry, unless they end the chain. -/
def nextCluster (disk : ℕ → Mem) (fs : Fat32) (c : ℕ) : Option ℕ :=
  if fatEntry disk fs c % 2 ^ 28 < 2 ∨ 0x0FFFFFF8 ≤ fatEntry disk fs c % 2 ^ 28 then none
  else some (fatEntry disk fs c % 2 ^ 28)

/-- Byte `i` of the clusters of the chain from `c` on, one after the other. -/
def contentByte (disk : ℕ → Mem) (fs : Fat32) (c i : ℕ) : Option U8 :=
  (follow (nextCluster disk fs) (i / clusterBytes fs) c).map fun c =>
    disk (fs.firstDataSector.toNat + (c - 2) * fs.sectorsPerCluster.toNat +
      i % clusterBytes fs / 512) (i % 512)

/-- A device with 512-byte sectors, at most `2 ^ 32` of them, whose reads succeed. -/
structure Serves (disk : ℕ → Mem) (device : BlockDevice) : Prop where
  size : device.sectorSize = 512
  count : device.sectorCount.toNat ≤ 2 ^ 32
  read : ∀ lba : U64, lba < device.sectorCount → device.read lba 1 = some (disk lba.toNat)

/-- A cluster has its entry in the first FAT and its data on the device. -/
def ClusterInside (fs : Fat32) (c : ℕ) : Prop :=
  4 * c + 4 ≤ 512 * fs.fatSizeSectors.toNat ∧
    fs.firstDataSector.toNat + (c - 2) * fs.sectorsPerCluster.toNat +
      fs.sectorsPerCluster.toNat ≤ fs.mount.totalSectors.toNat

instance (fs : Fat32) (c : ℕ) : Decidable (ClusterInside fs c) :=
  inferInstanceAs (Decidable (_ ∧ _))

/-- Every cluster of the chain lies inside the volume. -/
def ChainInside (disk : ℕ → Mem) (fs : Fat32) (c : ℕ) : Prop :=
  ∀ k d, follow (nextCluster disk fs) k c = some d → ClusterInside fs d

/-- A volume whose sectors can all be read. -/
structure Readable (disk : ℕ → Mem) (fs : Fat32) : Prop where
  geometry : Geometry fs
  sector : ∀ lba : U64, lba < fs.mount.totalSectors → sectorAt fs lba = some (disk lba.toNat)

/-- A volume whose sectors can all be read and have numbers of 32 bits. -/
structure OnDisk (disk : ℕ → Mem) (fs : Fat32) : Prop extends Readable disk fs where
  count : fs.mount.totalSectors.toNat ≤ 2 ^ 32

/-- What is mounted on a device whose reads succeed can be read. -/
theorem readable_of_mount {device : BlockDevice} {mount : VfsMount}
    (hread : ∀ lba : U64, lba < device.sectorCount → device.read lba 1 = some (disk lba.toNat))
    (hvfs : sbVfsMount device = .ok mount) (hmount : (sbFat32Mount mount).value = some fs) :
    Readable disk fs := by
  obtain ⟨hgeo, rfl⟩ := geometry_of_mount hmount
  unfold sbVfsMount at hvfs
  split_ifs at hvfs with hzero
  obtain hmount := Except.ok.inj hvfs
  refine ⟨hgeo, fun lba hlba => ?_⟩
  have hroom : ¬ (fs.mount.totalSectors ≤ lba ∨
      fs.mount.totalSectors - lba < (1 : U32).setWidth 64) := by bv_omega
  rw [← hmount] at hlba
  rw [sectorAt, readSector, value_tell, sbVfsReadSectors, if_neg (by decide),
    if_neg hroom, ← hmount, hread lba hlba]

/-- What is mounted on a device that serves its sectors. -/
theorem onDisk_of_mount {device : BlockDevice} {mount : VfsMount} (hserves : Serves disk device)
    (hvfs : sbVfsMount device = .ok mount) (hmount : (sbFat32Mount mount).value = some fs) :
    OnDisk disk fs := by
  refine ⟨readable_of_mount hserves.read hvfs hmount, ?_⟩
  obtain ⟨-, rfl⟩ := geometry_of_mount hmount
  unfold sbVfsMount at hvfs
  split_ifs at hvfs with hzero
  rw [← Except.ok.inj hvfs]
  exact hserves.count

/-- The lookup multiplies by four in 32 bits. -/
theorem toNat_fatOffset (c : U32) : (c * 4).toNat = 4 * (c.toNat % 2 ^ 30) := by
  rw [BitVec.toNat_mul, show (4 : U32).toNat = 4 from rfl]
  omega

/-- An entry of the FAT does not cross the end of its sector. -/
theorem fatIndex_fits (geo : Geometry fs) (c : U32) :
    ¬ fs.bytesPerSector < c * 4 % fs.bytesPerSector + 4 := by
  have hindex : (c * 4 % 512).toNat = 4 * (c.toNat % 2 ^ 30) % 512 := by
    rw [BitVec.toNat_umod, toNat_fatOffset]
    rfl
  rw [geo.bytes, BitVec.lt_def, BitVec.toNat_add, hindex, show (512 : U32).toNat = 512 from rfl,
    show (4 : U32).toNat = 4 from rfl]
  omega

theorem toNat_fatSector (geo : Geometry fs) (c : U32) : ((fatSector fs c).setWidth 64).toNat =
    fs.reservedSectors.toNat + 4 * (c.toNat % 2 ^ 30) / 512 := by
  have := geo.reserved_lt
  rw [fatSector, geo.bytes, BitVec.toNat_setWidth, BitVec.toNat_add, BitVec.toNat_udiv,
    toNat_fatOffset, show (512 : U32).toNat = 512 from rfl]
  omega

/-- The entry that is read is that of `c % 2 ^ 30`. -/
theorem Readable.link_eq (on : Readable disk fs)
    (hin : 4 * (c.toNat % 2 ^ 30) + 4 ≤ 512 * fs.fatSizeSectors.toNat) :
    (link fs c).map BitVec.toNat = nextCluster disk fs (c.toNat % 2 ^ 30) := by
  have hgeo := on.geometry
  have hres := hgeo.reserved_lt
  have hdata := hgeo.firstData
  have hdev := hgeo.inside
  have hindex : (c * 4 % fs.bytesPerSector).toNat = 4 * (c.toNat % 2 ^ 30) % 512 := by
    rw [hgeo.bytes, BitVec.toNat_umod, toNat_fatOffset]
    rfl
  have hsector := toNat_fatSector hgeo c
  have hread : sectorAt fs ((fatSector fs c).setWidth 64) =
      some (disk (fs.reservedSectors.toNat + 4 * (c.toNat % 2 ^ 30) / 512)) := by
    rw [on.sector _ (by rw [BitVec.lt_def, hsector]; omega), hsector]
  have hnext : ∀ p : Mem, (le32 p (c * 4 % fs.bytesPerSector).toNat &&& 0x0FFFFFFF).toNat =
      readLE p (4 * (c.toNat % 2 ^ 30) % 512) 4 % 2 ^ 28 := by
    intro p
    rw [show (0x0FFFFFFF : U32) = BitVec.ofNat 32 (2 ^ 28 - 1) from rfl,
      Words.toNat_and_low _ (by decide), toNat_le32, hindex]
  rw [link, followLink, value_onSome, fatNextCluster, value_ite, if_neg (fatIndex_fits hgeo c),
    value_onSome, value_readSector, hread]
  simp only [Option.elim_some, value_pure, value_ite]
  have hvalue := hnext (disk (fs.reservedSectors.toNat + 4 * (c.toNat % 2 ^ 30) / 512))
  rw [nextCluster, fatEntry, ← hvalue]
  generalize le32 _ _ &&& 0x0FFFFFFF = next
  have hends : 0x0FFFFFF8 ≤ next ∨ next < 2 ↔ next.toNat < 2 ∨ 0x0FFFFFF8 ≤ next.toNat := by
    bv_omega
  rw [if_congr hends rfl rfl]
  split_ifs with hend
  · rfl
  · rfl

/-- A link that the lookup finds has 28 bits. -/
theorem link_bounds {d : U32} (h : link fs c = some d) : 2 ≤ d.toNat ∧ d.toNat < 2 ^ 28 := by
  rw [link, followLink, value_onSome] at h
  rcases hnext : (fatNextCluster fs c).value with _ | next
  · rw [hnext] at h
    cases h
  · rw [hnext, Option.elim_some, value_ite, value_pure, value_pure, Option.ite_none_left_eq_some,
      Option.some.injEq] at h
    obtain ⟨hno, rfl⟩ := h
    bv_omega

/-- The rest of a chain that lies inside does. -/
theorem ChainInside.next {c d : ℕ} (h : ChainInside disk fs c)
    (hd : nextCluster disk fs c = some d) : ChainInside disk fs d := by
  intro k e he
  refine h (k + 1) e ?_
  rw [follow_succ, hd, Option.bind_some, he]

/-- **Below `2 ^ 30` the reader follows the chain.** -/
theorem Readable.follow_link (on : Readable disk fs) (hc : c.toNat < 2 ^ 30)
    (hin : ChainInside disk fs c.toNat) (k : ℕ) :
    (follow (link fs) k c).map BitVec.toNat = follow (nextCluster disk fs) k c.toNat := by
  induction k generalizing c with
  | zero => rfl
  | succ k ih =>
    have hmod : c.toNat % 2 ^ 30 = c.toNat := Nat.mod_eq_of_lt hc
    have hlink := on.link_eq (c := c) (by rw [hmod]; exact (hin 0 _ rfl).1)
    rw [hmod] at hlink
    rw [follow_succ, follow_succ, ← hlink]
    rcases hd : link fs c with _ | d
    · rfl
    · rw [hd] at hlink
      exact ih ((link_bounds hd).2.trans (by decide)) (hin.next hlink.symm)

/-- The data of a cluster inside the volume is where the reader looks for it, in 32 bits. -/
theorem Readable.sectorAt_data (on : Readable disk fs) (hc : 2 ≤ c.toNat) {s : ℕ}
    (hs : s < fs.sectorsPerCluster.toNat) (hin : ClusterInside fs c.toNat) :
    sectorAt fs ((clusterToLba fs c + BitVec.ofNat 32 s).setWidth 64) = some (disk
      ((fs.firstDataSector.toNat + (c.toNat - 2) * fs.sectorsPerCluster.toNat + s) % 2 ^ 32)) := by
  have hsub : (c - 2).toNat = c.toNat - 2 := by bv_omega
  have hlba : ((clusterToLba fs c + BitVec.ofNat 32 s).setWidth 64).toNat =
      (fs.firstDataSector.toNat + (c.toNat - 2) * fs.sectorsPerCluster.toNat + s) % 2 ^ 32 := by
    rw [clusterToLba, BitVec.toNat_setWidth, BitVec.toNat_add, BitVec.toNat_add, BitVec.toNat_mul,
      hsub, BitVec.toNat_ofNat]
    omega
  have hroom := hin.2
  have hmod :=
    Nat.mod_le (fs.firstDataSector.toNat + (c.toNat - 2) * fs.sectorsPerCluster.toNat + s) (2 ^ 32)
  rw [on.sector _ (by rw [BitVec.lt_def, hlba]; omega), hlba]

/-- Every chain goes on with clusters from two on, whose numbers have 28 bits. -/
theorem nextCluster_bounds {c d : ℕ} (h : nextCluster disk fs c = some d) : 2 ≤ d ∧ d < 2 ^ 28 := by
  rw [nextCluster, Option.ite_none_left_eq_some, Option.some.injEq] at h
  omega

/-- A byte of a cluster is in one of its sectors. -/
theorem sector_lt (geo : Geometry fs) (i : ℕ) :
    i % clusterBytes fs / 512 < fs.sectorsPerCluster.toNat := by
  have := Nat.mod_lt i (clusterBytes_pos geo)
  rw [clusterBytes] at this ⊢
  omega

/-- Byte `i` of the chain from `c` on, with the number of its sector in 32 bits. -/
def readerByte (disk : ℕ → Mem) (fs : Fat32) (c i : ℕ) : Option U8 :=
  (follow (nextCluster disk fs) (i / clusterBytes fs) c).map fun c =>
    disk ((fs.firstDataSector.toNat + (c - 2) * fs.sectorsPerCluster.toNat +
      i % clusterBytes fs / 512) % 2 ^ 32) (i % 512)

/-- It is there when the content is. -/
theorem readerByte_ne_none {c : ℕ} :
    readerByte disk fs c i ≠ none ↔ contentByte disk fs c i ≠ none := by
  rw [readerByte, contentByte, Ne, Ne, Option.map_eq_none_iff, Option.map_eq_none_iff]

/-- On a volume with numbers of 32 bits it is the content. -/
theorem OnDisk.readerByte_eq (on : OnDisk disk fs) {c : ℕ} (hin : ChainInside disk fs c) (i : ℕ) :
    readerByte disk fs c i = contentByte disk fs c i := by
  rw [readerByte, contentByte]
  rcases hd : follow (nextCluster disk fs) (i / clusterBytes fs) c with _ | d
  · rfl
  · have hs := sector_lt on.geometry i
    have hroom := (hin _ _ hd).2
    have hcount := on.count
    rw [Option.map_some, Option.map_some, Nat.mod_eq_of_lt (by omega)]

/-- **Below `2 ^ 30` the reader follows the chain to the byte.** -/
theorem Readable.byteAt_eq (on : Readable disk fs) (hc : c.toNat < 2 ^ 30) (hc2 : 2 ≤ c.toNat)
    (hin : ChainInside disk fs c.toNat) (i : ℕ) : byteAt fs c i = readerByte disk fs c.toNat i := by
  have hfollow := on.follow_link hc hin (i / clusterBytes fs)
  rw [byteAt, readerByte, ← hfollow]
  rcases hd : follow (link fs) (i / clusterBytes fs) c with _ | d
  · rfl
  · rw [hd] at hfollow
    have hd := follow_invariant (P := (2 ≤ ·)) (fun h => (nextCluster_bounds h).1) hc2 hfollow.symm
    rw [Option.bind_some, Option.map_some, Option.map_some,
      on.sectorAt_data hd (sector_lt on.geometry i) (hin _ _ hfollow.symm)]
    rfl

/-- **Below `2 ^ 30` the reader sees the content.** -/
theorem byteAt_eq_contentByte (on : OnDisk disk fs) (hc : c.toNat < 2 ^ 30) (hc2 : 2 ≤ c.toNat)
    (hin : ChainInside disk fs c.toNat) (i : ℕ) :
    byteAt fs c i = contentByte disk fs c.toNat i :=
  (on.byteAt_eq hc hc2 hin i).trans (on.readerByte_eq hin i)

/-! ### A first cluster with more than 30 bits

The lookup of its link goes to the entry of `c % 2 ^ 30`, and from there on the reader follows the
chain of that cluster: a volume that has room for `c` has room for every cluster that a link of 28
bits can name. -/

/-- What has room for a cluster has room for the clusters below. -/
theorem ClusterInside.mono {c d : ℕ} (h : ClusterInside fs c) (hle : d ≤ c) :
    ClusterInside fs d := by
  have hdata := Nat.mul_le_mul_right fs.sectorsPerCluster.toNat (Nat.sub_le_sub_right hle 2)
  obtain ⟨hentry, hroom⟩ := h
  exact ⟨by omega, by omega⟩

/-- The chain of `c % 2 ^ 30` lies inside the volume. -/
theorem ChainInside.wrapped {c : ℕ} (h : ChainInside disk fs c) :
    ChainInside disk fs (c % 2 ^ 30) := by
  rcases Nat.lt_or_ge c (2 ^ 30) with hsmall | hlarge
  · rwa [Nat.mod_eq_of_lt hsmall]
  · intro k e he
    refine (h 0 c rfl).mono ?_
    have hlt := follow_invariant (P := (· < 2 ^ 30))
      (fun hnext => (nextCluster_bounds hnext).2.trans (by decide)) (Nat.mod_lt c (by decide)) he
    omega

/-- Behind the first cluster there are the bytes of the chain from the next one on. -/
theorem readerByte_add_cluster (geo : Geometry fs) (c i : ℕ) :
    readerByte disk fs c (clusterBytes fs + i) =
      (nextCluster disk fs c).bind fun d => readerByte disk fs d i := by
  have hmod : (clusterBytes fs + i) % 512 = i % 512 := by
    rw [clusterBytes, Nat.mul_add_mod]
  rw [readerByte, Nat.add_div_left _ (clusterBytes_pos geo), Nat.add_mod_left, hmod, follow_succ,
    Option.map_bind]
  rfl

/-- The first cluster is always there. -/
theorem contentByte_ne_none {c : ℕ} (hi : i < clusterBytes fs) :
    contentByte disk fs c i ≠ none := by
  rw [contentByte, Nat.div_eq_of_lt hi, follow_zero, Option.map_some]
  exact Option.some_ne_none _

/-- In the first cluster the reader sees the bytes of the chain. -/
theorem Readable.byteAt_first (on : Readable disk fs) (hc2 : 2 ≤ c.toNat)
    (hin : ClusterInside fs c.toNat) (hi : i < clusterBytes fs) :
    byteAt fs c i = readerByte disk fs c.toNat i := by
  have hs := sector_lt on.geometry i
  rw [Nat.mod_eq_of_lt hi] at hs
  rw [byteAt_of_lt hi, on.sectorAt_data hc2 hs hin, readerByte, Nat.div_eq_of_lt hi,
    Nat.mod_eq_of_lt hi]
  rfl

/-- Behind it the reader sees those of the chain of `c % 2 ^ 30`. -/
theorem Readable.byteAt_behind (on : Readable disk fs) (hin : ChainInside disk fs c.toNat)
    (hi : clusterBytes fs ≤ i) : byteAt fs c i = readerByte disk fs (c.toNat % 2 ^ 30) i := by
  have hfat := (hin 0 _ rfl).1
  have hlink := on.link_eq (c := c) (by omega)
  obtain ⟨j, rfl⟩ := Nat.exists_eq_add_of_le hi
  rw [byteAt_add_cluster on.geometry, readerByte_add_cluster on.geometry, ← hlink]
  rcases hd : link fs c with _ | d
  · rfl
  · rw [hd] at hlink
    obtain ⟨htwo, hlt⟩ := link_bounds hd
    exact on.byteAt_eq (hlt.trans (by decide)) htwo (hin.wrapped.next hlink.symm) j

/-- Two ways to answer a request for `n` bytes that are alike: the same bytes, or both
miss one. -/
def SameOutcome (bytes bytes' : ℕ → Option U8) (n : ℕ) : Prop :=
  (∀ i < n, bytes i = bytes' i) ∨ (∃ i < n, bytes i = none) ∧ ∃ i < n, bytes' i = none

/-- The chain has a cluster for every byte of the request. -/
def ChainReaches (disk : ℕ → Mem) (fs : Fat32) (c offset length : ℕ) : Prop :=
  (follow (nextCluster disk fs) ((offset + length - 1) / clusterBytes fs) c).isSome

/-- A read returns the file: it succeeds if and only if it is empty or the chain
reaches far enough, and then the buffer begins with the bytes asked for. -/
def ReadCorrect (disk : ℕ → Mem) (fs : Fat32) (entry : Dirent) (offset length : U32)
    (buffer : Mem) : Prop :=
  ∀ fuel > offset.toNat + length.toNat,
    ∃ r, (sbFat32ReadFile fs fuel entry offset length buffer).value = some r ∧
      (r.1 = 1 ↔ length = 0 ∨
        ChainReaches disk fs entry.firstCluster.toNat offset.toNat length.toNat) ∧
      (r.1 = 1 → 0 < length → ∀ i < length.toNat,
        contentByte disk fs entry.firstCluster.toNat (offset.toNat + i) = some (r.2 i))

/-- The chain reaches as far as its last byte does. -/
theorem chainReaches_iff {c offset length : ℕ} (hlen : 0 < length) :
    ChainReaches disk fs c offset length ↔
      ∀ i < length, contentByte disk fs c (offset + i) ≠ none := by
  have hsome : ∀ i, contentByte disk fs c i ≠ none ↔
      (follow (nextCluster disk fs) (i / clusterBytes fs) c).isSome := by
    intro i
    rw [← Option.isSome_iff_ne_none, contentByte, Option.isSome_map]
  rw [ChainReaches]
  constructor
  · intro h i hi
    exact (hsome _).2 (follow_isSome_of_le (Nat.div_le_div_right (by omega)) h)
  · intro h
    have hlast := (hsome _).1 (h (length - 1) (by omega))
    rwa [← Nat.add_sub_assoc hlen] at hlast

/-- A read returns the file if and only if the reader's own view of it comes to the
same. -/
theorem readCorrect_iff_sameOutcome (geo : Geometry fs) {entry : Dirent} {offset length : U32}
    (req : Requestable entry offset length) (buffer : Mem) :
    ReadCorrect disk fs entry offset length buffer ↔
      SameOutcome (fun i => byteAt fs entry.firstCluster (offset.toNat + i))
        (fun i => contentByte disk fs entry.firstCluster.toNat (offset.toNat + i))
        length.toNat := by
  constructor
  · intro hcorrect
    obtain ⟨r, hr, hone, hbytes⟩ := hcorrect _ (Nat.lt_succ_self _)
    obtain ⟨r', hr', hdel⟩ := sbFat32ReadFile_delivers geo req (Nat.lt_succ_self _) buffer
    obtain rfl := Option.some.inj (hr.symm.trans hr')
    rcases eq_or_ne length 0 with rfl | hlen
    · exact Or.inl fun i hi => absurd hi (Nat.not_lt_zero i)
    rcases hdel with ⟨hok, hall, -⟩ | ⟨hfail, hmissing⟩
    · refine Or.inl fun i hi => ?_
      have h := hall i hi
      rw [Nat.zero_add] at h
      exact h.trans (hbytes hok (by bv_omega) i hi).symm
    · refine Or.inr ⟨hmissing, ?_⟩
      by_contra hnone
      push Not at hnone
      have hreach := (chainReaches_iff (by bv_omega)).2 hnone
      rw [hone.2 (Or.inr hreach)] at hfail
      cases hfail
  · intro hsame fuel hfuel
    obtain ⟨r, hr, hdel⟩ := sbFat32ReadFile_delivers geo req hfuel buffer
    refine ⟨r, hr, ?_⟩
    rcases eq_or_ne length 0 with rfl | hlen
    · rcases hdel with ⟨hok, -, -⟩ | ⟨-, i, hi, -⟩
      · exact ⟨⟨fun _ => Or.inl rfl, fun _ => hok⟩, fun _ h => absurd h (by decide)⟩
      · exact absurd hi (Nat.not_lt_zero i)
    have hpos : 0 < length.toNat := by bv_omega
    rw [chainReaches_iff hpos]
    rcases hdel with ⟨hok, hall, -⟩ | ⟨hfail, j, hj, hmissing⟩
    · rcases hsame with heq | ⟨⟨i, hi, hnone⟩, -⟩
      · have hcontent : ∀ i < length.toNat,
            contentByte disk fs entry.firstCluster.toNat (offset.toNat + i) = some (r.2 i) := by
          intro i hi
          have h := hall i hi
          rw [Nat.zero_add] at h
          exact (heq i hi).symm.trans h
        refine ⟨⟨fun _ => Or.inr fun i hi => ?_, fun _ => hok⟩, fun _ _ => hcontent⟩
        rw [hcontent i hi]
        exact Option.some_ne_none _
      · exact absurd ((hall i hi).symm.trans hnone) (Option.some_ne_none _)
    · have hnone : ∃ i < length.toNat,
          contentByte disk fs entry.firstCluster.toNat (offset.toNat + i) = none := by
        rcases hsame with heq | ⟨-, hnone⟩
        · exact ⟨j, hj, (heq j hj).symm.trans hmissing⟩
        · exact hnone
      obtain ⟨i, hi, hnone⟩ := hnone
      have hzero : r.1 ≠ 1 := by
        rw [hfail]
        decide
      refine ⟨⟨fun h => absurd h hzero, ?_⟩, fun h => absurd h hzero⟩
      rintro (h | h)
      · exact absurd h hlen
      · exact absurd hnone (h i hi)

/-- For a request, the chain of `d` behind its first cluster is as good as the chain of `c`: both
end before the request does, or the bytes of the request that are behind the first cluster are the
same. -/
def SameBehind (disk : ℕ → Mem) (fs : Fat32) (c d offset length : ℕ) : Prop :=
  ¬ ChainReaches disk fs c offset length ∧ ¬ ChainReaches disk fs d offset length ∨
    ∀ i < length, clusterBytes fs ≤ offset + i →
      contentByte disk fs d (offset + i) = contentByte disk fs c (offset + i)

/-- A chain that ends before a request does has no byte for a place behind its first cluster. -/
theorem exists_missing {c offset length : ℕ} (hlen : 0 < length)
    (h : ¬ ChainReaches disk fs c offset length) :
    ∃ i < length, clusterBytes fs ≤ offset + i ∧ contentByte disk fs c (offset + i) = none := by
  rw [chainReaches_iff hlen] at h
  push Not at h
  obtain ⟨i, hi, hnone⟩ := h
  exact ⟨i, hi, Nat.not_lt.1 fun hlt => contentByte_ne_none hlt hnone, hnone⟩

/-- **When a read returns the file.**  The lookup of the first link multiplies a cluster
number of 32 bits by four.  Below `2 ^ 30` that is exact, and every later link has 28
bits; a request that ends in the first cluster needs no link.  Otherwise the reader
goes on with the chain of `first_cluster % 2 ^ 30`, and is right exactly if the FAT
and the data happen to be such that this chain will do as well. -/
theorem file_read_iff {device : BlockDevice} {mount : VfsMount} (hserves : Serves disk device)
    (hvfs : sbVfsMount device = .ok mount) (hmount : (sbFat32Mount mount).value = some fs)
    {entry : Dirent} {offset length : U32} (req : Requestable entry offset length)
    (hin : ChainInside disk fs entry.firstCluster.toNat) (buffer : Mem) :
    ReadCorrect disk fs entry offset length buffer ↔
      entry.firstCluster.toNat < 2 ^ 30 ∨ offset.toNat + length.toNat ≤ clusterBytes fs ∨
        SameBehind disk fs entry.firstCluster.toNat (entry.firstCluster.toNat % 2 ^ 30)
          offset.toNat length.toNat := by
  have on := onDisk_of_mount hserves hvfs hmount
  have hfirst : ∀ {i}, i < clusterBytes fs → byteAt fs _ i = _ := fun hi =>
    (on.byteAt_first req.first (hin 0 _ rfl) hi).trans (on.readerByte_eq hin _)
  have hbehind : ∀ {i}, clusterBytes fs ≤ i → byteAt fs _ i = _ := fun hi =>
    (on.byteAt_behind hin hi).trans (on.readerByte_eq hin.wrapped _)
  rw [readCorrect_iff_sameOutcome on.geometry req]
  constructor
  · rintro (hsame | ⟨⟨i, hi, hnone⟩, j, hj, hmissing⟩)
    · exact Or.inr (Or.inr (Or.inr fun i hi hge => (hbehind hge).symm.trans (hsame i hi)))
    · have hlen : 0 < length.toNat := Nat.zero_lt_of_lt hi
      refine Or.inr (Or.inr (Or.inl ⟨fun hreach => ?_, fun hreach => ?_⟩))
      · exact (chainReaches_iff hlen).1 hreach j hj hmissing
      · rcases Nat.lt_or_ge (offset.toNat + i) (clusterBytes fs) with hlt | hge
        · exact contentByte_ne_none hlt ((hfirst hlt).symm.trans hnone)
        · exact (chainReaches_iff hlen).1 hreach i hi ((hbehind hge).symm.trans hnone)
  · rintro (hsmall | hinside | ⟨hshort, hshort'⟩ | hsame)
    · exact Or.inl fun i _ => byteAt_eq_contentByte on hsmall req.first hin _
    · exact Or.inl fun i hi => hfirst (by omega)
    · rcases Nat.eq_zero_or_pos length.toNat with hzero | hlen
      · exact Or.inl fun i hi => absurd hi (by omega)
      obtain ⟨i, hi, hge, hnone⟩ := exists_missing hlen hshort'
      obtain ⟨j, hj, -, hmissing⟩ := exists_missing hlen hshort
      exact Or.inr ⟨⟨i, hi, (hbehind hge).trans hnone⟩, j, hj, hmissing⟩
    · refine Or.inl fun i hi => ?_
      rcases Nat.lt_or_ge (offset.toNat + i) (clusterBytes fs) with hlt | hge
      · exact hfirst hlt
      · exact (hbehind hge).trans (hsame i hi hge)

/-! ### Volumes of one FAT layout -/

/-- The sectors of a disk with these bytes. -/
def sectorsOf (image : Mem) (lba : ℕ) : Mem := fun a => image (512 * lba + a)

/-- A driver that reads them. -/
def diskDevice (image : Mem) (count : U64) : BlockDevice :=
  ⟨count, 512, fun lba _ => some (sectorsOf image lba.toNat)⟩

/-- The mount of such a disk. -/
def diskMount (image : Mem) (count : U64) : VfsMount := ⟨diskDevice image count, 512, count⟩

/-- A boot sector: one reserved sector, one sector in a cluster, the root directory in
cluster two. -/
def putBoot (fatSize total : ℕ) (image : Mem) : Mem :=
  writeLE (writeLE (writeLE (writeLE (writeLE (writeLE (writeLE image 11 2 512) 13 1 1) 14 2 1)
    32 4 total) 36 4 fatSize) 44 4 2) 510 2 0xAA55

/-- An entry of the first FAT. -/
def putFat (c next : ℕ) (image : Mem) : Mem := writeLE image (512 + 4 * c) 4 next

/-- The volume that its boot sector describes. -/
def diskVolume (fatSize : U32) (image : Mem) (count : U64) : Fat32 :=
  ⟨diskMount image count, 512, 1, 1, fatSize, 2, 1 + 2 * fatSize⟩

/-- The device of the examples serves its image. -/
theorem serves_diskDevice (image : Mem) (count : U64) (hcount : count.toNat ≤ 2 ^ 32) :
    Serves (sectorsOf image) (diskDevice image count) := ⟨rfl, hcount, fun _ _ => rfl⟩

/-- A chain of two clusters. -/
theorem chainInside_two {c d : ℕ} (hc : nextCluster disk fs c = some d)
    (hd : nextCluster disk fs d = none) (hinc : ClusterInside fs c) (hind : ClusterInside fs d) :
    ChainInside disk fs c := by
  intro k e he
  rcases k with _ | _ | k
  · obtain rfl := Option.some.inj he
    exact hinc
  · rw [follow_succ, hc] at he
    obtain rfl := Option.some.inj he
    exact hind
  · rw [follow_succ, hc, Option.bind_some, follow_succ, hd, Option.bind_none] at he
    cases he

/-- Eight sectors with a file in clusters three and four, and its record in the root
directory. -/
def smallImage : Mem :=
  putBoot 1 8 (putFat 3 4 (putFat 4 0x0FFFFFFF
    (writeLE (writeLE (writeLE (writeLE (fun _ => 0) 1536 1 0x41) 1547 1 0x20) 1562 2 3)
      1564 4 1024)))

/-- A file of 1024 bytes. -/
def fileEntry (cluster : U32) : Dirent := ⟨fun _ => 0, 0x20, cluster, 1024⟩

/-- A request over the boundary of the two clusters. -/
theorem smallVolume_read :
    ReadCorrect (sectorsOf smallImage) (diskVolume 1 smallImage 8) (fileEntry 3) 500 100
      (fun _ => 0) :=
  (file_read_iff (serves_diskDevice smallImage 8 (by decide)) rfl rfl
    ⟨by decide, by decide, by decide⟩
    (chainInside_two (d := 4) (by decide) (by decide) (by decide) (by decide)) _).2
    (Or.inl (by decide))

/-- A volume so large that cluster `2 ^ 30 + 1` is part of it.  Its entry leads to cluster
five; the entry of cluster one ends a chain. -/
def wideImage : Mem :=
  putBoot 0x800001 (2 ^ 31) (putFat (2 ^ 30 + 1) 5 (putFat 1 0x0FFFFFFF fun _ => 0))

/-- The large volume of the examples is on its disk. -/
theorem onDisk_wideVolume :
    OnDisk (sectorsOf wideImage) (diskVolume 0x800001 wideImage 0x80000000) :=
  onDisk_of_mount (serves_diskDevice wideImage 0x80000000 (by decide)) rfl rfl

/-- Its chain is inside the volume. -/
theorem chainInside_wideVolume :
    ChainInside (sectorsOf wideImage) (diskVolume 0x800001 wideImage 0x80000000) (2 ^ 30 + 1) :=
  chainInside_two (d := 5) (by decide) (by decide) (by decide) (by decide)

/-- The reader takes the entry of cluster one for that of cluster `2 ^ 30 + 1`. -/
theorem link_wideVolume : link (diskVolume 0x800001 wideImage 0x80000000) 0x40000001 = none := by
  have h := onDisk_wideVolume.toReadable.link_eq (c := 0x40000001) (by decide)
  rw [show nextCluster _ _ _ = none from by decide] at h
  exact Option.map_eq_none_iff.1 h

/-- A file of two clusters of which only the first can be read. -/
theorem wideVolume_misread :
    Serves (sectorsOf wideImage) (diskDevice wideImage 0x80000000) ∧
    sbVfsMount (diskDevice wideImage 0x80000000) = .ok (diskMount wideImage 0x80000000) ∧
    (sbFat32Mount (diskMount wideImage 0x80000000)).value =
      some (diskVolume 0x800001 wideImage 0x80000000) ∧
    Requestable (fileEntry 0x40000001) 0 513 ∧
    ChainInside (sectorsOf wideImage) (diskVolume 0x800001 wideImage 0x80000000) (2 ^ 30 + 1) ∧
    ¬ ReadCorrect (sectorsOf wideImage) (diskVolume 0x800001 wideImage 0x80000000)
      (fileEntry 0x40000001) 0 513 (fun _ => 0) := by
  have req : Requestable (fileEntry 0x40000001) 0 513 := ⟨by decide, by decide, by decide⟩
  refine ⟨serves_diskDevice _ _ (by decide), rfl, rfl, req, chainInside_wideVolume, ?_⟩
  have hreach : ChainReaches (sectorsOf wideImage) (diskVolume 0x800001 wideImage 0x80000000)
      (2 ^ 30 + 1) 0 513 := by
    unfold ChainReaches
    decide
  have hsome := (chainReaches_iff (by decide)).1 hreach
  rw [readCorrect_iff_sameOutcome onDisk_wideVolume.geometry req]
  rintro (hsame | ⟨-, i, hi, hnone⟩)
  · -- byte 512 is the first of the second cluster
    have hmissing := byteAt_add_cluster onDisk_wideVolume.geometry 0x40000001 0
    rw [link_wideVolume, Option.bind_none] at hmissing
    exact hsome 512 (by decide) ((hsame 512 (by decide)).symm.trans hmissing)
  · exact hsome i hi hnone

end Content

end SuiraBox.Fs
