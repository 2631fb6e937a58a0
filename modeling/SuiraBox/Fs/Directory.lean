/-
# The root directory

What `sb_fat32_read_root_entry` of `kernel/fs/fat32.c` makes of a directory.  Record `i` is 32 bytes
of the chain that begins with the root cluster, bytes `32 i` to `32 i + 31`, though the function
counts in records and `sb_fat32_read_file` in bytes; the two come to the same place at every index.

Two things a caller may expect do not hold.  Each call looks at one record and not at those in front
of it, so that records behind the end of the directory are listed.  And a file of no bytes has no
cluster, which `sb_fat32_read_file` refuses before it sees that there is nothing to read.
-/

import SuiraBox.Fs.SectorReads
import SuiraBox.Fs.ShortNames

namespace SuiraBox.Fs

open ByteMem Mm Trace Runs Strings

variable {mount : VfsMount} {fs : Fat32} {c index : U32} {i j k n fuel : ℕ} {raw raw' : Mem}

/-! ### Records -/

/-- Record `i` of the directory that begins with cluster `c`, where the reader looks for it. -/
def recordAt (fs : Fat32) (c : U32) (i : ℕ) : Option Mem :=
  (follow (link fs) (i / entriesPerCluster fs) c).bind fun c =>
    (sectorAt fs
      ((clusterToLba fs c + BitVec.ofNat 32 (i % entriesPerCluster fs / 16)).setWidth 64)).map
      fun sector k => sector (32 * (i % 16) + k)

/-- The record is in use: not the end of the directory, not deleted, and not a part of a long
name. -/
def Listable (raw : Mem) : Prop := raw 0 ≠ 0 ∧ raw 0 ≠ 0xE5 ∧ raw 11 &&& 0x0F ≠ 0x0F

instance (raw : Mem) : Decidable (Listable raw) := inferInstanceAs (Decidable (_ ∧ _))

/-- The entry that is made of a record; `name` is what was in the buffer of the name. -/
def entryOf (raw name : Mem) : Dirent where
  name := format83Name raw name
  attributes := raw 11
  firstCluster := (le16 raw 20).setWidth 32 <<< 16 ||| (le16 raw 26).setWidth 32
  fileSize := le32 raw 28

/-- What a lookup answers when it has come to a record, or to none. -/
def answerOf (record : Option Mem) (entry : Dirent) : ℤ × Dirent :=
  record.elim (0, entry) fun raw => if Listable raw then (1, entryOf raw entry.name) else (0, entry)

theorem answerOf_eq_one {record : Option Mem} {entry e : Dirent}
    (h : answerOf record entry = (1, e)) :
    ∃ raw, record = some raw ∧ Listable raw ∧ entryOf raw entry.name = e := by
  have hone := congrArg Prod.fst h
  rcases record with _ | raw
  · exact absurd hone Int.zero_ne_one
  · rw [answerOf, Option.elim_some] at h hone
    split_ifs at h hone with hlist
    · exact ⟨raw, rfl, hlist, congrArg Prod.snd h⟩
    · exact absurd hone Int.zero_ne_one

/-- **A lookup answers with its record.** -/
theorem sbFat32ReadRootEntry_eq (geo : Geometry fs) (hfuel : index.toNat < fuel) (entry : Dirent) :
    (sbFat32ReadRootEntry fs fuel index entry).value =
      some (answerOf (recordAt fs fs.rootCluster index.toNat) entry) := by
  have hunit := toNat_entriesPerCluster geo
  have hpos := entriesPerCluster_pos geo
  rw [sbFat32ReadRootEntry, if_neg (not_not.2 geo.bytes), geo.bytes, value_onSome,
    value_seek (by omega) hfuel, hunit, Option.elim_some, recordAt]
  rcases follow (link fs) (index.toNat / entriesPerCluster fs) fs.rootCluster with _ | d
  · rfl
  simp only [Option.map_some, Option.bind_some, value_onSome, value_readSector, sectorIndex_eq geo]
  rcases sectorAt fs ((clusterToLba fs d +
    BitVec.ofNat 32 (index.toNat % entriesPerCluster fs / 16)).setWidth 64) with _ | sector
  · rfl
  have hplace : (index % (512 / 32 * fs.sectorsPerCluster) % (512 / 32) * 32).toNat =
      32 * (index.toNat % 16) := by
    rw [BitVec.toNat_mul, BitVec.toNat_umod, BitVec.toNat_umod, hunit,
      show ((512 : U32) / 32).toNat = 16 from rfl, show (32 : U32).toNat = 32 from rfl,
        entriesPerCluster,
      Nat.mod_mul_right_mod]
    omega
  rw [Option.elim_some, value_ite, Option.map_some, answerOf, Option.elim_some, hplace]
  split_ifs with hskip hlist hlist
  · rcases hskip with h | h | h
    · exact absurd h hlist.1
    · exact absurd h hlist.2.1
    · exact absurd h hlist.2.2
  · rfl
  · rfl
  · rw [not_or, not_or] at hskip
    exact absurd hskip hlist

/-! ### The directory as a file -/

/-- Record `i` is the 32 bytes from byte `32 i` on. -/
theorem recordAt_byte (c : U32) (i : ℕ) (hk : k < 32) :
    (recordAt fs c i).map (fun raw => raw k) = byteAt fs c (32 * i + k) := by
  have hbytes : clusterBytes fs = 32 * entriesPerCluster fs := by
    rw [clusterBytes, entriesPerCluster]
    omega
  have hrecord : (32 * i + k) / 32 = i := by omega
  have hdiv : (32 * i + k) / clusterBytes fs = i / entriesPerCluster fs := by
    rw [hbytes, ← Nat.div_div_eq_div_mul, hrecord]
  have hmod : (32 * i + k) % clusterBytes fs / 512 = i % entriesPerCluster fs / 16 := by
    rw [hbytes, Nat.mod_mul, hrecord]
    omega
  have hplace : (32 * i + k) % 512 = 32 * (i % 16) + k := by omega
  rw [byteAt, hdiv, hmod, hplace, recordAt, Option.map_bind]
  simp only [Function.comp_def, Option.map_map]

/-- The root directory as a file of as many bytes as a file can have. -/
def rootFile (fs : Fat32) (name : Mem) : Dirent := ⟨name, 0, fs.rootCluster, 0xFFFFFFFF⟩

/-- Reading 32 bytes of it at byte `32 i` is reading record `i`. -/
theorem readFile_rootFile (geo : Geometry fs) (hindex : index.toNat < 2 ^ 27 - 1)
    (hfuel : 32 * index.toNat + 32 < fuel) (name buffer : Mem) :
    ∃ r, (sbFat32ReadFile fs fuel (rootFile fs name) (32 * index) 32 buffer).value = some r ∧
      ((∃ raw, recordAt fs fs.rootCluster index.toNat = some raw ∧ r.1 = 1 ∧
          ∀ k < 32, r.2 k = raw k) ∨
        recordAt fs fs.rootCluster index.toNat = none ∧ r.1 = 0) := by
  have hoffset : (32 * index).toNat = 32 * index.toNat := by bv_omega
  have hlength : (32 : U32).toNat = 32 := rfl
  have hsize : (0xFFFFFFFF : U32).toNat = 2 ^ 32 - 1 := rfl
  have req : Requestable (rootFile fs name) (32 * index) 32 := by
    refine ⟨(by decide : (0 : U8) &&& 0x10 = 0), geo.root, ?_⟩
    change (32 * index).toNat + (32 : U32).toNat ≤ (0xFFFFFFFF : U32).toNat
    omega
  obtain ⟨r, hr, hdel⟩ := sbFat32ReadFile_delivers geo req (by rwa [hoffset, hlength]) buffer
  refine ⟨r, hr, ?_⟩
  rw [hoffset, hlength] at hdel
  rcases hrecord : recordAt fs fs.rootCluster index.toNat with _ | raw
  · rcases hdel with ⟨-, hall, -⟩ | ⟨hzero, -⟩
    · have hbyte : (recordAt fs fs.rootCluster index.toNat).map (· 0) = _ :=
        recordAt_byte _ _ (by decide)
      rw [hrecord] at hbyte
      exact absurd (hbyte.trans (hall 0 (by decide))) (by simp)
    · exact Or.inr ⟨rfl, hzero⟩
  · have hbyte : ∀ k < 32, byteAt fs fs.rootCluster (32 * index.toNat + k) = some (raw k) :=
      fun k hk => by
      rw [← recordAt_byte _ _ hk, hrecord, Option.map_some]
    rcases hdel with ⟨hone, hall, -⟩ | ⟨-, k, hk, hnone⟩
    · refine Or.inl ⟨raw, rfl, hone, fun k hk => ?_⟩
      have h := (hall k hk).symm.trans (hbyte k hk)
      rw [Nat.zero_add] at h
      exact Option.some.inj h
    · exact absurd ((hbyte k hk).symm.trans hnone) (by simp)

theorem toNat_le16 (p : Mem) (a : ℕ) : (le16 p a).toNat = readLE p a 2 := by
  have h₀ := (p a).isLt
  have h₁ := (p (a + 1)).isLt
  have hshift : ((p (a + 1)).setWidth 16 <<< 8).toNat = (p (a + 1)).toNat <<< 8 := by
    rw [BitVec.toNat_shiftLeft, BitVec.toNat_setWidth_of_le (by decide), Nat.shiftLeft_eq]
    omega
  change _ = (p a).toNat + 256 * ((p (a + 1)).toNat + 256 * 0)
  rw [le16, BitVec.toNat_or, hshift, BitVec.toNat_setWidth_of_le (by decide), Nat.or_comm,
    ← Nat.shiftLeft_add_eq_or_of_lt h₀, Nat.shiftLeft_eq]
  omega

/-- An entry says what the 32 bytes of a record say: the name, the attributes in byte 11, the first
cluster in bytes 20 and 26, and the size in byte 28. -/
structure Decodes (raw : Mem) (e : Dirent) : Prop where
  name : ∃ buffer, e.name = writeBytes buffer 0 (shortName raw ++ [0])
  attributes : e.attributes = raw 11
  firstCluster : e.firstCluster.toNat = 2 ^ 16 * readLE raw 20 2 + readLE raw 26 2
  fileSize : e.fileSize.toNat = readLE raw 28 4

/-- The entry is decoded from its record. -/
theorem decodes_entryOf (raw name : Mem) : Decodes raw (entryOf raw name) where
  name := ⟨name, format83Name_eq raw name⟩
  attributes := rfl
  firstCluster := by
    have hlow := (le16 raw 26).isLt
    have hhigh := (le16 raw 20).isLt
    have hshift : ((le16 raw 20).setWidth 32 <<< 16).toNat = (le16 raw 20).toNat <<< 16 := by
      rw [BitVec.toNat_shiftLeft, BitVec.toNat_setWidth_of_le (by decide), Nat.shiftLeft_eq]
      omega
    change ((le16 raw 20).setWidth 32 <<< 16 ||| (le16 raw 26).setWidth 32).toNat = _
    rw [BitVec.toNat_or, hshift, BitVec.toNat_setWidth_of_le (by decide),
      ← Nat.shiftLeft_add_eq_or_of_lt hlow, Nat.shiftLeft_eq, toNat_le16, toNat_le16, Nat.mul_comm]
  fileSize := toNat_le32 raw 28

theorem shortName_congr (h : ∀ k < 32, raw k = raw' k) : shortName raw = shortName raw' := by
  have hbase : field raw 0x20 8 0 = field raw' 0x20 8 0 := field_congr fun k hk => h _ (by omega)
  have hext : field raw 0x20 3 8 = field raw' 0x20 3 8 := field_congr fun k hk => h _ (by omega)
  rw [shortName, shortName, hbase, hext, h 8 (by decide)]

theorem Decodes.congr {e : Dirent} (hd : Decodes raw e) (h : ∀ k < 32, raw k = raw' k) :
    Decodes raw' e := by
  have hread : ∀ a n, a + n ≤ 32 → readLE raw a n = readLE raw' a n := fun a n han =>
    readLE_congr fun x _ hx => h x (by omega)
  obtain ⟨hname, hattr, hcluster, hsize⟩ := hd
  refine ⟨?_, hattr.trans (h 11 (by decide)), ?_, ?_⟩
  · rwa [shortName_congr h] at hname
  · rw [hcluster, hread 20 2 (by decide), hread 26 2 (by decide)]
  · rw [hsize, hread 28 4 (by decide)]

theorem listable_congr (h : ∀ k < 32, raw k = raw' k) : Listable raw ↔ Listable raw' := by
  rw [Listable, Listable, h 0 (by decide), h 11 (by decide)]

/-- **Lookups and reads walk the same bytes.**  The lookup of record `i` succeeds if and only if the
read of 32 bytes at byte `32 i` does, with bytes that are a record in use; and then its entry says
what these bytes say. -/
theorem lookup_iff_read (hmount : (sbFat32Mount mount).value = some fs)
    (hindex : index.toNat < 2 ^ 27 - 1) (hfuel : 32 * index.toNat + 32 < fuel) (entry : Dirent)
    (name buffer : Mem) :
    ∃ found read, (sbFat32ReadRootEntry fs fuel index entry).value = some found ∧
      (sbFat32ReadFile fs fuel (rootFile fs name) (32 * index) 32 buffer).value = some read ∧
      (found.1 = 1 ↔ read.1 = 1 ∧ Listable read.2) ∧ (found.1 = 1 → Decodes read.2 found.2) := by
  obtain ⟨geo, -⟩ := geometry_of_mount hmount
  obtain ⟨r, hr, hrecord⟩ := readFile_rootFile geo hindex hfuel name buffer
  refine ⟨_, r, sbFat32ReadRootEntry_eq geo (by omega) entry, hr, ?_⟩
  rcases hrecord with ⟨raw, hraw, hone, hbytes⟩ | ⟨hnone, hzero⟩
  · rw [hraw, answerOf, Option.elim_some, listable_congr hbytes, hone]
    split_ifs with hlist
    · exact ⟨iff_of_true rfl ⟨rfl, hlist⟩,
        fun _ => (decodes_entryOf raw entry.name).congr fun k hk => (hbytes k hk).symm⟩
    · exact ⟨iff_of_false Int.zero_ne_one fun h => hlist h.2, fun h => absurd h Int.zero_ne_one⟩
  · rw [hnone, answerOf, Option.elim_none, hzero]
    exact ⟨iff_of_false Int.zero_ne_one fun h => Int.zero_ne_one h.1, fun h =>
      absurd h Int.zero_ne_one⟩

/-- The first record of a root directory, looked up and read. -/
theorem smallVolume_lookup :
    ∃ found read, (sbFat32ReadRootEntry (diskVolume 1 smallImage 8) 40 0 (fileEntry 0)).value =
      some found ∧
      (sbFat32ReadFile (diskVolume 1 smallImage 8) 40 (rootFile (diskVolume 1 smallImage 8)
        fun _ => 0) (32 * 0) 32 fun _ => 0).value = some read ∧
      (found.1 = 1 ↔ read.1 = 1 ∧ Listable read.2) ∧ (found.1 = 1 → Decodes read.2 found.2) := by
  have hmount : (sbFat32Mount (diskMount smallImage 8)).value = some (diskVolume 1 smallImage 8) :=
    rfl
  exact lookup_iff_read hmount (by decide) (by decide) _ _ _

/-! ### A directory with one record -/

/-- A disk whose root directory has a record of a file of `size` bytes, from `cluster` on, as record
`i`, and nothing else. -/
def rootImage (i cluster size : ℕ) : Mem :=
  putBoot 1 8 (putFat 3 4 (putFat 4 0x0FFFFFFF (writeLE (writeLE (writeLE (writeLE (fun _ => 0)
    (1536 + 32 * i) 1 0x41) (1547 + 32 * i) 1 0x20) (1562 + 32 * i) 2 cluster)
    (1564 + 32 * i) 4 size)))

/-- A record of a root directory of one cluster. -/
theorem recordAt_diskVolume {image : Mem} (on : OnDisk (sectorsOf image) (diskVolume 1 image 8))
    (hi : i < 16) : recordAt (diskVolume 1 image 8) 2 i = some fun k =>
    sectorsOf image 3 (32 * i + k) := by
  have hper : entriesPerCluster (diskVolume 1 image 8) = 16 := rfl
  have hroot : sectorAt (diskVolume 1 image 8) 3 = some (sectorsOf image 3) :=
    on.sector 3 (by decide : (3 : U64) < 8)
  rw [recordAt, hper, Nat.div_eq_of_lt hi, Nat.mod_eq_of_lt hi, Nat.div_eq_of_lt hi, follow_zero,
    Option.bind_some]
  exact congrArg (Option.map fun sector k => sector (32 * i + k)) hroot

/-- Behind its record, the directory of `rootImage 0` is empty. -/
theorem rootImage_empty {cluster size : ℕ} (hi : 0 < i) (hlt : i < 16) :
    sectorsOf (rootImage 0 cluster size) 3 (32 * i + 0) = 0 := by
  unfold sectorsOf rootImage putBoot putFat
  repeat rw [writeLE_of_outside _ (by omega)]

/-- Only the first record of the directory of `rootImage 0` can be in use. -/
theorem rootImage_only {cluster size : ℕ}
    (on : OnDisk (sectorsOf (rootImage 0 cluster size)) (diskVolume 1 (rootImage 0 cluster size) 8))
    (hlink : link (diskVolume 1 (rootImage 0 cluster size) 8) 2 = none)
    (hraw : recordAt (diskVolume 1 (rootImage 0 cluster size) 8) 2 i = some raw)
    (hlist : Listable raw) : i = 0 ∧ raw = sectorsOf (rootImage 0 cluster size) 3 := by
  rcases Nat.lt_or_ge i 16 with hlt | hge
  · rw [recordAt_diskVolume on hlt] at hraw
    obtain rfl := Option.some.inj hraw
    rcases Nat.eq_zero_or_pos i with rfl | hpos
    · exact ⟨rfl, by simp only [Nat.mul_zero, Nat.zero_add]⟩
    · exact absurd (rootImage_empty hpos hlt) hlist.1
  · have hper : entriesPerCluster (diskVolume 1 (rootImage 0 cluster size) 8) = 16 := rfl
    obtain ⟨n, hn⟩ := Nat.exists_eq_succ_of_ne_zero (by omega : i / 16 ≠ 0)
    rw [recordAt, hper, hn, follow_succ, hlink] at hraw
    cases hraw

/-! ### The end of the directory -/

section Whole

variable {disk : ℕ → Mem} {device : BlockDevice} {e : Dirent}

/-- A lookup succeeds with this entry. -/
def Lists (fs : Fat32) (e : Dirent) : Prop :=
  ∃ index entry, ∃ fuel > index.toNat, (sbFat32ReadRootEntry fs fuel index entry).value =
    some (1, e)

/-- Neither a directory nor the label of the volume. -/
def IsFile (e : Dirent) : Prop := e.attributes &&& 0x10 = 0 ∧ e.attributes &&& 0x08 = 0

/-- An empty file has no cluster, and any other has a chain inside the volume that is long
enough. -/
structure FileWellFormed (disk : ℕ → Mem) (fs : Fat32) (e : Dirent) : Prop where
  empty : e.fileSize = 0 → e.firstCluster = 0
  first : e.fileSize ≠ 0 → 2 ≤ e.firstCluster.toNat
  inside : e.fileSize ≠ 0 → ChainInside disk fs e.firstCluster.toNat
  long : e.fileSize ≠ 0 → ChainReaches disk fs e.firstCluster.toNat 0 e.fileSize.toNat

/-- All files of the root directory are. -/
def WellFormed (disk : ℕ → Mem) (fs : Fat32) : Prop :=
  ∀ e, Lists fs e → IsFile e → FileWellFormed disk fs e

/-- The read of the whole file succeeds. -/
def ReadsWhole (fs : Fat32) (e : Dirent) : Prop :=
  ∀ fuel > e.fileSize.toNat, ∀ buffer, ∃ out,
    (sbFat32ReadFile fs fuel e 0 e.fileSize buffer).value = some (1, out)

/-- The read of a file that has a cluster succeeds if all its bytes are there. -/
theorem readsWhole_iff (geo : Geometry fs) (hfile : IsFile e) (hfirst : 2 ≤ e.firstCluster.toNat) :
    ReadsWhole fs e ↔ ∀ i < e.fileSize.toNat, byteAt fs e.firstCluster i ≠ none := by
  have hzero : (0 : U32).toNat = 0 := rfl
  have req : Requestable e 0 e.fileSize := ⟨hfile.1, hfirst, by omega⟩
  have hread : ∀ fuel > e.fileSize.toNat, ∀ buffer, ∃ r,
      (sbFat32ReadFile fs fuel e 0 e.fileSize buffer).value = some r ∧
        Delivers (fun i => byteAt fs e.firstCluster i) e.fileSize.toNat 0 buffer r := by
    intro fuel hfuel buffer
    have h := sbFat32ReadFile_delivers geo req (by omega : _ < fuel) buffer
    simpa only [hzero, Nat.zero_add] using h
  constructor
  · intro h i hi hnone
    obtain ⟨out, hout⟩ := h _ (Nat.lt_succ_self _) fun _ => 0
    obtain ⟨r, hr, ⟨-, hall, -⟩ | ⟨hfail, -⟩⟩ := hread _ (Nat.lt_succ_self _) fun _ => 0
    · exact absurd ((hall i hi).symm.trans hnone) (Option.some_ne_none _)
    · obtain rfl := Option.some.inj (hr.symm.trans hout)
      exact absurd hfail.symm Int.zero_ne_one
  · intro h fuel hfuel buffer
    obtain ⟨r, hr, ⟨hone, -⟩ | ⟨-, i, hi, hnone⟩⟩ := hread fuel hfuel buffer
    · exact ⟨r.2, by rw [hr, ← hone]⟩
    · exact absurd hnone (h i hi)

/-- A file without a cluster is refused. -/
theorem not_readsWhole (hfirst : e.firstCluster = 0) : ¬ ReadsWhole fs e := by
  intro h
  obtain ⟨out, hout⟩ := h _ (Nat.lt_succ_self _) fun _ => 0
  have hrefuse : e.firstCluster < 2 := by
    rw [hfirst]
    decide
  rw [sbFat32ReadFile, if_pos (Or.inr (Or.inr (Or.inr (Or.inl hrefuse))))] at hout
  exact Int.zero_ne_one (congrArg Prod.fst (Option.some.inj hout))

/-- **When a listed file can be read whole.**  It must not be empty; and the FAT must not lose its
second cluster: the first cluster is below `2 ^ 30`, or there is no other, or the chain of
`first_cluster % 2 ^ 30`, which the reader takes for it, happens to be long enough. -/
theorem listed_read_iff
    (hread : ∀ lba : U64, lba < device.sectorCount → device.read lba 1 = some (disk lba.toNat))
    (hvfs : sbVfsMount device = .ok mount) (hmount : (sbFat32Mount mount).value = some fs)
    (hwell : WellFormed disk fs) (hlist : Lists fs e) (hfile : IsFile e) :
    ReadsWhole fs e ↔ e.fileSize ≠ 0 ∧
      (e.firstCluster.toNat < 2 ^ 30 ∨ e.fileSize.toNat ≤ clusterBytes fs ∨
        ChainReaches disk fs (e.firstCluster.toNat % 2 ^ 30) 0 e.fileSize.toNat) := by
  have on := readable_of_mount hread hvfs hmount
  obtain ⟨hempty, hfirst, hinside, hlong⟩ := hwell e hlist hfile
  rcases eq_or_ne e.fileSize 0 with hsize | hsize
  · exact iff_of_false (not_readsWhole (hempty hsize)) fun h => h.1 hsize
  have htwo := hfirst hsize
  have hin := hinside hsize
  have hpos : 0 < e.fileSize.toNat := by bv_omega
  have hcontent := (chainReaches_iff hpos).1 (hlong hsize)
  rw [readsWhole_iff on.geometry hfile htwo, and_iff_right hsize, chainReaches_iff hpos]
  simp only [Nat.zero_add] at hcontent ⊢
  constructor
  · intro h
    refine Or.inr (Or.inr fun i hi => ?_)
    rcases Nat.lt_or_ge i (clusterBytes fs) with hlt | hge
    · exact contentByte_ne_none hlt
    · exact readerByte_ne_none.1 (on.byteAt_behind hin hge ▸ h i hi)
  · have hone : ∀ {i}, i < clusterBytes fs → byteAt fs e.firstCluster i ≠ none := fun hi => by
      rw [on.byteAt_first htwo (hin 0 _ rfl) hi]
      exact readerByte_ne_none.2 (contentByte_ne_none hi)
    rintro (hsmall | hsize | hall) i hi
    · rw [on.byteAt_eq hsmall htwo hin]
      exact readerByte_ne_none.2 (hcontent i hi)
    · exact hone (by omega)
    · rcases Nat.lt_or_ge i (clusterBytes fs) with hlt | hge
      · exact hone hlt
      · rw [on.byteAt_behind hin hge]
        exact readerByte_ne_none.2 (hall i hi)

/-- So the volume is well formed if the file of that record is. -/
theorem wellFormed_rootImage {cluster size : ℕ}
    (on : OnDisk (sectorsOf (rootImage 0 cluster size)) (diskVolume 1 (rootImage 0 cluster size) 8))
    (hlink : link (diskVolume 1 (rootImage 0 cluster size) 8) 2 = none)
    (h : ∀ name, FileWellFormed (sectorsOf (rootImage 0 cluster size))
      (diskVolume 1 (rootImage 0 cluster size) 8)
      (entryOf (sectorsOf (rootImage 0 cluster size) 3) name)) :
    WellFormed (sectorsOf (rootImage 0 cluster size))
    (diskVolume 1 (rootImage 0 cluster size) 8) := by
  rintro e ⟨index, entry, fuel, hfuel, he⟩ -
  rw [sbFat32ReadRootEntry_eq on.geometry hfuel] at he
  obtain ⟨raw, hraw, hlist, rfl⟩ := answerOf_eq_one (Option.some.inj he)
  obtain ⟨-, rfl⟩ := rootImage_only on hlink hraw hlist
  exact h entry.name

/-- The first record of the directory is listed if it is in use. -/
theorem lists_first {image : Mem} (on : OnDisk (sectorsOf image) (diskVolume 1 image 8))
    (hlist : Listable (sectorsOf image 3)) :
    Lists (diskVolume 1 image 8) (entryOf (sectorsOf image 3) fun _ => 0) := by
  have hroot : recordAt (diskVolume 1 image 8) (diskVolume 1 image 8).rootCluster (0 : U32).toNat =
      some fun k => sectorsOf image 3 (32 * 0 + k) := recordAt_diskVolume on (by decide)
  refine ⟨0, ⟨fun _ => 0, 0, 0, 0⟩, 1, by decide, ?_⟩
  rw [sbFat32ReadRootEntry_eq on.geometry (by decide), hroot, answerOf, Option.elim_some]
  simp only [Nat.mul_zero, Nat.zero_add, if_pos hlist]

/-- The file in clusters three and four can be read. -/
theorem twoClusters_read :
    ReadsWhole (diskVolume 1 (rootImage 0 3 1024) 8)
      (entryOf (sectorsOf (rootImage 0 3 1024) 3) fun _ => 0) := by
  have hserves := serves_diskDevice (rootImage 0 3 1024) 8 (by decide)
  have hmount : (sbFat32Mount (diskMount (rootImage 0 3 1024) 8)).value =
      some (diskVolume 1 (rootImage 0 3 1024) 8) := rfl
  have hchain : ChainInside (sectorsOf (rootImage 0 3 1024))
      (diskVolume 1 (rootImage 0 3 1024) 8) 3 :=
    chainInside_two (d := 4) (by decide) (by decide) (by decide) (by decide)
  have hreach : ChainReaches (sectorsOf (rootImage 0 3 1024)) (diskVolume 1 (rootImage 0 3 1024) 8)
      3 0 1024 := by
    unfold ChainReaches
    decide
  have hsize : ∀ name, (entryOf (sectorsOf (rootImage 0 3 1024) 3) name).fileSize ≠ 0 :=
    fun _ => (by decide : le32 (sectorsOf (rootImage 0 3 1024) 3) 28 ≠ 0)
  have on := onDisk_of_mount hserves rfl hmount
  have hwell := wellFormed_rootImage on rfl fun name =>
    ⟨fun h => absurd h (hsize name), fun _ => (by decide : 2 ≤ 3), fun _ => hchain, fun _ => hreach⟩
  exact (listed_read_iff hserves.read rfl hmount hwell (lists_first on (by decide))
    ⟨by decide, by decide⟩).2
    ⟨by decide, Or.inl (by decide)⟩

/-- A file of no bytes is listed and cannot be read. -/
theorem emptyFile_refused :
    sbVfsMount (diskDevice (rootImage 0 0 0) 8) = .ok (diskMount (rootImage 0 0 0) 8) ∧
    (sbFat32Mount (diskMount (rootImage 0 0 0) 8)).value = some (diskVolume 1 (rootImage 0 0 0) 8) ∧
    WellFormed (sectorsOf (rootImage 0 0 0)) (diskVolume 1 (rootImage 0 0 0) 8) ∧
    ∃ e, Lists (diskVolume 1 (rootImage 0 0 0) 8) e ∧ IsFile e ∧
      ¬ ReadsWhole (diskVolume 1 (rootImage 0 0 0) 8) e := by
  have hserves := serves_diskDevice (rootImage 0 0 0) 8 (by decide)
  have hmount : (sbFat32Mount (diskMount (rootImage 0 0 0) 8)).value =
      some (diskVolume 1 (rootImage 0 0 0) 8) := rfl
  have hempty : ∀ name, (entryOf (sectorsOf (rootImage 0 0 0) 3) name).fileSize = 0 := fun _ => rfl
  have on := onDisk_of_mount hserves rfl hmount
  refine ⟨rfl, hmount, wellFormed_rootImage on rfl fun name => ?_, ?_⟩
  · exact ⟨fun _ => rfl, fun h => absurd (hempty name) h, fun h => absurd (hempty name) h,
      fun h => absurd (hempty name) h⟩
  · exact ⟨_, lists_first on (by decide), ⟨by decide, by decide⟩, not_readsWhole rfl⟩

end Whole

end SuiraBox.Fs
