/-
# The sectors that are read

Which sectors `sb_fat32_read_root_entry` and `sb_fat32_read_file` ask for.  Both come to
a record, or a byte, by following the chain link by link and reading one sector of the
last cluster (`PositionSafe`); the second does so for one byte after the other, as long
as it gets them.

The lookups are not compared with the size of the FAT, and neither product of a cluster
number is checked for overflow.  Only the VFS stops a number that is past the end of the
device.
-/

import SuiraBox.Fs.FileRead

namespace SuiraBox.Fs

open ByteMem Mm Trace Runs

variable {fs : Fat32} {c : U32} {P : SectorRead → Prop} {i n pos fuel : ℕ}

/-- The read of a FAT entry. -/
def fatRead (fs : Fat32) (c : U32) : SectorRead := ⟨.fat c, (fatSector fs c).setWidth 64, 1⟩

/-- The read of sector `s` of a cluster. -/
def dataRead (fs : Fat32) (c s : U32) : SectorRead :=
  ⟨.data c s, (clusterToLba fs c + s).setWidth 64, 1⟩

@[simp] theorem safe_readSector (purpose : Purpose) (lba : U64) :
    Safe P (readSector fs purpose lba) ↔ P ⟨purpose, lba, 1⟩ := safe_tell ..

/-- A lookup reads one sector. -/
theorem safe_followLink (geo : Geometry fs) : Safe P (followLink fs c) ↔ P (fatRead fs c) := by
  rw [followLink, safe_onSome, fatNextCluster, if_neg (fatIndex_fits geo c), safe_onSome,
    safe_readSector]
  refine ⟨fun h => h.1.1, fun h => ⟨⟨h, fun _ _ => safe_pure _⟩, fun next _ => ?_⟩⟩
  exact safe_ite (fun _ => safe_pure _) fun _ => safe_pure _

/-- The walk along the chain reads the FAT entry of every cluster it leaves. -/
theorem safe_seek (geo : Geometry fs) {unit rem : U32} (hunit : 0 < unit.toNat)
    (hfuel : rem.toNat < fuel) : Safe P (seek fs unit fuel c rem) ↔
      ∀ j < rem.toNat / unit.toNat, ∀ d, follow (link fs) j c = some d → P (fatRead fs d) := by
  induction fuel generalizing c rem with
  | zero => omega
  | succ fuel ih =>
    rw [seek]
    rcases Nat.lt_or_ge rem.toNat unit.toNat with hlt | hge
    · rw [if_neg (by bv_omega), Nat.div_eq_of_lt hlt]
      exact ⟨fun _ j hj => absurd hj (Nat.not_lt_zero j), fun _ => safe_pure _⟩
    · have hsub : (rem - unit).toNat = rem.toNat - unit.toNat := by bv_omega
      rw [if_pos (by bv_omega), safe_onSome, safe_followLink geo, value_followLink,
        Nat.div_eq_sub_div hunit hge, ← hsub]
      constructor
      · rintro ⟨hfirst, hrest⟩ j hj d hd
        rcases j with _ | j
        · obtain rfl := Option.some.inj hd
          exact hfirst
        · rw [follow_succ] at hd
          obtain ⟨next, hnext, hd⟩ := Option.bind_eq_some_iff.1 hd
          exact (ih (by omega)).1 (hrest next hnext) j (by omega) d hd
      · intro h
        refine ⟨h 0 (Nat.succ_pos _) c rfl, fun next hnext => (ih (by omega)).2 fun j hj d hd => ?_⟩
        refine h (j + 1) (by omega) d ?_
        rw [follow_succ, hnext, Option.bind_some, hd]

/-- The reads on the way to sector `s` of cluster number `k` of a chain. -/
def PositionSafe (P : SectorRead → Prop) (fs : Fat32) (c : U32) (k s : ℕ) : Prop :=
  (∀ j < k, ∀ d, follow (link fs) j c = some d → P (fatRead fs d)) ∧
    ∀ d, follow (link fs) k c = some d → P (dataRead fs d (BitVec.ofNat 32 s))

theorem positionSafe_zero {s : ℕ} :
    PositionSafe P fs c 0 s ↔ P (dataRead fs c (BitVec.ofNat 32 s)) := by
  constructor
  · intro h
    exact h.2 c rfl
  · intro h
    refine ⟨fun j hj => absurd hj (Nat.not_lt_zero j), fun d hd => ?_⟩
    obtain rfl := Option.some.inj hd
    exact h

theorem positionSafe_add {q k s : ℕ} : PositionSafe P fs c (q + k) s ↔
    (∀ j < q, ∀ d, follow (link fs) j c = some d → P (fatRead fs d)) ∧
      ∀ d, follow (link fs) q c = some d → PositionSafe P fs d k s := by
  have hadd : ∀ {d : U32} {j : ℕ}, follow (link fs) q c = some d →
      follow (link fs) (q + j) c = follow (link fs) j d := by
    intro d j hd
    rw [follow_add, hd, Option.bind_some]
  constructor
  · rintro ⟨hfat, hdata⟩
    refine ⟨fun j hj => hfat j (by omega), fun d hd => ⟨fun j hj e he => ?_, fun e he => ?_⟩⟩
    · exact hfat (q + j) (by omega) e ((hadd hd).trans he)
    · exact hdata e ((hadd hd).trans he)
  · rintro ⟨hfat, hrest⟩
    refine ⟨fun j hj e he => ?_, fun e he => ?_⟩
    · rcases Nat.lt_or_ge j q with hlt | hge
      · exact hfat j hlt e he
      · obtain ⟨j, rfl⟩ := Nat.exists_eq_add_of_le hge
        have h := he
        rw [follow_add] at h
        obtain ⟨d, hd, h⟩ := Option.bind_eq_some_iff.1 h
        exact (hrest d hd).1 j (by omega) e h
    · rw [follow_add] at he
      obtain ⟨d, hd, he⟩ := Option.bind_eq_some_iff.1 he
      exact (hrest d hd).2 e he

/-- The reads on the way to byte `i` of a chain. -/
def ByteSafe (P : SectorRead → Prop) (fs : Fat32) (c : U32) (i : ℕ) : Prop :=
  PositionSafe P fs c (i / clusterBytes fs) (i % clusterBytes fs / 512)

theorem byteSafe_of_lt (hi : i < clusterBytes fs) :
    ByteSafe P fs c i ↔ P (dataRead fs c (BitVec.ofNat 32 (i / 512))) := by
  rw [ByteSafe, Nat.div_eq_of_lt hi, Nat.mod_eq_of_lt hi, positionSafe_zero]

theorem byteSafe_add_clusters (geo : Geometry fs) (q : ℕ) :
    ByteSafe P fs c (q * clusterBytes fs + i) ↔
    (∀ j < q, ∀ d, follow (link fs) j c = some d → P (fatRead fs d)) ∧
      ∀ d, follow (link fs) q c = some d → ByteSafe P fs d i := by
  have hdiv : (q * clusterBytes fs + i) / clusterBytes fs = q + i / clusterBytes fs := by
    rw [Nat.add_comm, Nat.add_mul_div_right _ _ (clusterBytes_pos geo), Nat.add_comm]
  have hmod : (q * clusterBytes fs + i) % clusterBytes fs = i % clusterBytes fs := by
    rw [Nat.add_comm, Nat.add_mul_mod_self_right]
  rw [ByteSafe, hdiv, hmod, positionSafe_add]
  rfl

/-- The reads for `n` bytes from `offset` on: on the way to each of them, as long as
those before are there. -/
def BytesSafe (P : SectorRead → Prop) (fs : Fat32) (c : U32) (offset n : ℕ) : Prop :=
  ∀ i < n, (∀ j < i, byteAt fs c (offset + j) ≠ none) → ByteSafe P fs c (offset + i)

/-- The reads for a request are those for a first part, and for the rest if that is there. -/
theorem bytesSafe_split {offset k : ℕ} (hkn : k ≤ n) : BytesSafe P fs c offset n ↔
    BytesSafe P fs c offset k ∧
      ((∀ j < k, byteAt fs c (offset + j) ≠ none) → BytesSafe P fs c (offset + k) (n - k)) := by
  constructor
  · intro h
    refine ⟨fun i hi => h i (by omega), fun hthere i hi hbefore => ?_⟩
    rw [Nat.add_assoc]
    refine h (k + i) (by omega) fun j hj => ?_
    rcases Nat.lt_or_ge j k with hlt | hge
    · exact hthere j hlt
    · obtain ⟨j, rfl⟩ := Nat.exists_eq_add_of_le hge
      rw [← Nat.add_assoc]
      exact hbefore j (by omega)
  · rintro ⟨hfirst, hrest⟩ i hi hbefore
    rcases Nat.lt_or_ge i k with hlt | hge
    · exact hfirst i hlt hbefore
    · obtain ⟨i, rfl⟩ := Nat.exists_eq_add_of_le hge
      have h := hrest (fun j hj => hbefore j (by omega)) i (by omega) fun j hj => by
        rw [Nat.add_assoc]
        exact hbefore (k + j) (by omega)
      rwa [Nat.add_assoc] at h

/-- The reads behind `q` clusters: their entries, and those for the rest of the chain. -/
theorem bytesSafe_add_clusters (geo : Geometry fs) (hn : 0 < n) (q o : ℕ) :
    BytesSafe P fs c (q * clusterBytes fs + o) n ↔
      (∀ j < q, ∀ d, follow (link fs) j c = some d → P (fatRead fs d)) ∧
        ∀ d, follow (link fs) q c = some d → BytesSafe P fs d o n := by
  have hbyte : ∀ {d : U32} (j : ℕ), follow (link fs) q c = some d →
      byteAt fs c (q * clusterBytes fs + o + j) = byteAt fs d (o + j) := by
    intro d j hd
    rw [Nat.add_assoc, byteAt_add_clusters geo, hd, Option.bind_some]
  have hsafe : ∀ i, ByteSafe P fs c (q * clusterBytes fs + o + i) ↔
      (∀ j < q, ∀ d, follow (link fs) j c = some d → P (fatRead fs d)) ∧
        ∀ d, follow (link fs) q c = some d → ByteSafe P fs d (o + i) := by
    intro i
    rw [Nat.add_assoc]
    exact byteSafe_add_clusters geo q
  constructor
  · intro h
    refine ⟨((hsafe 0).1 (h 0 hn fun j hj => absurd hj (Nat.not_lt_zero j))).1,
      fun d hd i hi hbefore => ((hsafe i).1 (h i hi fun j hj => ?_)).2 d hd⟩
    rw [hbyte j hd]
    exact hbefore j hj
  · rintro ⟨hfat, hrest⟩ i hi hbefore
    refine (hsafe i).2 ⟨hfat, fun d hd => hrest d hd i hi fun j hj => ?_⟩
    rw [← hbyte j hd]
    exact hbefore j hj

theorem bytesSafe_behind (geo : Geometry fs) (hn : 0 < n) :
    BytesSafe P fs c (clusterBytes fs) n ↔
      P (fatRead fs c) ∧ ∀ d, link fs c = some d → BytesSafe P fs d 0 n := by
  have h := bytesSafe_add_clusters (P := P) (c := c) geo hn 1 0
  rw [Nat.one_mul, Nat.add_zero] at h
  rw [h]
  refine and_congr ⟨fun h => h 0 Nat.one_pos c rfl, fun h j hj d hd => ?_⟩ Iff.rfl
  obtain rfl := Nat.lt_one_iff.1 hj
  obtain rfl := Option.some.inj hd
  exact h

/-- All bytes of one piece take the same read. -/
theorem bytesSafe_piece {offset : U32} (hn : 0 < n) (hin : offset.toNat + n ≤ clusterBytes fs)
    (hroom : offset.toNat % 512 + n ≤ 512) :
    BytesSafe P fs c offset.toNat n ↔ P (dataRead fs c (offset / 512)) := by
  have hsector : ∀ i < n, ByteSafe P fs c (offset.toNat + i) ↔
      P (dataRead fs c (offset / 512)) := by
    intro i hi
    rw [byteSafe_of_lt (by omega), sector_of_add (by omega)]
  constructor
  · intro h
    exact (hsector 0 hn).1 (h 0 hn fun j hj => absurd hj (Nat.not_lt_zero j))
  · intro h i hi _
    exact (hsector i hi).2 h

/-- **The reads of the copying loop.** -/
theorem safe_copyLoop (geo : Geometry fs) {clusterSize offset remaining : U32} {dst : Mem}
    (hsize : clusterSize.toNat = clusterBytes fs) (hfuel : remaining.toNat < fuel)
    (hoffset : remaining = 0 ∨ offset.toNat < clusterBytes fs) :
    Safe P (copyLoop fs clusterSize fuel c offset remaining pos dst) ↔
      BytesSafe P fs c offset.toNat remaining.toNat := by
  induction fuel generalizing c offset remaining pos dst with
  | zero => omega
  | succ fuel ih =>
    rw [copyLoop]
    rcases eq_or_ne remaining 0 with rfl | hrem
    · rw [if_pos rfl]
      exact ⟨fun _ i hi => absurd hi (Nat.not_lt_zero i), fun _ => safe_pure _⟩
    have hoff := hoffset.resolve_left hrem
    obtain ⟨hpos, hroom, hless, hnext, hin, hfull⟩ := piece_pieceLen geo hrem hoff
    rw [if_neg hrem, geo.bytes, safe_onSome, safe_readSector, value_readSector, ← pieceLen]
    generalize pieceLen offset remaining = len at *
    rw [bytesSafe_split (by omega : len.toNat ≤ remaining.toNat), bytesSafe_piece hpos hin hroom]
    refine and_congr Iff.rfl ?_
    have hbyte : ∀ i < len.toNat, byteAt fs c (offset.toNat + i) = _ :=
      fun i hi => byteAt_same_sector hoff (by omega)
    rcases hsector : sectorAt fs ((clusterToLba fs c + offset / 512).setWidth 64) with _ | sector
    · refine ⟨fun _ hthere => absurd ?_ (hthere 0 hpos), fun _ _ h => by cases h⟩
      rw [hbyte 0 hpos, hsector, Option.map_none]
    have hthere : ∀ j < len.toNat, byteAt fs c (offset.toNat + j) ≠ none := by
      intro j hj
      rw [hbyte j hj, hsector]
      exact Option.some_ne_none _
    have hrest : remaining.toNat - len.toNat = (remaining - len).toNat := by omega
    rw [forall_prop_of_true hthere, hrest]
    simp only [Option.some.injEq, forall_eq']
    by_cases hmore : 0 < remaining - len ∧ clusterSize ≤ offset + len
    · -- the next byte is the first of the next cluster
      have hcross : offset.toNat + len.toNat = clusterBytes fs := by bv_omega
      have hleft : 0 < (remaining - len).toNat := by bv_omega
      rw [if_pos hmore, safe_onSome, safe_followLink geo, value_followLink, hcross,
        bytesSafe_behind geo hleft]
      refine and_congr Iff.rfl (forall₂_congr fun next _ => ?_)
      exact ih (by omega) (Or.inr (clusterBytes_pos geo))
    · rw [if_neg hmore, ih (by omega) (by bv_omega), hnext]

/-! ### Calls -/

/-- **The reads of a request.** -/
theorem safe_sbFat32ReadFile (geo : Geometry fs) {entry : Dirent} {offset length : U32}
    (hfuel : offset.toNat + length.toNat < fuel) (buffer : Mem) :
    Safe P (sbFat32ReadFile fs fuel entry offset length buffer) ↔
      (Requestable entry offset length →
        BytesSafe P fs entry.firstCluster offset.toNat length.toNat) := by
  rw [sbFat32ReadFile]
  rcases Classical.em (Requestable entry offset length) with req | hno
  · rw [if_neg fun h => (refuses_iff geo).1 h req, forall_prop_of_true req]
    rcases eq_or_ne length 0 with rfl | hlen
    · exact ⟨fun _ i hi => absurd hi (Nat.not_lt_zero i), fun _ => safe_pure _⟩
    have hcs := toNat_clusterSize geo
    have hpos := clusterBytes_pos geo
    have hmod := toNat_mod_clusterSize geo offset
    have hsplit := bytesSafe_add_clusters (P := P) (c := entry.firstCluster) geo
      (by bv_omega : 0 < length.toNat) (offset.toNat / clusterBytes fs)
      (offset.toNat % clusterBytes fs)
    rw [Nat.mul_comm, Nat.div_add_mod] at hsplit
    rw [if_neg hlen, safe_onSome, safe_seek geo (by omega) (by omega),
      value_seek (by omega) (by omega), hcs, hsplit]
    refine and_congr Iff.rfl ?_
    simp only [Option.some.injEq, forall_eq']
    rcases follow (link fs) (offset.toNat / clusterBytes fs) entry.firstCluster with _ | d
    · exact ⟨fun _ d hd => absurd hd (by simp), fun _ => safe_pure _⟩
    · have hin := Nat.mod_lt offset.toNat hpos
      simp only [Option.map_some, Option.some.injEq, forall_eq', ← hmod] at hin ⊢
      exact safe_copyLoop geo hcs (by omega) (Or.inr hin)
  · rw [if_pos ((refuses_iff geo).2 hno)]
    exact ⟨fun _ req => absurd req hno, fun _ => safe_pure _⟩

/-- The number of records in a cluster of the root directory. -/
def entriesPerCluster (fs : Fat32) : ℕ := 16 * fs.sectorsPerCluster.toNat

theorem toNat_entriesPerCluster (geo : Geometry fs) :
    ((512 : U32) / 32 * fs.sectorsPerCluster).toNat = entriesPerCluster fs := by
  have := geo.cluster_lt
  rw [BitVec.toNat_mul, show ((512 : U32) / 32).toNat = 16 from rfl, entriesPerCluster]
  omega

theorem entriesPerCluster_pos (geo : Geometry fs) : 0 < entriesPerCluster fs :=
  Nat.mul_pos (by decide) geo.cluster_pos

theorem sectorIndex_eq (geo : Geometry fs) (index : U32) :
    index % (512 / 32 * fs.sectorsPerCluster) / (512 / 32) =
      BitVec.ofNat 32 (index.toNat % entriesPerCluster fs / 16) := by
  apply BitVec.eq_of_toNat_eq
  rw [BitVec.toNat_udiv, BitVec.toNat_umod, toNat_entriesPerCluster geo, BitVec.toNat_ofNat,
    show ((512 : U32) / 32).toNat = 16 from rfl]
  have := Nat.mod_le index.toNat (entriesPerCluster fs)
  omega

/-- The reads for an entry of the root directory. -/
theorem safe_sbFat32ReadRootEntry (geo : Geometry fs) {index : U32} (hfuel : index.toNat < fuel)
    (entry : Dirent) :
    Safe P (sbFat32ReadRootEntry fs fuel index entry) ↔
      PositionSafe P fs fs.rootCluster (index.toNat / entriesPerCluster fs)
        (index.toNat % entriesPerCluster fs / 16) := by
  have hunit := toNat_entriesPerCluster geo
  have hpos := entriesPerCluster_pos geo
  rw [sbFat32ReadRootEntry, if_neg (by rw [geo.bytes]; decide), geo.bytes, safe_onSome,
    safe_seek geo (by omega) hfuel, value_seek (by omega) hfuel, hunit, PositionSafe]
  refine and_congr Iff.rfl ?_
  simp only [Option.some.injEq, forall_eq']
  rcases follow (link fs) (index.toNat / entriesPerCluster fs) fs.rootCluster with _ | d
  · exact ⟨fun _ d hd => absurd hd (by simp), fun _ => safe_pure _⟩
  · simp only [Option.map_some, Option.some.injEq, forall_eq', safe_onSome, safe_readSector,
      sectorIndex_eq geo]
    refine ⟨And.left, fun h => ⟨h, fun sector _ => ?_⟩⟩
    exact safe_ite (fun _ => safe_pure _) fun _ => safe_pure _

/-- A call of the reader's interface. -/
inductive FatCall
  | rootEntry (index : U32) (entry : Dirent)
  | readFile (entry : Dirent) (offset length : U32) (buffer : Mem)

/-- The call and what it returns. -/
def FatCall.run (fs : Fat32) (fuel : ℕ) : FatCall → Traced SectorRead (Option ℤ)
  | .rootEntry index entry => do
    let r ← sbFat32ReadRootEntry fs fuel index entry
    pure (r.map Prod.fst)
  | .readFile entry offset length buffer => do
    let r ← sbFat32ReadFile fs fuel entry offset length buffer
    pure (r.map Prod.fst)

/-- More rounds than this no loop of the call takes. -/
def FatCall.rounds : FatCall → ℕ
  | .rootEntry index _ => index.toNat
  | .readFile _ offset length _ => offset.toNat + length.toNat

/-- Every read that the call makes satisfies `P`: those on the way to one record, or to the
bytes of a request that is not refused at once. -/
def FatCall.Reads (P : SectorRead → Prop) (fs : Fat32) : FatCall → Prop
  | .rootEntry index _ =>
    PositionSafe P fs fs.rootCluster (index.toNat / entriesPerCluster fs)
      (index.toNat % entriesPerCluster fs / 16)
  | .readFile entry offset length _ =>
    Requestable entry offset length →
      BytesSafe P fs entry.firstCluster offset.toNat length.toNat

/-- The reads of a call are those on the way to its bytes. -/
theorem safe_run (geo : Geometry fs) {call : FatCall} (hfuel : call.rounds < fuel) :
    Safe P (call.run fs fuel) ↔ call.Reads P fs := by
  cases call with
  | rootEntry index entry =>
    rw [FatCall.run, safe_bind, safe_sbFat32ReadRootEntry geo hfuel]
    exact and_iff_left (safe_pure _)
  | readFile entry offset length buffer =>
    rw [FatCall.run, safe_bind, safe_sbFat32ReadFile geo hfuel]
    exact and_iff_left (safe_pure _)

/-! ### Reads that the VFS refuses -/

/-- The VFS passes the read on to the driver. -/
def SectorRead.Performed (fs : Fat32) (e : SectorRead) : Prop := e.lba < fs.mount.totalSectors

theorem lt_of_sectorAt {lba : U64} (h : sectorAt fs lba ≠ none) : lba < fs.mount.totalSectors := by
  by_contra hge
  refine h ?_
  have hout : fs.mount.totalSectors ≤ lba := BitVec.not_lt.1 hge
  rw [sectorAt, readSector, value_tell, sbVfsReadSectors, if_neg (by decide), if_pos (Or.inl hout)]

theorem performed_of_link (h : link fs c ≠ none) : (fatRead fs c).Performed fs := by
  refine lt_of_sectorAt fun hnone => h ?_
  have hnone : sectorAt fs ((fatSector fs c).setWidth 64) = none := hnone
  rw [link, followLink, value_onSome, fatNextCluster]
  split_ifs with hfits
  · rfl
  · rw [value_onSome, value_readSector, hnone]
    rfl

/-- All reads on the way to a sector that is there have been performed. -/
theorem positionSafe_performed {d : U32} {k s : ℕ} (hd : follow (link fs) k c = some d)
    (hsector : sectorAt fs ((clusterToLba fs d + BitVec.ofNat 32 s).setWidth 64) ≠ none) :
    PositionSafe (SectorRead.Performed fs) fs c k s := by
  refine ⟨fun j hj e he => performed_of_link fun hnone => ?_, fun d' hd' => ?_⟩
  · have hlong := follow_isSome_of_le (by omega : j + 1 ≤ k) (Option.isSome_of_mem hd)
    rw [follow_succ', he, Option.bind_some, hnone] at hlong
    cases hlong
  · obtain rfl := Option.some.inj (hd.symm.trans hd')
    exact lt_of_sectorAt hsector

theorem byteSafe_performed (h : byteAt fs c i ≠ none) :
    ByteSafe (SectorRead.Performed fs) fs c i := by
  rw [byteAt] at h
  rcases hd : follow (link fs) (i / clusterBytes fs) c with _ | d
  · rw [hd] at h
    exact absurd rfl h
  · rw [hd, Option.bind_some] at h
    refine positionSafe_performed hd fun hnone => h ?_
    rw [hnone, Option.map_none]

/-- **A call ends, with zero or one, and one only if the VFS has refused nothing.** -/
theorem run_answers (geo : Geometry fs) {call : FatCall} (hfuel : call.rounds < fuel) :
    ∃ r, (call.run fs fuel).value = some r ∧
      (r = 0 ∨ r = 1 ∧ call.Reads (SectorRead.Performed fs) fs) := by
  cases call with
  | rootEntry index entry =>
    have hunit := toNat_entriesPerCluster geo
    have hpos := entriesPerCluster_pos geo
    rw [FatCall.run, value_bind, sbFat32ReadRootEntry, if_neg (by rw [geo.bytes]; decide),
      geo.bytes, value_onSome, value_seek (by omega) hfuel, hunit, Option.elim_some]
    rcases hd : follow (link fs) (index.toNat / entriesPerCluster fs) fs.rootCluster with _ | d
    · exact ⟨0, rfl, Or.inl rfl⟩
    simp only [Option.map_some, value_onSome, value_readSector, sectorIndex_eq geo]
    rcases hsector : sectorAt fs _ with _ | sector
    · exact ⟨0, rfl, Or.inl rfl⟩
    rw [Option.elim_some, value_ite]
    split_ifs with hskip
    · exact ⟨0, rfl, Or.inl rfl⟩
    · refine ⟨1, rfl, Or.inr ⟨rfl, positionSafe_performed hd ?_⟩⟩
      rw [hsector]
      exact Option.some_ne_none _
  | readFile entry offset length buffer =>
    rcases Classical.em (Requestable entry offset length) with req | hno
    · obtain ⟨r, hr, hdel⟩ := sbFat32ReadFile_delivers geo req hfuel buffer
      refine ⟨r.1, congrArg (Option.map Prod.fst) hr, ?_⟩
      rcases hdel with ⟨hone, hall, -⟩ | ⟨hzero, -⟩
      · exact Or.inr ⟨hone, fun _ i hi _ => byteSafe_performed fun hnone =>
          Option.some_ne_none _ ((hall i hi).symm.trans hnone)⟩
      · exact Or.inl hzero
    · refine ⟨0, ?_, Or.inl rfl⟩
      rw [FatCall.run, value_bind, sbFat32ReadFile, if_pos ((refuses_iff geo).2 hno)]
      rfl

/-! ### The right sector -/

/-- A read that is performed is of the right sector: the one of the first FAT that holds the
entry, or the one that the geometry gives to the data. -/
def SectorRead.Right (fs : Fat32) (e : SectorRead) : Prop :=
  e.Performed fs → match e.purpose with
    | .boot => True
    | .fat c =>
      e.lba.toNat = fs.reservedSectors.toNat + 4 * c.toNat / 512 ∧
        e.lba.toNat < fs.reservedSectors.toNat + fs.fatSizeSectors.toNat
    | .data c s =>
      e.lba.toNat =
        fs.firstDataSector.toNat + (c.toNat - 2) * fs.sectorsPerCluster.toNat + s.toNat

/-- A call reads the right sectors only, and returns zero if the VFS has refused one. -/
def CallRight (fs : Fat32) (call : FatCall) : Prop :=
  ∀ fuel > call.rounds, ∃ r, (call.run fs fuel).value = some r ∧
    Safe (SectorRead.Right fs) (call.run fs fuel) ∧
    (∀ e ∈ (call.run fs fuel).events, ¬ e.Performed fs → r = 0)

/-- A read whose number is not wrapped and, for an entry of the FAT, not behind it; or one that
the VFS refuses. -/
def SectorRead.InPlace (fs : Fat32) (e : SectorRead) : Prop :=
  ¬ e.Performed fs ∨ match e.purpose with
    | .boot => True
    | .fat c => c.toNat < 2 ^ 30 ∧ c.toNat < 128 * fs.fatSizeSectors.toNat
    | .data c s =>
      fs.firstDataSector.toNat + (c.toNat - 2) * fs.sectorsPerCluster.toNat + s.toNat < 2 ^ 32

theorem right_fatRead_iff (geo : Geometry fs) (c : U32) :
    (fatRead fs c).Right fs ↔ (fatRead fs c).InPlace fs := by
  rw [SectorRead.Right, SectorRead.InPlace, ← imp_iff_not_or]
  refine imp_congr Iff.rfl ?_
  change ((fatSector fs c).setWidth 64).toNat = _ ∧ ((fatSector fs c).setWidth 64).toNat < _ ↔
    c.toNat < 2 ^ 30 ∧ c.toNat < 128 * fs.fatSizeSectors.toNat
  rw [toNat_fatSector geo]
  have := c.isLt
  omega

theorem right_dataRead_iff {s : U32} (hc : 2 ≤ c.toNat) :
    (dataRead fs c s).Right fs ↔ (dataRead fs c s).InPlace fs := by
  rw [SectorRead.Right, SectorRead.InPlace, ← imp_iff_not_or]
  refine imp_congr Iff.rfl ?_
  have hsub : (c - 2).toNat = c.toNat - 2 := by bv_omega
  change ((clusterToLba fs c + s).setWidth 64).toNat = _ ↔ _ < _
  rw [clusterToLba, BitVec.toNat_setWidth, BitVec.toNat_add, BitVec.toNat_add,
    BitVec.toNat_mul, hsub]
  omega

theorem positionSafe_right_iff (geo : Geometry fs) (hc : 2 ≤ c.toNat) {k s : ℕ} :
    PositionSafe (SectorRead.Right fs) fs c k s ↔
    PositionSafe (SectorRead.InPlace fs) fs c k s := by
  refine and_congr (forall₂_congr fun j _ => forall₂_congr fun d _ => right_fatRead_iff geo d)
    (forall₂_congr fun d hd =>
      right_dataRead_iff (follow_invariant (fun he => (link_bounds he).1) hc hd))

theorem reads_right_iff (geo : Geometry fs) (call : FatCall) :
    call.Reads (SectorRead.Right fs) fs ↔ call.Reads (SectorRead.InPlace fs) fs := by
  cases call with
  | rootEntry index entry => exact positionSafe_right_iff geo geo.root
  | readFile entry offset length buffer =>
    exact forall_congr' fun req => forall₂_congr fun i _ =>
      imp_congr Iff.rfl (positionSafe_right_iff geo req.first)

/-- **When a call reads the right sectors.**  Every cluster whose entry it looks up is below
`2 ^ 30` and has an entry in the first FAT, and no sector number of the data reaches `2 ^ 32`;
excepted are numbers that the VFS refuses, after which the call returns zero. -/
theorem sector_reads_iff {mount : VfsMount} (hmount : (sbFat32Mount mount).value = some fs)
    (call : FatCall) : CallRight fs call ↔ call.Reads (SectorRead.InPlace fs) fs := by
  obtain ⟨geo, -⟩ := geometry_of_mount hmount
  constructor
  · intro h
    obtain ⟨r, -, hsafe, -⟩ := h _ (Nat.lt_succ_self _)
    exact (reads_right_iff geo call).1 ((safe_run geo (Nat.lt_succ_self _)).1 hsafe)
  · intro h fuel hfuel
    obtain ⟨r, hr, hanswer⟩ := run_answers geo hfuel
    refine ⟨r, hr, (safe_run geo hfuel).2 ((reads_right_iff geo call).2 h), fun e he hrefused => ?_⟩
    rcases hanswer with hzero | ⟨-, hall⟩
    · exact hzero
    · exact absurd ((safe_run geo hfuel).2 hall e he) hrefused

/-- A request over the boundary of the two clusters of a file. -/
theorem smallVolume_reads_right :
    CallRight (diskVolume 1 smallImage 8) (.readFile (fileEntry 3) 500 100 fun _ => 0) := by
  have hmount : (sbFat32Mount (diskMount smallImage 8)).value = some (diskVolume 1 smallImage 8) :=
    rfl
  obtain ⟨geo, -⟩ := geometry_of_mount hmount
  have hlink : link (diskVolume 1 smallImage 8) 3 = some 4 := rfl
  have hdata : ∀ c : U32, c.toNat ≤ 4 → ∀ s < 1,
      (dataRead (diskVolume 1 smallImage 8) c (BitVec.ofNat 32 s)).InPlace
        (diskVolume 1 smallImage 8) := by
    intro c hc s hs
    obtain rfl : s = 0 := by omega
    exact Or.inr (show 3 + (c.toNat - 2) * 1 + 0 < 2 ^ 32 by omega)
  have hfat : (fatRead (diskVolume 1 smallImage 8) 3).InPlace (diskVolume 1 smallImage 8) :=
    Or.inr (by decide : 3 < 2 ^ 30 ∧ 3 < 128 * 1)
  refine (sector_reads_iff hmount _).2 fun _ i hi _ => ?_
  change ByteSafe _ _ 3 (500 + i)
  have hi : i < 100 := hi
  rcases Nat.lt_or_ge (500 + i) 512 with hlt | hge
  · exact (byteSafe_of_lt hlt).2 (hdata 3 (by decide) _ (by omega))
  · -- behind the end of the first cluster, after one lookup
    obtain ⟨k, hk⟩ := Nat.exists_eq_add_of_le hge
    have hlt : k < 512 := by omega
    rw [hk]
    refine (byteSafe_add_clusters geo 1).2 ⟨fun j hj d hd => ?_, fun d hd => ?_⟩
    · obtain rfl : j = 0 := by omega
      obtain rfl := Option.some.inj hd
      exact hfat
    · rw [follow_succ, hlink] at hd
      obtain rfl := Option.some.inj hd
      exact (byteSafe_of_lt hlt).2 (hdata 4 (by decide) _ (by omega))

/-- The record says that the file begins with cluster 200; the FAT has 128 entries. -/
def strayImage : Mem := writeLE smallImage 1562 2 200

/-- The entry of cluster 200 is looked for in the second FAT. -/
theorem strayVolume_misreads :
    (sbFat32Mount (diskMount strayImage 8)).value = some (diskVolume 1 strayImage 8) ∧
    ∃ entry, (sbFat32ReadRootEntry (diskVolume 1 strayImage 8) 1 0 (fileEntry 0)).value =
        some (1, entry) ∧ ¬ CallRight (diskVolume 1 strayImage 8)
        (.readFile entry 512 1 fun _ => 0) := by
  have hmount : (sbFat32Mount (diskMount strayImage 8)).value = some (diskVolume 1 strayImage 8) :=
    rfl
  have geo := (geometry_of_mount hmount).1
  refine ⟨hmount, _, rfl, fun h => ?_⟩
  obtain ⟨r, -, hsafe, -⟩ := h 514 (by decide)
  have hbytes := (safe_run geo (by decide)).1 hsafe ⟨by decide, by decide, by decide⟩
  have hfirst := hbytes 0 (by decide) fun j hj => absurd hj (Nat.not_lt_zero j)
  have hfat : (fatRead (diskVolume 1 strayImage 8) 200).Right (diskVolume 1 strayImage 8) :=
    hfirst.1 0 (by decide) 200 rfl
  have hlba : ((fatRead (diskVolume 1 strayImage 8) 200).lba.toNat : ℕ) < 1 + 1 :=
    (hfat (by change (2 : U64) < 8; decide)).2
  exact absurd hlba (by decide)

end SuiraBox.Fs
