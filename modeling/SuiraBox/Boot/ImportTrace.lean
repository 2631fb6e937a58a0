/-
# Where the importer reads

`pmm_init_from_multiboot` of `kernel/mm/pmm_multiboot.c` once more, now with its
accesses recorded: every load from the block at the place where the source has it,
and every 32-bit sum and difference of the walk.  The values are those of the
plain model (`pmmInitFromMultibootTraced_value`).

Each check of the walk is what the next access needs: a tag starts eight bytes
before the end of the block, its size fits into what is left, and an entry of the
memory map fits into its tag.  So the loads stay inside the block and no offset
wraps, whatever the bytes of the block are.  Both loops have a counter of their
own in the source (`SB_MB2_MAX_TAGS`, `SB_MB2_MAX_MMAP_ENTRIES`), on which they
end here too.
-/

import SuiraBox.Boot.Framebuffer

namespace SuiraBox.Boot

open ByteMem Mm Trace

/-- The fields of a memory-map entry. -/
def loadEntry (m : Mem) (a : ℕ) : Traced Access MmapEntry := do
  let len ← load64 m (a + 8)
  let addr ← load64 m a
  let type ← load32 m (a + 16)
  pure ⟨addr, len, type⟩

/-- `importEntries`, recorded. -/
def importEntriesTraced (m : Mem) (tag : ℕ) (left : ℕ) (entryOffset : U32) (s : Pmm) :
    Traced Access (Except Pmm (ℕ × Pmm)) := do
  let size ← load32 m (tag + 4)
  let entrySize ← load32 m (tag + 8)
  let last ← sub32 size entrySize
  if entryOffset ≤ last then
    match left with
    | 0 => pure (.error s)
    | left + 1 =>
      let entry ← loadEntry m (tag + entryOffset.toNat)
      let entrySize ← load32 m (tag + 8)
      let next ← add32 entryOffset entrySize
      importEntriesTraced m tag left next (importEntry s entry)
  else pure (.ok (left, s))

/-- `importTag`, recorded. -/
def importTagTraced (m : Mem) (tag : ℕ) (st : Import) : Traced Access (Except Pmm Import) := do
  let type ← load32 m tag
  if type = 3 then
    let size ← load32 m (tag + 4)
    if size < 16 ∨ 32 ≤ st.modulesSeen then pure (.error st.pmm)
    else
      let modStart ← load32 m (tag + 8)
      let modEnd ← load32 m (tag + 12)
      pure (.ok { st with
        pmm := reserveRange st.pmm (modStart.setWidth 64) (modEnd.setWidth 64)
        modulesSeen := st.modulesSeen + 1 })
  else if type = 6 then
    let size ← load32 m (tag + 4)
    if size < 16 then pure (.error st.pmm)
    else
      let entrySize ← load32 m (tag + 8)
      let room ← sub32 size 16
      if entrySize < 24 ∨ room < entrySize then pure (.error st.pmm)
      else
        let entries ← importEntriesTraced m tag st.entriesLeft 16 st.pmm
        match entries with
        | .error s => pure (.error s)
        | .ok (left, s) => pure (.ok { st with entriesLeft := left, seenMmap := true, pmm := s })
  else pure (.ok st)

/-- `importTags`, recorded. -/
def importTagsTraced (m : Mem) (info : U64) (totalSize : U32) (n : ℕ) (offset : U32) (st : Import) :
    Traced Access (Except Pmm (Bool × Import)) := do
  let last ← sub32 totalSize 8
  if offset ≤ last then
    match n with
    | 0 => pure (.ok (false, st))
    | n + 1 =>
      let tag := (info + offset.setWidth 64).toNat
      let size ← load32 m (tag + 4)
      let rest ← sub32 totalSize offset
      if size < 8 ∨ rest < size then pure (.error st.pmm)
      else
        let type ← load32 m tag
        if type = 0 then pure (.ok (size == 8, st))
        else
          let taken ← importTagTraced m tag st
          match taken with
          | .error s => pure (.error s)
          | .ok st =>
            let padded ← add32 size 7
            let nextOffset := padded &&& ~~~7
            let rest ← sub32 totalSize offset
            if nextOffset < size ∨ rest < nextOffset then pure (.error st.pmm)
            else
              let offset ← add32 offset nextOffset
              importTagsTraced m info totalSize n offset st
  else pure (.ok (false, st))

/-- `importBlock`, recorded. -/
def importBlockTraced (m : Mem) (info : U64) (s : Pmm) : Traced Access (Except Pmm Pmm) := do
  if info = 0 ∨ 0x40000000 ≤ info then pure (.error s)
  else
    let totalSize ← load32 m info.toNat
    if totalSize < 16 ∨ 64 * 1024 < totalSize ∨ totalSize &&& 7 ≠ 0 ∨
        BitVec.allOnes 64 - info < totalSize.setWidth 64 then pure (.error s)
    else
      let walked ← importTagsTraced m info totalSize 128 8 ⟨128, 0, false, s⟩
      match walked with
      | .error s => pure (.error s)
      | .ok (validEnd, st) =>
        if !validEnd || !st.seenMmap then pure (.error st.pmm) else pure (.ok st.pmm)

/-- `pmm_init_from_multiboot`, recorded. -/
def pmmInitFromMultibootTraced (image : KernelImage) (m : Mem) (info : U64) (s : Pmm) :
    Traced Access Pmm := do
  let imported ← importBlockTraced m info
    (pmmReserveRange bootstrapLimit (pmmReset bootstrapLimit s) 0 4096)
  match imported with
  | .error s => pure (fallbackToBootstrap image s)
  | .ok s =>
    let totalSize ← load32 m info.toNat
    let totalSize := totalSize.setWidth 64
    let s := reserveRange s kernelStart image.kernelEnd
    let s := if info ≤ BitVec.allOnes 64 - totalSize then reserveRange s info (info + totalSize)
      else fallbackToBootstrap image s
    pure (pmmReserveRange bootstrapLimit s 0 4096)

variable {m : Mem} {info : U64}

/-! ### The values -/

theorem importEntriesTraced_value (tag left : ℕ) (off : U32) (s : Pmm) :
    (importEntriesTraced m tag left off s).value =
      importEntries m tag (tagSize m tag) (entrySize m tag) left off s := by
  induction left generalizing off s with
  | zero =>
    unfold importEntriesTraced importEntries
    simp only [value_bind, value_ite, value_pure]
    rfl
  | succ left ih =>
    unfold importEntriesTraced importEntries
    simp only [value_bind, value_ite, value_pure, ih]
    rfl

theorem importTagTraced_value (tag : ℕ) (st : Import) :
    (importTagTraced m tag st).value = importTag m tag st := by
  unfold importTagTraced importTag
  simp only [value_bind, value_ite, value_pure, importEntriesTraced_value]
  refine if_congr Iff.rfl rfl (if_congr Iff.rfl (if_congr Iff.rfl rfl (if_congr Iff.rfl rfl ?_))
    rfl)
  cases importEntries m tag (tagSize m tag) (entrySize m tag) st.entriesLeft 16 st.pmm <;> rfl

theorem importTagsTraced_value (total : U32) (n : ℕ) (off : U32) (st : Import) :
    (importTagsTraced m info total n off st).value = importTags m info total n off st := by
  induction n generalizing off st with
  | zero =>
    unfold importTagsTraced importTags
    simp only [value_bind, value_ite, value_pure]
    rfl
  | succ n ih =>
    unfold importTagsTraced importTags
    simp only [value_bind, value_ite, value_pure, importTagTraced_value]
    refine if_congr Iff.rfl (if_congr Iff.rfl rfl (if_congr Iff.rfl rfl ?_)) rfl
    cases importTag m (info + off.setWidth 64).toNat st with
    | error s => rfl
    | ok st =>
      simp only [value_bind, value_ite, value_pure, ih]
      rfl

theorem importBlockTraced_value (s : Pmm) :
    (importBlockTraced m info s).value = importBlock m info s := by
  unfold importBlockTraced importBlock
  simp only [value_bind, value_ite, value_pure, importTagsTraced_value]
  refine if_congr Iff.rfl rfl (if_congr Iff.rfl rfl ?_)
  rw [value_load32]
  cases importTags m info (read32 m info.toNat) 128 8 ⟨128, 0, false, s⟩ with
  | error s => rfl
  | ok r =>
    obtain ⟨validEnd, st⟩ := r
    exact value_ite ..

/-- The recorded importer computes what the plain one does. -/
theorem pmmInitFromMultibootTraced_value (image : KernelImage) (m : Mem) (info : U64) (s : Pmm) :
    (pmmInitFromMultibootTraced image m info s).value = pmmInitFromMultiboot image m info s := by
  unfold pmmInitFromMultibootTraced pmmInitFromMultiboot
  simp only [value_bind, importBlockTraced_value]
  cases importBlock m info (pmmReserveRange bootstrapLimit (pmmReset bootstrapLimit s) 0 4096) with
  | error s => rfl
  | ok s => rfl

/-! ### The accesses -/

/-- An entry inside the tag is read inside it. -/
theorem loadEntry_safe {base len a : ℕ} (hbase : base ≤ a) (hin : a + 24 ≤ base + len) :
    Safe (Access.Within base len) (loadEntry m a) := by
  simp only [loadEntry, safe_bind, within_load64, within_load32, safe_pure, and_true]
  omega

/-- The entries of a memory map inside its tag. -/
theorem importEntriesTraced_safe {base len tag : ℕ} (hbase : base ≤ tag)
    (hin : tag + (tagSize m tag).toNat ≤ base + len) (h24 : 24 ≤ (entrySize m tag).toNat)
    (hroom : 16 + (entrySize m tag).toNat ≤ (tagSize m tag).toNat) (left : ℕ) (off : U32)
    (s : Pmm) : Safe (Access.Within base len) (importEntriesTraced m tag left off s) := by
  have hlast : (tagSize m tag - entrySize m tag).toNat =
      (tagSize m tag).toNat - (entrySize m tag).toNat := by bv_omega
  induction left generalizing off s with
  | zero =>
    unfold importEntriesTraced
    rw [safe_bind, safe_bind, safe_bind, within_load32, within_load32, within_sub32]
    exact ⟨by omega, by omega, show (entrySize m tag).toNat ≤ (tagSize m tag).toNat by omega,
      safe_ite (fun _ => safe_pure _) fun _ => safe_pure _⟩
  | succ left ih =>
    unfold importEntriesTraced
    rw [safe_bind, safe_bind, safe_bind, within_load32, within_load32, within_sub32]
    refine ⟨by omega, by omega, show (entrySize m tag).toNat ≤ (tagSize m tag).toNat by omega,
      safe_ite (fun hoff => ?_) fun _ => safe_pure _⟩
    have hoff : off ≤ tagSize m tag - entrySize m tag := hoff
    rw [BitVec.le_def, hlast] at hoff
    dsimp only
    rw [safe_bind, safe_bind, safe_bind, within_load32, within_add32]
    refine ⟨loadEntry_safe (by omega) (by omega), by omega, ?_, ih _ _⟩
    change off.toNat + (entrySize m tag).toNat < 2 ^ 32
    have := (tagSize m tag).isLt
    omega

/-- A tag inside the block is read inside the block. -/
theorem importTagTraced_safe {base len tag : ℕ} (hbase : base ≤ tag)
    (h8 : 8 ≤ (tagSize m tag).toNat) (hin : tag + (tagSize m tag).toNat ≤ base + len)
    (st : Import) : Safe (Access.Within base len) (importTagTraced m tag st) := by
  unfold importTagTraced
  rw [safe_bind, within_load32]
  refine ⟨by omega, safe_ite (fun _ => ?_) fun _ => safe_ite (fun _ => ?_) fun _ => safe_pure _⟩
  · -- a module
    rw [safe_bind, within_load32]
    refine ⟨by omega, safe_ite (fun _ => safe_pure _) fun hbad => ?_⟩
    have hsize : ¬ tagSize m tag < 16 := fun h => hbad (Or.inl h)
    simp only [safe_bind, within_load32, safe_pure, and_true]
    exact ⟨by bv_omega, by bv_omega⟩
  · -- a memory map
    rw [safe_bind, within_load32]
    refine ⟨by omega, safe_ite (fun _ => safe_pure _) fun hsize => ?_⟩
    have hsize : ¬ tagSize m tag < 16 := hsize
    rw [safe_bind, safe_bind, within_load32, within_sub32]
    refine ⟨by bv_omega, show (16 : U32).toNat ≤ (tagSize m tag).toNat by bv_omega,
      safe_ite (fun _ => safe_pure _) fun hentry => ?_⟩
    have hentry : ¬ (entrySize m tag < 24 ∨ tagSize m tag - 16 < entrySize m tag) := hentry
    rw [safe_bind]
    refine ⟨importEntriesTraced_safe hbase hin (by bv_omega) (by bv_omega) _ _ _, ?_⟩
    split
    · exact safe_pure _
    · exact safe_pure _

/-- The walk stays inside the block, and its offsets do not wrap. -/
theorem importTagsTraced_safe {total : U32} (hinfo : info.toNat < 2 ^ 30)
    (htotal : 16 ≤ total.toNat) (hmax : total.toNat ≤ 65536) (n : ℕ) (off : U32) (st : Import) :
    Safe (Access.Within info.toNat total.toNat) (importTagsTraced m info total n off st) := by
  induction n generalizing off st with
  | zero =>
    unfold importTagsTraced
    rw [safe_bind, within_sub32]
    exact ⟨by bv_omega, safe_ite (fun _ => safe_pure _) fun _ => safe_pure _⟩
  | succ n ih =>
    unfold importTagsTraced
    refine safe_tagHead hinfo htotal hmax fun h8 hin => ?_
    have hlast : off.toNat + 8 ≤ total.toNat := by omega
    rw [toNat_tag (by omega), safe_bind]
    refine ⟨importTagTraced_safe (by omega) h8 (by omega) st, ?_⟩
    split
    · exact safe_pure _
    · rw [safe_bind, safe_bind, within_add32, within_sub32]
      have hround := toNat_roundUp8 (tagSize m (info.toNat + off.toNat)) (by bv_omega)
      refine ⟨?_, by omega, safe_ite (fun _ => safe_pure _) fun _ => ?_⟩
      · change (tagSize m (info.toNat + off.toNat)).toNat + (7 : U32).toNat < 2 ^ 32
        bv_omega
      · rw [safe_bind, within_add32]
        refine ⟨?_, ih _ _⟩
        change off.toNat + ((tagSize m (info.toNat + off.toNat) + 7) &&& ~~~7).toNat < 2 ^ 32
        rw [hround, roundUp8]
        bv_omega

/-- The import reads inside the block. -/
theorem importBlockTraced_safe (s : Pmm) :
    Safe (BlockAccess m info) (importBlockTraced m info s) := by
  unfold importBlockTraced
  refine safe_ite (fun _ => safe_pure _) fun haddr => ?_
  rw [safe_bind]
  refine ⟨(safe_tell ..).2 (Or.inl rfl), safe_ite (fun _ => safe_pure _) fun hsize => ?_⟩
  rw [value_load32] at hsize ⊢
  rw [safe_bind]
  refine ⟨(importTagsTraced_safe (by bv_omega) (by bv_omega) (by bv_omega) _ _ _).mono fun e =>
    Or.inr, ?_⟩
  split
  · exact safe_pure _
  · exact safe_ite (fun _ => safe_pure _) fun _ => safe_pure _

/-- So does the whole call, whether or not it falls back. -/
theorem pmmInitFromMultibootTraced_safe (image : KernelImage) (m : Mem) (info : U64) (s : Pmm) :
    Safe (BlockAccess m info) (pmmInitFromMultibootTraced image m info s) := by
  unfold pmmInitFromMultibootTraced
  rw [safe_bind]
  refine ⟨importBlockTraced_safe _, ?_⟩
  split
  · exact safe_pure _
  · rw [safe_bind]
    exact ⟨(safe_tell ..).2 (Or.inl rfl), safe_pure _⟩

/-- **The two tag parsers are safe on any block.**  Whatever the bytes are, every load
but that of the total size lies inside the block, and no sum or difference of the
walks wraps; the recorded importer is the importer. -/
theorem multiboot_parsers_safe (image : KernelImage) (m : Mem) (info : U64) (s : Pmm) :
    Safe (BlockAccess m info) (pmmInitFromMultibootTraced image m info s) ∧
    (pmmInitFromMultibootTraced image m info s).value = pmmInitFromMultiboot image m info s ∧
    Safe (BlockAccess m info) (sbFramebufferInit m info) :=
  ⟨pmmInitFromMultibootTraced_safe image m info s, pmmInitFromMultibootTraced_value image m info s,
    sbFramebufferInit_safe m info⟩

end SuiraBox.Boot
