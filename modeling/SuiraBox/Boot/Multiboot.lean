/-
# Importing the Multiboot2 memory map

`kernel/mm/pmm_multiboot.c`.  `pmm_init_from_multiboot` walks the tags of the
information block, adds the pages of every available memory-map entry, reserves
every other entry and every module, and ends with reserving the kernel image,
the block itself and page 0.  Usable ranges are rounded inwards and reserved
ranges outwards.  At the first tag it does not like it gives up and calls
`fallback_to_bootstrap`, which starts again from a fixed window.

The kernel lies where `linker.ld` puts it: from 1 MiB to a page boundary.  The
block is read from a byte memory; the allocator's bitmaps are not part of it.
Loops run on the counters of the source (`SB_MB2_MAX_TAGS`,
`SB_MB2_MAX_MMAP_ENTRIES`), counted down.

A call of the importer only adds pages to the usable and to the reserved set
(`Imports`), so the order of tags and entries does not matter.
-/

import SuiraBox.Library.ByteMem
import SuiraBox.Mm.PageSets

namespace SuiraBox.Boot

open ByteMem Mm

/-- Where the linker script ends the kernel. -/
structure KernelImage where
  /-- `__kernel_end` -/
  kernelEnd : U64
  aligned : kernelEnd.toNat % 4096 = 0

/-- `__kernel_start`. -/
def kernelStart : U64 := 0x100000

/-- `SB_PMM_BOOTSTRAP_LIMIT`. -/
def pmmBootstrapLimit : U64 := 256 * 1024 * 1024

/-- `align_up`. -/
def alignUp (value : U64) : U64 :=
  if BitVec.allOnes 64 - 4095 < value then BitVec.allOnes 64 else (value + 4096 - 1) &&& ~~~4095

/-- `align_down`. -/
def alignDown (value : U64) : U64 := value &&& ~~~4095

/-- `reserve_range`. -/
def reserveRange (s : Pmm) (start stop : U64) : Pmm :=
  if stop ≤ start then s
  else if pmmBootstrapLimit ≤ start then s
  else
    let stop := if pmmBootstrapLimit < stop then pmmBootstrapLimit else stop
    let start := alignDown start
    let stop := alignUp stop
    if start < stop then pmmReserveRange bootstrapLimit s start stop else s

/-- `fallback_to_bootstrap`. -/
def fallbackToBootstrap (image : KernelImage) (s : Pmm) : Pmm :=
  let s := pmmInit bootstrapLimit s 0x01000000 0x04000000
  let s := pmmReserveRange bootstrapLimit s kernelStart image.kernelEnd
  pmmReserveRange bootstrapLimit s 0 4096

/-! ### The fields of the block, by the address of the tag -/

/-- `tag->type`. -/
def tagType (m : Mem) (tag : ℕ) : U32 := read32 m tag

/-- `tag->size`. -/
def tagSize (m : Mem) (tag : ℕ) : U32 := read32 m (tag + 4)

/-- `module->mod_start`. -/
def modStart (m : Mem) (tag : ℕ) : U32 := read32 m (tag + 8)

/-- `module->mod_end`. -/
def modEnd (m : Mem) (tag : ℕ) : U32 := read32 m (tag + 12)

/-- `mmap->entry_size`. -/
def entrySize (m : Mem) (tag : ℕ) : U32 := read32 m (tag + 8)

/-- `struct multiboot2_mmap_entry`. -/
structure MmapEntry where
  addr : U64
  len : U64
  type : U32

/-- The entry at an address. -/
def mmapEntry (m : Mem) (a : ℕ) : MmapEntry := ⟨read64 m a, read64 m (a + 8), read32 m (a + 16)⟩

/-! ### The importer -/

/-- What the importer does with one memory-map entry. -/
def importEntry (s : Pmm) (e : MmapEntry) : Pmm :=
  if e.len ≠ 0 ∧ e.len ≤ BitVec.allOnes 64 - e.addr then
    let start := e.addr
    let stop := e.addr + e.len
    -- `MULTIBOOT2_MMAP_TYPE_AVAILABLE`
    if e.type = 1 then
      if start < pmmBootstrapLimit then
        let usableEnd := if pmmBootstrapLimit < stop then pmmBootstrapLimit else stop
        let usableEnd := alignDown usableEnd
        if start < usableEnd then pmmAddUsableRange bootstrapLimit s (alignUp start) usableEnd
        else s
      else s
    else reserveRange s start stop
  else s

/-- The loop over the entries of one memory map, with `left` entries to go until
`SB_MB2_MAX_MMAP_ENTRIES`.  `.error` is a call of `fallback_to_bootstrap`. -/
def importEntries (m : Mem) (tag : ℕ) (size entrySize : U32) (left : ℕ) (entryOffset : U32)
    (s : Pmm) : Except Pmm (ℕ × Pmm) :=
  if entryOffset ≤ size - entrySize then
    match left with
    | 0 => .error s
    | left + 1 => importEntries m tag size entrySize left (entryOffset + entrySize)
        (importEntry s (mmapEntry m (tag + entryOffset.toNat)))
  else .ok (left, s)

/-- The variables of the tag loop. -/
structure Import where
  /-- `SB_MB2_MAX_MMAP_ENTRIES - mmap_entries_seen` -/
  entriesLeft : ℕ
  modulesSeen : ℕ
  seenMmap : Bool
  pmm : Pmm

/-- What the importer does with one tag that is not the end tag. -/
def importTag (m : Mem) (tag : ℕ) (st : Import) : Except Pmm Import :=
  let size := tagSize m tag
  -- `MULTIBOOT2_TAG_TYPE_MODULE`
  if tagType m tag = 3 then
    if size < 16 ∨ 32 ≤ st.modulesSeen then .error st.pmm
    else .ok { st with
      pmm := reserveRange st.pmm ((modStart m tag).setWidth 64) ((modEnd m tag).setWidth 64)
      modulesSeen := st.modulesSeen + 1 }
  -- `MULTIBOOT2_TAG_TYPE_MMAP`
  else if tagType m tag = 6 then
    if size < 16 then .error st.pmm
    else if entrySize m tag < 24 ∨ size - 16 < entrySize m tag then .error st.pmm
    else
      match importEntries m tag size (entrySize m tag) st.entriesLeft 16 st.pmm with
      | .error s => .error s
      | .ok (left, s) => .ok { st with entriesLeft := left, seenMmap := true, pmm := s }
  else .ok st

/-- The tag loop, with `n` tags to go until `SB_MB2_MAX_TAGS`; the answer holds
`valid_end`. -/
def importTags (m : Mem) (info : U64) (totalSize : U32) (n : ℕ) (offset : U32) (st : Import) :
    Except Pmm (Bool × Import) :=
  if offset ≤ totalSize - 8 then
    match n with
    | 0 => .ok (false, st)
    | n + 1 =>
      let tag := (info + offset.setWidth 64).toNat
      let size := tagSize m tag
      if size < 8 ∨ totalSize - offset < size then .error st.pmm
      -- `MULTIBOOT2_TAG_TYPE_END`
      else if tagType m tag = 0 then .ok (size == 8, st)
      else
        match importTag m tag st with
        | .error s => .error s
        | .ok st =>
          let nextOffset := (size + 7) &&& ~~~7
          if nextOffset < size ∨ totalSize - offset < nextOffset then .error st.pmm
          else importTags m info totalSize n (offset + nextOffset) st
  else .ok (false, st)

/-- `pmm_init_from_multiboot` between the first reservation of page 0 and the
final reservations. -/
def importBlock (m : Mem) (info : U64) (s : Pmm) : Except Pmm Pmm :=
  if info = 0 ∨ 0x40000000 ≤ info then .error s
  else
    let totalSize := read32 m info.toNat
    if totalSize < 16 ∨ 64 * 1024 < totalSize ∨ totalSize &&& 7 ≠ 0 ∨
        BitVec.allOnes 64 - info < totalSize.setWidth 64 then .error s
    else
      match importTags m info totalSize 128 8 ⟨128, 0, false, s⟩ with
      | .error s => .error s
      | .ok (validEnd, st) =>
        if !validEnd || !st.seenMmap then .error st.pmm else .ok st.pmm

/-- `pmm_init_from_multiboot`. -/
def pmmInitFromMultiboot (image : KernelImage) (m : Mem) (info : U64) (s : Pmm) : Pmm :=
  let s := pmmReserveRange bootstrapLimit (pmmReset bootstrapLimit s) 0 4096
  match importBlock m info s with
  | .error s => fallbackToBootstrap image s
  | .ok s =>
    let totalSize := (read32 m info.toNat).setWidth 64
    let s := reserveRange s kernelStart image.kernelEnd
    let s := if info ≤ BitVec.allOnes 64 - totalSize then reserveRange s info (info + totalSize)
      else fallbackToBootstrap image s
    pmmReserveRange bootstrapLimit s 0 4096

/-! ### Rounding -/

variable {info : U64} {off : U32} {p : ℕ} {s : Pmm}

/-- Rounding down to a page. -/
theorem alignDown_toNat (value : U64) : (alignDown value).toNat = value.toNat / 4096 * 4096 :=
  Words.toNat_and_not_low value (show 12 ≤ 64 by decide) rfl

/-- Below the limit of the allocator `align_up` does not saturate. -/
theorem alignUp_toNat (value : U64) (h : value.toNat ≤ 2 ^ 28) :
    (alignUp value).toNat = (value.toNat + 4095) / 4096 * 4096 := by
  have hmax : ¬ BitVec.allOnes 64 - 4095 < value := by
    rw [BitVec.lt_def]
    have : (BitVec.allOnes 64 - 4095 : U64).toNat = 2 ^ 64 - 4096 := by decide
    omega
  have hsum : (value + 4096 - 1).toNat = value.toNat + 4095 := by bv_omega
  rw [alignUp, if_neg hmax, ← hsum]
  exact Words.toNat_and_not_low _ (show 12 ≤ 64 by decide) rfl

/-- A size rounded up to a multiple of eight. -/
def roundUp8 (n : ℕ) : ℕ := (n + 7) / 8 * 8

theorem toNat_roundUp8 (size : U32) (h : size.toNat + 7 < 2 ^ 32) :
    ((size + 7) &&& ~~~7).toNat = roundUp8 size.toNat := by
  have hsum : (size + 7).toNat = size.toNat + 7 := by bv_omega
  rw [roundUp8, ← hsum]
  exact Words.toNat_and_not_low _ (show 3 ≤ 32 by decide) rfl

/-- The address of a tag. -/
theorem toNat_tag (hfits : info.toNat + off.toNat < 2 ^ 64) :
    (info + off.setWidth 64).toNat = info.toNat + off.toNat := by
  rw [BitVec.toNat_add, BitVec.toNat_setWidth_of_le (by decide), Nat.mod_eq_of_lt hfits]

/-- Some byte of `[start, stop)` lies in page `p`. -/
def Meets (start stop p : ℕ) : Prop := ∃ x, start ≤ x ∧ x < stop ∧ x / 4096 = p

/-- A range meets a page when they have an address in common. -/
theorem meets_iff {start stop : ℕ} :
    Meets start stop p ↔ start < stop ∧ 4096 * p < stop ∧ start < 4096 * (p + 1) := by
  constructor
  · rintro ⟨x, h₁, h₂, rfl⟩
    omega
  · rintro ⟨h₁, h₂, h₃⟩
    exact ⟨max start (4096 * p), by omega, by omega, by omega⟩

instance (start stop p : ℕ) : Decidable (Meets start stop p) := decidable_of_iff' _ meets_iff

/-! ### What the importer adds to the sets of pages -/

/-- From `s` to `s'` the usable set grows by the pages of `U`, the reserved set
by those of `R`, and nothing is handed out or given back. -/
def Imports (s s' : Pmm) (U R : ℕ → Prop) : Prop :=
  ∀ a, Refines bootstrapLimit s a → ∃ a', Refines bootstrapLimit s' a' ∧
    a'.allocated = a.allocated ∧
    (∀ p, p ∈ a'.usable ↔ p ∈ a.usable ∨ p < 65536 ∧ U p) ∧
    (∀ p, p ∈ a'.reserved ↔ p ∈ a.reserved ∨ p < 65536 ∧ R p)

theorem Imports.refl (s : Pmm) : Imports s s (fun _ => False) fun _ => False :=
  fun a h => ⟨a, h, rfl, fun p => by simp, fun p => by simp⟩

theorem Imports.trans {s₁ s₂ : Pmm} {U R U' R' : ℕ → Prop} (h₁ : Imports s s₁ U R)
    (h₂ : Imports s₁ s₂ U' R') : Imports s s₂ (fun p => U p ∨ U' p) fun p => R p ∨ R' p := by
  intro a h
  obtain ⟨b, hb, halloc, husable, hreserved⟩ := h₁ a h
  obtain ⟨c, hc, halloc', husable', hreserved'⟩ := h₂ b hb
  refine ⟨c, hc, halloc'.trans halloc, fun p => ?_, fun p => ?_⟩
  · rw [husable', husable]
    tauto
  · rw [hreserved', hreserved]
    tauto

theorem Imports.congr {s' : Pmm} {U R U' R' : ℕ → Prop} (h : Imports s s' U R)
    (hU : ∀ p < 65536, U p ↔ U' p) (hR : ∀ p < 65536, R p ↔ R' p) : Imports s s' U' R' := by
  intro a ha
  obtain ⟨b, hb, halloc, husable, hreserved⟩ := h a ha
  refine ⟨b, hb, halloc, fun p => ?_, fun p => ?_⟩
  · rw [husable, and_congr_right (hU p)]
  · rw [hreserved, and_congr_right (hR p)]

/-- A usable range gives the pages inside it. -/
theorem pmmAddUsableRange_imports (s : Pmm) (start stop : U64) :
    Imports s (pmmAddUsableRange bootstrapLimit s start stop) (Inside start stop) fun _ => False :=
  fun a h => ⟨_, h.addUsableRange start stop, rfl,
    fun p => by rw [Finset.mem_union, mem_insidePages]; rfl, fun p => by simp⟩

/-- A reserved range takes the pages inside it. -/
theorem pmmReserveRange_imports (s : Pmm) (start stop : U64) :
    Imports s (pmmReserveRange bootstrapLimit s start stop) (fun _ => False) (Inside start stop) :=
  fun a h => ⟨_, h.reserveRange start stop, rfl, fun p => by simp,
    fun p => by rw [Finset.mem_union, mem_insidePages]; rfl⟩

/-- The end of a range, cut to the limit of the allocator. -/
theorem toNat_clamp (stop : U64) :
    (if pmmBootstrapLimit < stop then pmmBootstrapLimit else stop).toNat =
      min stop.toNat (2 ^ 28) := by
  have hlimit : pmmBootstrapLimit.toNat = 2 ^ 28 := rfl
  split_ifs with h <;> rw [BitVec.lt_def, hlimit] at h <;> omega

/-- `reserve_range` reserves every page that its range touches. -/
theorem reserveRange_imports (s : Pmm) (start stop : U64) :
    Imports s (reserveRange s start stop) (fun _ => False) (Meets start.toNat stop.toNat) := by
  have hlimit : pmmBootstrapLimit.toNat = 2 ^ 28 := rfl
  have hnone : (∀ p < 65536, ¬ Meets start.toNat stop.toNat p) →
      Imports s s (fun _ => False) (Meets start.toNat stop.toNat) :=
    fun h => (Imports.refl s).congr (fun _ _ => Iff.rfl) fun p hp => iff_of_false id (h p hp)
  unfold reserveRange
  by_cases h₁ : stop ≤ start
  · rw [if_pos h₁]
    rw [BitVec.le_def] at h₁
    exact hnone fun p _ hm => by rw [meets_iff] at hm; omega
  by_cases h₂ : pmmBootstrapLimit ≤ start
  · rw [if_neg h₁, if_pos h₂]
    rw [BitVec.le_def, hlimit] at h₂
    exact hnone fun p hp hm => by rw [meets_iff] at hm; omega
  rw [if_neg h₁, if_neg h₂]
  rw [BitVec.le_def] at h₁ h₂
  rw [hlimit] at h₂
  have hcut := toNat_clamp stop
  dsimp only
  generalize (if pmmBootstrapLimit < stop then pmmBootstrapLimit else stop) = cut at hcut ⊢
  have hdown := alignDown_toNat start
  have hup := alignUp_toNat cut (by omega)
  rw [if_pos (by rw [BitVec.lt_def]; omega)]
  refine (pmmReserveRange_imports s _ _).congr (fun _ _ => Iff.rfl) fun p hp => ?_
  rw [Inside, meets_iff]
  omega

/-- The pages that an available entry gives: it holds them whole. -/
def MmapEntry.Usable (e : MmapEntry) (p : ℕ) : Prop :=
  e.type = 1 ∧ e.addr.toNat + e.len.toNat < 2 ^ 64 ∧
    e.addr.toNat ≤ 4096 * p ∧ 4096 * (p + 1) ≤ e.addr.toNat + e.len.toNat

/-- The pages that an entry of any other type takes: it touches them. -/
def MmapEntry.Reserved (e : MmapEntry) (p : ℕ) : Prop :=
  e.type ≠ 1 ∧ e.addr.toNat + e.len.toNat < 2 ^ 64 ∧
    Meets e.addr.toNat (e.addr.toNat + e.len.toNat) p

/-- An entry of the memory map. -/
theorem importEntry_imports (s : Pmm) (e : MmapEntry) :
    Imports s (importEntry s e) e.Usable e.Reserved := by
  have hlimit : pmmBootstrapLimit.toNat = 2 ^ 28 := rfl
  have hnone : (∀ p < 65536, ¬ e.Usable p) → (∀ p < 65536, ¬ e.Reserved p) →
      Imports s s e.Usable e.Reserved :=
    fun hU hR => (Imports.refl s).congr (fun p hp => iff_of_false id (hU p hp))
      fun p hp => iff_of_false id (hR p hp)
  have hfits : e.len ≤ BitVec.allOnes 64 - e.addr ↔ e.addr.toNat + e.len.toNat < 2 ^ 64 := by
    have hmax : (BitVec.allOnes 64).toNat = 2 ^ 64 - 1 := rfl
    rw [BitVec.le_def, BitVec.toNat_sub, hmax]
    omega
  unfold importEntry
  by_cases hlen : e.len ≠ 0 ∧ e.len ≤ BitVec.allOnes 64 - e.addr
  · have hsum : (e.addr + e.len).toNat = e.addr.toNat + e.len.toNat := by
      have := hfits.1 hlen.2
      bv_omega
    rw [if_pos hlen]
    dsimp only
    by_cases htype : e.type = 1
    · have hres : ∀ p < 65536, ¬ e.Reserved p := fun p _ hr => hr.1 htype
      rw [if_pos htype]
      by_cases hstart : e.addr < pmmBootstrapLimit
      · rw [if_pos hstart]
        rw [BitVec.lt_def, hlimit] at hstart
        have hcut := toNat_clamp (e.addr + e.len)
        rw [hsum] at hcut
        generalize (if pmmBootstrapLimit < e.addr + e.len then pmmBootstrapLimit
          else e.addr + e.len)
          = cut at hcut ⊢
        have hdown := alignDown_toNat cut
        have hup := alignUp_toNat e.addr (by omega)
        split_ifs with hend
        · refine (pmmAddUsableRange_imports s _ _).congr (fun p hp => ?_) fun p hp =>
            iff_of_false id (hres p hp)
          rw [Inside, MmapEntry.Usable, and_iff_right htype, and_iff_right (hfits.1 hlen.2)]
          omega
        · refine hnone (fun p hp hu => ?_) hres
          rw [MmapEntry.Usable] at hu
          rw [BitVec.lt_def] at hend
          omega
      · rw [if_neg hstart]
        rw [BitVec.lt_def, hlimit] at hstart
        refine hnone (fun p hp hu => ?_) hres
        rw [MmapEntry.Usable] at hu
        omega
    · rw [if_neg htype]
      refine (reserveRange_imports s _ _).congr (fun p _ => iff_of_false id fun hu => htype hu.1)
        fun p _ => ?_
      rw [MmapEntry.Reserved, hsum]
      exact ⟨fun hm => ⟨htype, hfits.1 hlen.2, hm⟩, fun hr => hr.2.2⟩
  · rw [if_neg hlen]
    have hempty : e.addr.toNat + e.len.toNat < 2 ^ 64 → e.len.toNat = 0 := by
      intro h
      by_contra hne
      exact hlen ⟨fun h0 => hne (by rw [h0]; rfl), hfits.2 h⟩
    refine hnone (fun p _ hu => ?_) fun p _ hr => ?_
    · obtain ⟨-, h₁, h₂, h₃⟩ := hu
      have := hempty h₁
      omega
    · obtain ⟨-, h₁, hm⟩ := hr
      have := hempty h₁
      rw [meets_iff] at hm
      omega

/-! ### The walk over the tags, as the format defines it -/

/-- From offset `off` of the block at `info` the walk comes to offset `off'`: it
goes past every tag but the end tag, by the tag's size rounded up to eight. -/
inductive Reaches (m : Mem) (info : ℕ) : ℕ → ℕ → Prop
  | here (off : ℕ) : Reaches m info off off
  | next {off off' : ℕ} (htype : tagType m (info + off) ≠ 0)
      (hnext : Reaches m info (off + roundUp8 (tagSize m (info + off)).toNat) off') :
      Reaches m info off off'

/-- Entry `j` of the memory map in the tag at `tag` is `e`. -/
def EntryOf (m : Mem) (tag j : ℕ) (e : MmapEntry) : Prop :=
  tagType m tag = 6 ∧ 16 + (j + 1) * (entrySize m tag).toNat ≤ (tagSize m tag).toNat ∧
    e = mmapEntry m (tag + 16 + j * (entrySize m tag).toNat)

/-- The pages that the tag at `tag` makes usable. -/
def TagUsable (m : Mem) (tag p : ℕ) : Prop := ∃ j e, EntryOf m tag j e ∧ e.Usable p

/-- The pages that the tag at `tag` reserves. -/
def TagReserved (m : Mem) (tag p : ℕ) : Prop :=
  (tagType m tag = 3 ∧ Meets (modStart m tag).toNat (modEnd m tag).toNat p) ∨
    ∃ j e, EntryOf m tag j e ∧ e.Reserved p

variable {m : Mem}

/-- The entries from an offset on: the one there, and those after it. -/
theorem exists_entry_iff (tag size step off : ℕ) (P : MmapEntry → Prop) :
    (∃ j, off + (j + 1) * step ≤ size ∧ P (mmapEntry m (tag + off + j * step))) ↔
      (off + step ≤ size ∧ P (mmapEntry m (tag + off))) ∨
        ∃ j, off + step + (j + 1) * step ≤ size ∧
          P (mmapEntry m (tag + (off + step) + j * step)) := by
  have hnext : ∀ j, tag + off + (j + 1) * step = tag + (off + step) + j * step := by
    intro j
    rw [Nat.succ_mul]
    omega
  have hbound : ∀ j, off + (j + 1 + 1) * step = off + step + (j + 1) * step := by
    intro j
    rw [Nat.succ_mul (j + 1)]
    omega
  constructor
  · rintro ⟨j, hj, hP⟩
    cases j with
    | zero => exact Or.inl ⟨by simpa using hj, by simpa using hP⟩
    | succ j => exact Or.inr ⟨j, hbound j ▸ hj, hnext j ▸ hP⟩
  · rintro (⟨hj, hP⟩ | ⟨j, hj, hP⟩)
    · exact ⟨0, by simpa using hj, by simpa using hP⟩
    · exact ⟨j + 1, (hbound j).symm ▸ hj, (hnext j).symm ▸ hP⟩

/-- The entry loop imports every entry from its offset on. -/
theorem importEntries_imports {tag : ℕ} {size entrySize : U32} (hpos : 0 < entrySize.toNat)
    (hle : entrySize.toNat ≤ size.toNat) {left left' : ℕ} {s' : Pmm}
    (hok : importEntries m tag size entrySize left off s = .ok (left', s')) :
    Imports s s'
      (fun p => ∃ j, off.toNat + (j + 1) * entrySize.toNat ≤ size.toNat ∧
        (mmapEntry m (tag + off.toNat + j * entrySize.toNat)).Usable p)
      (fun p => ∃ j, off.toNat + (j + 1) * entrySize.toNat ≤ size.toNat ∧
        (mmapEntry m (tag + off.toNat + j * entrySize.toNat)).Reserved p) := by
  have hstop : ∀ {off : U32}, ¬ off ≤ size - entrySize → ∀ j,
      ¬ off.toNat + (j + 1) * entrySize.toNat ≤ size.toNat := by
    intro off hmore j
    rw [Nat.succ_mul]
    bv_omega
  have hnone : ∀ {off : U32} (P : ℕ → ℕ → Prop), ¬ off ≤ size - entrySize → ∀ p,
      False ↔ ∃ j, off.toNat + (j + 1) * entrySize.toNat ≤ size.toNat ∧ P j p :=
    fun P hmore p => iff_of_false id fun ⟨j, hj, _⟩ => hstop hmore j hj
  induction left generalizing off s with
  | zero =>
    unfold importEntries at hok
    split_ifs at hok with hmore
    obtain ⟨rfl, rfl⟩ : 0 = left' ∧ s = s' := by simpa using hok
    exact (Imports.refl s).congr (fun p _ => hnone _ hmore p) fun p _ => hnone _ hmore p
  | succ left ih =>
    unfold importEntries at hok
    split_ifs at hok with hmore
    · have hfits : off.toNat + entrySize.toNat ≤ size.toNat := by bv_omega
      have hsum : (off + entrySize).toNat = off.toNat + entrySize.toNat := by bv_omega
      refine ((importEntry_imports s _).trans (ih hok)).congr (fun p _ => ?_) fun p _ => ?_
      · rw [hsum]
        exact ((exists_entry_iff tag _ _ _ (·.Usable p)).trans (by rw [and_iff_right hfits])).symm
      · rw [hsum]
        exact ((exists_entry_iff tag _ _ _ (·.Reserved p)).trans (by rw [and_iff_right hfits])).symm
    · obtain ⟨rfl, rfl⟩ : left + 1 = left' ∧ s = s' := by simpa using hok
      exact (Imports.refl s).congr (fun p _ => hnone _ hmore p) fun p _ => hnone _ hmore p

/-- One tag is imported as the format says. -/
theorem importTag_imports {tag : ℕ} {st st' : Import} (hok : importTag m tag st = .ok st') :
    Imports st.pmm st'.pmm (TagUsable m tag) (TagReserved m tag) := by
  unfold importTag at hok
  dsimp only at hok
  split_ifs at hok with hmodule hbad hmmap hsmall hentry
  · -- a module
    obtain rfl := Except.ok.inj hok
    refine (reserveRange_imports st.pmm _ _).congr (fun p _ => ?_) fun p _ => ?_
    · exact iff_of_false id fun ⟨_, _, he, _⟩ => absurd (hmodule.symm.trans he.1) (by decide)
    · rw [BitVec.toNat_setWidth_of_le (by decide), BitVec.toNat_setWidth_of_le (by decide)]
      constructor
      · exact fun hm => Or.inl ⟨hmodule, hm⟩
      · rintro (⟨_, hm⟩ | ⟨_, _, he, _⟩)
        · exact hm
        · exact absurd (hmodule.symm.trans he.1) (by decide)
  · -- a memory map
    split at hok
    · exact absurd hok (by simp)
    · rename_i left s heq
      obtain rfl := Except.ok.inj hok
      have hpos : 0 < (entrySize m tag).toNat := by bv_omega
      have hle : (entrySize m tag).toNat ≤ (tagSize m tag).toNat := by bv_omega
      refine (importEntries_imports hpos hle heq).congr (fun p _ => ?_) fun p _ => ?_
      · constructor
        · rintro ⟨j, hj, hu⟩
          exact ⟨j, _, ⟨hmmap, hj, rfl⟩, hu⟩
        · rintro ⟨j, _, ⟨-, hj, rfl⟩, hu⟩
          exact ⟨j, hj, hu⟩
      · constructor
        · rintro ⟨j, hj, hr⟩
          exact Or.inr ⟨j, _, ⟨hmmap, hj, rfl⟩, hr⟩
        · rintro (⟨htype, _⟩ | ⟨j, _, ⟨-, hj, rfl⟩, hr⟩)
          · exact absurd htype hmodule
          · exact ⟨j, hj, hr⟩
  · -- any other tag
    obtain rfl := Except.ok.inj hok
    refine (Imports.refl _).congr (fun p _ => ?_) fun p _ => ?_
    · exact iff_of_false id fun ⟨_, _, he, _⟩ => hmmap he.1
    · refine iff_of_false id ?_
      rintro (⟨htype, _⟩ | ⟨_, _, he, _⟩)
      · exact hmodule htype
      · exact hmmap he.1

/-- What holds at some tag of a walk holds at its first tag or at a tag of the
rest. -/
theorem exists_reaches_iff (info off : ℕ) {P : ℕ → Prop} :
    (∃ off', Reaches m info off off' ∧ P off') ↔ P off ∨ tagType m (info + off) ≠ 0 ∧
      ∃ off', Reaches m info (off + roundUp8 (tagSize m (info + off)).toNat) off' ∧ P off' := by
  constructor
  · rintro ⟨off', _ | ⟨htype, hnext⟩, hP⟩
    · exact Or.inl hP
    · exact Or.inr ⟨htype, off', hnext, hP⟩
  · rintro (hP | ⟨htype, off', hnext, hP⟩)
    · exact ⟨off, .here _, hP⟩
    · exact ⟨off', .next htype hnext, hP⟩

/-- Every tag that the walk comes to, the end tag apart, lies in the block. -/
def WalkInside (m : Mem) (info total off : ℕ) : Prop :=
  ∀ off', Reaches m info off off' → tagType m (info + off') ≠ 0 →
    8 ≤ (tagSize m (info + off')).toNat ∧ off' + roundUp8 (tagSize m (info + off')).toNat ≤ total

/-- One round of a tag loop that comes to a valid end tag. -/
theorem importTags_cases {total : U32} (hinfo : info.toNat < 2 ^ 30)
    (htotal : total.toNat ≤ 65536) {n : ℕ} {st st' : Import} (hoff : off.toNat ≤ total.toNat)
    (hok : importTags m info total n off st = .ok (true, st')) :
    ∃ n', n = n' + 1 ∧ ((tagType m (info.toNat + off.toNat) = 0 ∧ st' = st) ∨
    ∃ off' st₁, tagType m (info.toNat + off.toNat) ≠ 0 ∧
      8 ≤ (tagSize m (info.toNat + off.toNat)).toNat ∧
      off'.toNat = off.toNat + roundUp8 (tagSize m (info.toNat + off.toNat)).toNat ∧
      off'.toNat ≤ total.toNat ∧ importTag m (info.toNat + off.toNat) st = .ok st₁ ∧
      importTags m info total n' off' st₁ = .ok (true, st')) := by
  have htag := toNat_tag (by omega : info.toNat + off.toNat < 2 ^ 64)
  unfold importTags at hok
  cases n with
  | zero => split_ifs at hok <;> simp at hok
  | succ n =>
    dsimp only at hok
    rw [htag] at hok
    generalize hsz : tagSize m (info.toNat + off.toNat) = size at hok ⊢
    split_ifs at hok with hmore hsize hend hnext
    · simp only [Except.ok.injEq, Prod.mk.injEq] at hok
      exact ⟨n, rfl, Or.inl ⟨hend, hok.2.symm⟩⟩
    · split at hok <;> exact absurd hok (by simp)
    · cases htagok : importTag m (info.toNat + off.toNat) st with
      | error s => rw [htagok] at hok; exact absurd hok (by simp)
      | ok st₁ =>
        rw [htagok] at hok
        dsimp only at hok
        have hround := toNat_roundUp8 size (by bv_omega)
        have hfits : off.toNat + roundUp8 size.toNat ≤ total.toNat := by
          rw [not_or, BitVec.lt_def, BitVec.lt_def, hround] at hnext
          bv_omega
        have hoff' : (off + ((size + 7) &&& ~~~7)).toNat = off.toNat + roundUp8 size.toNat := by
          rw [BitVec.toNat_add, hround]
          omega
        exact ⟨n, rfl, Or.inr ⟨_, st₁, hend, by bv_omega, hoff', hoff' ▸ hfits, rfl, hok⟩⟩
    · exact absurd hok (by simp)

/-- The tag loop, when it comes to a valid end tag, has imported every tag that
the walk reaches, and they all lie in the block. -/
theorem importTags_imports {total : U32} (hinfo : info.toNat < 2 ^ 30)
    (htotal : total.toNat ≤ 65536) {n : ℕ} {st st' : Import} (hoff : off.toNat ≤ total.toNat)
    (hok : importTags m info total n off st = .ok (true, st')) :
    Imports st.pmm st'.pmm
      (fun p => ∃ off', Reaches m info.toNat off.toNat off' ∧ TagUsable m (info.toNat + off') p)
      (fun p => ∃ off', Reaches m info.toNat off.toNat off' ∧ TagReserved m (info.toNat + off') p) ∧
    WalkInside m info.toNat total.toNat off.toNat := by
  induction n generalizing off st with
  | zero =>
    obtain ⟨n', hn, _⟩ := importTags_cases hinfo htotal hoff hok
    exact absurd hn (by omega)
  | succ n ih =>
    obtain ⟨n', hn, ⟨hend, rfl⟩ | ⟨off', st₁, htype, hsize, hoff', hle, htag, hrest⟩⟩ :=
      importTags_cases hinfo htotal hoff hok
    · -- the end tag holds no entry and no module, and the walk stops there
      have hrest : ∀ P : ℕ → Prop, ¬ P off.toNat → (False ↔ ∃ off',
          Reaches m info.toNat off.toNat off' ∧ P off') := by
        intro P hP
        rw [exists_reaches_iff, hend]
        simp [hP]
      refine ⟨(Imports.refl _).congr (fun p _ => hrest _ ?_) fun p _ => hrest _ ?_, ?_⟩
      · rintro ⟨_, _, ⟨htype, _⟩, _⟩
        exact absurd (hend.symm.trans htype) (by decide)
      · rintro (⟨htype, _⟩ | ⟨_, _, ⟨htype, _⟩, _⟩) <;>
          exact absurd (hend.symm.trans htype) (by decide)
      · rintro off'' (_ | ⟨htype, _⟩) hne
        · exact absurd hend hne
        · exact absurd hend htype
    · obtain rfl : n = n' := by omega
      obtain ⟨himports, hinside⟩ := ih hle hrest
      rw [hoff'] at himports hinside
      refine ⟨((importTag_imports htag).trans himports).congr (fun p _ => ?_) fun p _ => ?_, ?_⟩
      · rw [exists_reaches_iff _ off.toNat, and_iff_right htype]
      · rw [exists_reaches_iff _ off.toNat, and_iff_right htype]
      · rintro off'' (_ | ⟨_, hnext⟩)
        · exact fun _ => ⟨hsize, hoff' ▸ hle⟩
        · exact hinside off'' hnext

/-! ### The whole import -/

/-- The pages that the memory map of the block makes usable. -/
def BlockUsable (m : Mem) (info p : ℕ) : Prop :=
  ∃ off, Reaches m info 8 off ∧ TagUsable m (info + off) p

/-- The pages that the memory map and the modules of the block reserve. -/
def BlockReserved (m : Mem) (info p : ℕ) : Prop :=
  ∃ off, Reaches m info 8 off ∧ TagReserved m (info + off) p

/-- A block that is accepted, and what has been imported then. -/
theorem importBlock_spec {s' : Pmm} (hok : importBlock m info s = .ok s') :
    info.toNat < 2 ^ 30 ∧ (read32 m info.toNat).toNat ≤ 65536 ∧
    Imports s s' (BlockUsable m info.toNat) (BlockReserved m info.toNat) ∧
    WalkInside m info.toNat (read32 m info.toNat).toNat 8 := by
  unfold importBlock at hok
  generalize htotal : read32 m info.toNat = total at hok ⊢
  dsimp only at hok
  split_ifs at hok with haddr hsize
  have hinfo : info.toNat < 2 ^ 30 := by bv_omega
  have hlow : 16 ≤ total.toNat := by bv_omega
  have hhigh : total.toNat ≤ 65536 := by bv_omega
  cases htags : importTags m info total 128 8 ⟨128, 0, false, s⟩ with
  | error t => rw [htags] at hok; exact absurd hok (by simp)
  | ok r =>
    obtain ⟨validEnd, st⟩ := r
    rw [htags] at hok
    cases validEnd with
    | false => exact absurd hok (by simp)
    | true =>
      dsimp only at hok
      split_ifs at hok
      obtain rfl := Except.ok.inj hok
      have hoff : (8 : U32).toNat = 8 := rfl
      obtain ⟨himports, hinside⟩ := importTags_imports hinfo hhigh (by omega) htags
      rw [hoff] at himports hinside
      exact ⟨hinfo, hhigh, himports, hinside⟩

/-- `pmm_init_from_multiboot` reaches its final reservations without calling
`fallback_to_bootstrap`. -/
def Accepts (m : Mem) (info : U64) (s : Pmm) : Prop :=
  ∃ s', importBlock m info (pmmReserveRange bootstrapLimit (pmmReset bootstrapLimit s) 0 4096) =
    .ok s'

theorem inside_page_zero (p : ℕ) : Inside 0 4096 p ↔ p = 0 := by
  rw [Inside]
  have h₀ : (0 : U64).toNat = 0 := rfl
  have h₁ : (4096 : U64).toNat = 4096 := rfl
  omega

/-- The pages that are reserved besides those of the block's tags. -/
def OwnReserved (image : KernelImage) (m : Mem) (info : U64) (p : ℕ) : Prop :=
  p = 0 ∨ Meets kernelStart.toNat image.kernelEnd.toNat p ∨
    Meets info.toNat (info.toNat + (read32 m info.toNat).toNat) p

/-- An accepted block, all reservations included. -/
theorem pmmInitFromMultiboot_accepted (image : KernelImage) (h : Accepts m info s) :
    Imports (pmmReset bootstrapLimit s) (pmmInitFromMultiboot image m info s)
      (BlockUsable m info.toNat)
      (fun p => BlockReserved m info.toNat p ∨ OwnReserved image m info p) := by
  obtain ⟨s₁, hok⟩ := h
  obtain ⟨hinfo, htotal, himports, -⟩ := importBlock_spec hok
  have hwide : ((read32 m info.toNat).setWidth 64).toNat = (read32 m info.toNat).toNat :=
    BitVec.toNat_setWidth_of_le (by decide)
  have hfits : info ≤ BitVec.allOnes 64 - (read32 m info.toNat).setWidth 64 := by
    have hmax : (BitVec.allOnes 64).toNat = 2 ^ 64 - 1 := rfl
    rw [BitVec.le_def, BitVec.toNat_sub, hwide, hmax]
    omega
  have hsum : (info + (read32 m info.toNat).setWidth 64).toNat =
      info.toNat + (read32 m info.toNat).toNat := by
    rw [BitVec.toNat_add, hwide]
    omega
  unfold pmmInitFromMultiboot
  dsimp only
  rw [hok]
  dsimp only
  rw [if_pos hfits]
  have hblock := (pmmReserveRange_imports (pmmReset bootstrapLimit s) 0 4096).trans himports
  have hkernel := hblock.trans (reserveRange_imports s₁ kernelStart image.kernelEnd)
  have hinfo := hkernel.trans (reserveRange_imports _ info
    (info + (read32 m info.toNat).setWidth 64))
  refine (hinfo.trans (pmmReserveRange_imports _ 0 4096)).congr (fun p _ => by simp) fun p _ => ?_
  rw [inside_page_zero, hsum, OwnReserved]
  constructor
  · rintro ((((h | h) | h) | h) | h)
    exacts [Or.inr (Or.inl h), Or.inl h, Or.inr (Or.inr (Or.inl h)), Or.inr (Or.inr (Or.inr h)),
      Or.inr (Or.inl h)]
  · rintro (h | h | h | h)
    exacts [Or.inl (Or.inl (Or.inl (Or.inr h))), Or.inr h, Or.inl (Or.inl (Or.inr h)),
      Or.inl (Or.inr h)]

/-! ### The fallback window -/

/-- The free pages of `fallback_to_bootstrap`: those from 16 MiB to 64 MiB, the
kernel image apart.  Page 0 is not among them. -/
def FallbackFree (image : KernelImage) (p : ℕ) : Prop :=
  4096 ≤ p ∧ p < 16384 ∧ ¬ Meets kernelStart.toNat image.kernelEnd.toNat p

/-- The sets of `fallback_to_bootstrap`. -/
def fallbackSets (image : KernelImage) : PageSets where
  usable := insidePages bootstrapLimit 0x01000000 0x04000000
  reserved :=
    insidePages bootstrapLimit kernelStart image.kernelEnd ∪ insidePages bootstrapLimit 0 4096
  allocated := ∅

/-- The sets of pages behind the fallback. -/
theorem fallbackToBootstrap_refines (image : KernelImage) (s : Pmm) :
    Refines bootstrapLimit (fallbackToBootstrap image s) (fallbackSets image) := by
  have hinit := pmmBoot_refines bootstrapLimit s (.init 0x01000000 0x04000000)
  have hall := (hinit.reserveRange kernelStart image.kernelEnd).reserveRange 0 4096
  have hsets : fallbackSets image =
      { usable := insidePages bootstrapLimit 0x01000000 0x04000000
        reserved := ∅ ∪ insidePages bootstrapLimit kernelStart image.kernelEnd ∪
          insidePages bootstrapLimit 0 4096
        allocated := ∅ } := by
    rw [Finset.empty_union, fallbackSets]
  rw [hsets, fallbackToBootstrap]
  exact hall

/-- The kernel begins and ends on page boundaries: it holds every page that it
touches. -/
theorem inside_kernel_iff (image : KernelImage) (p : ℕ) :
    Inside kernelStart image.kernelEnd p ↔ Meets kernelStart.toNat image.kernelEnd.toNat p := by
  have hstart : kernelStart.toNat = 4096 * 256 := rfl
  have hend := image.aligned
  rw [Inside, meets_iff]
  omega

theorem mem_fallbackSets_free (image : KernelImage) (hp : p < 65536) :
    p ∈ (fallbackSets image).free ↔ FallbackFree image p := by
  have hlow : (0x01000000 : U64).toNat = 4096 * 4096 := rfl
  have hhigh : (0x04000000 : U64).toNat = 4096 * 16384 := rfl
  have hpages : bootstrapLimit.pages = 65536 := rfl
  rw [PageSets.mem_free, fallbackSets, FallbackFree, Finset.mem_union]
  simp only [mem_insidePages, inside_kernel_iff, inside_page_zero, Finset.notMem_empty,
    not_false_eq_true, and_true, hpages, hp, true_and, not_or]
  rw [Inside, hlow, hhigh]
  constructor
  · rintro ⟨hin, hkernel, -⟩
    exact ⟨by omega, by omega, hkernel⟩
  · rintro ⟨h₁, h₂, hkernel⟩
    exact ⟨by omega, hkernel, by omega⟩

/-- The page count is set by the reset inside the fallback. -/
theorem fallbackToBootstrap_pageCount (image : KernelImage) (s : Pmm) :
    (fallbackToBootstrap image s).pageCount = BitVec.ofNat 64 65536 := by
  have hmarks := fun (t : Pmm) (start stop : U64) (makeFree : Bool) =>
    (setRangeBits_marks bootstrapLimit t start stop makeFree).pageCount
  simp only [fallbackToBootstrap, pmmReserveRange, pmmInit, recomputeFreeCount, hmarks]
  rfl

/-- Its free pages, in the bitmap. -/
theorem fallback_free_iff (image : KernelImage) (s : Pmm) (hp : p < 65536) :
    pageBit (fallbackToBootstrap image s).bitmap p = false ↔ FallbackFree image p :=
  ((fallbackToBootstrap_refines image s).bitmap p hp).trans (mem_fallbackSets_free image hp)

/-- A block that is not accepted ends in the fallback. -/
theorem pmmInitFromMultiboot_rejected (image : KernelImage) (h : ¬ Accepts m info s) :
    ∃ t, pmmInitFromMultiboot image m info s = fallbackToBootstrap image t := by
  unfold pmmInitFromMultiboot
  dsimp only
  cases hblock : importBlock m info
      (pmmReserveRange bootstrapLimit (pmmReset bootstrapLimit s) 0 4096) with
  | error t => exact ⟨t, rfl⟩
  | ok t => exact absurd ⟨t, hblock⟩ h

/-- The free pages after an accepted block. -/
theorem accepted_free_iff (image : KernelImage) (h : Accepts m info s) (hp : p < 65536) :
    pageBit (pmmInitFromMultiboot image m info s).bitmap p = false ↔
      BlockUsable m info.toNat p ∧ ¬ BlockReserved m info.toNat p ∧
      ¬ OwnReserved image m info p := by
  obtain ⟨a, href, halloc, husable, hreserved⟩ :=
    pmmInitFromMultiboot_accepted image h _ (pmmReset_refines bootstrapLimit s)
  rw [href.bitmap p hp, PageSets.mem_free, husable, hreserved, halloc]
  simp only [PageSets.empty, Finset.notMem_empty, false_or, hp, true_and, not_or, not_false_eq_true,
    and_true]

/-- **The memory map is imported exactly.**  After an accepted block a page is
free if and only if some available entry holds it whole and no other entry, no
module, not the kernel image and not the block itself touches it, and it is not
page 0.  After a block that is not accepted the allocator is in the fallback
state, the same from whatever state and import it was called. -/
theorem pmmInitFromMultiboot_exact (image : KernelImage) (m : Mem) (info : U64) (s : Pmm) :
    (Accepts m info s → ∀ p < 65536,
      (pageBit (pmmInitFromMultiboot image m info s).bitmap p = false ↔
        (∃ off j e, Reaches m info.toNat 8 off ∧ EntryOf m (info.toNat + off) j e ∧ e.Usable p) ∧
        (∀ off j e, Reaches m info.toNat 8 off → EntryOf m (info.toNat + off) j e →
          ¬ e.Reserved p) ∧
        (∀ off, Reaches m info.toNat 8 off → tagType m (info.toNat + off) = 3 →
          ¬ Meets (modStart m (info.toNat + off)).toNat (modEnd m (info.toNat + off)).toNat p) ∧
        ¬ Meets kernelStart.toNat image.kernelEnd.toNat p ∧
        ¬ Meets info.toNat (info.toNat + (read32 m info.toNat).toNat) p ∧ p ≠ 0)) ∧
    (¬ Accepts m info s →
      (∀ t, SamePmm bootstrapLimit (pmmInitFromMultiboot image m info s)
        (fallbackToBootstrap image t)) ∧
      ∀ p < 65536, (pageBit (pmmInitFromMultiboot image m info s).bitmap p = false ↔
        FallbackFree image p)) := by
  refine ⟨fun h p hp => ?_, fun h => ?_⟩
  · rw [accepted_free_iff image h hp]
    constructor
    · rintro ⟨⟨off, hoff, j, e, he, hu⟩, hblock, hown⟩
      rw [OwnReserved, not_or, not_or] at hown
      exact ⟨⟨off, j, e, hoff, he, hu⟩,
        fun off j e hoff he hr => hblock ⟨off, hoff, Or.inr ⟨j, e, he, hr⟩⟩,
        fun off hoff htype hm => hblock ⟨off, hoff, Or.inl ⟨htype, hm⟩⟩, hown.2.1, hown.2.2, hown.1⟩
    · rintro ⟨⟨off, j, e, hoff, he, hu⟩, hentries, hmodules, hkernel, hinfo, hzero⟩
      refine ⟨⟨off, hoff, j, e, he, hu⟩, ?_, ?_⟩
      · rintro ⟨off, hoff, ⟨htype, hm⟩ | ⟨j, e, he, hr⟩⟩
        · exact hmodules off hoff htype hm
        · exact hentries off j e hoff he hr
      · rintro (h | h | h)
        exacts [hzero h, hkernel h, hinfo h]
  · obtain ⟨t, ht⟩ := pmmInitFromMultiboot_rejected image h
    refine ⟨fun t' => ?_, fun p hp => ?_⟩
    · rw [ht]
      refine (fallbackToBootstrap_refines image t).unique (fallbackToBootstrap_refines image t') ?_
      rw [fallbackToBootstrap_pageCount, fallbackToBootstrap_pageCount]
    · rw [ht]
      exact fallback_free_iff image t hp

/-- A block of 56 bytes: a memory map with one available entry from 0 to
256 MiB, and the end tag. -/
def flatMap : Mem := bytesAt 0x10000
  [56, 0, 0, 0, 0, 0, 0, 0,
    6, 0, 0, 0, 40, 0, 0, 0, 24, 0, 0, 0, 0, 0, 0, 0,
    0, 0, 0, 0, 0, 0, 0, 0, 0, 0, 0, 16, 0, 0, 0, 0, 1, 0, 0, 0, 0, 0, 0, 0,
    0, 0, 0, 0, 8, 0, 0, 0]

theorem flatMap_accepted (s : Pmm) : Accepts flatMap 0x10000 s := ⟨_, rfl⟩

/-- After this block, page 0 is not free. -/
theorem flatMap_page_zero :
    Accepts flatMap 0x10000 ⟨fun _ => 0, fun _ => 0, fun _ => 0, 0, 0⟩ ∧
    ∀ p < 65536, pageBit (pmmInitFromMultiboot ⟨0x200000, by decide⟩ flatMap 0x10000
      ⟨fun _ => 0, fun _ => 0, fun _ => 0, 0, 0⟩).bitmap p = false → p ≠ 0 :=
  ⟨flatMap_accepted _, fun p hp hfree =>
    (((pmmInitFromMultiboot_exact _ _ _ _).1 (flatMap_accepted _) p hp).1 hfree).2.2.2.2.2⟩

end SuiraBox.Boot
