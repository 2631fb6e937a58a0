/-
# Which images the loader accepts

`elf64_load_image` returns 0 on a fresh address space exactly when the image is valid,
its segments can be placed at the load bias (`Placed`: inside PML4 slot 1, on pages that
no two of them share, with the entry point on one of these pages), and there is a frame
for each page and each table (`elf64LoadImage_isSome_iff`).

For `ET_EXEC` the bias is 0.  For `ET_DYN` it is the distance from the page of the entry
point to `SB_USER_BASE`, modulo `2 ^ 64`.  That is a place for the segments only when no
segment starts below the page of the entry point, and when this page is not above
`SB_USER_BASE`: the difference wraps around there, and the sums with it are checked.
-/

import SuiraBox.Exec.Room

namespace SuiraBox.Exec

open ByteMem Forest Mm

/-- The pages of a segment, as a range of addresses. -/
def pageRange (bias : ℕ) (ph : Elf64ProgramHeader) : Set ℕ :=
  Set.Ico ((bias + ph.virtualAddress.toNat) / 4096 * 4096)
    ((bias + ph.virtualAddress.toNat + ph.memorySize.toNat + 4095) / 4096 * 4096)

/-- The segments can be placed at a bias. -/
structure Placed (m : Mem) (image bias : U64) : Prop where
  inside : ∀ i, Loadable m image i →
    2 ^ 39 ≤ bias.toNat + (programHeader m image i).virtualAddress.toNat ∧
      bias.toNat + (programHeader m image i).virtualAddress.toNat +
        (programHeader m image i).memorySize.toNat ≤ 2 ^ 40
  disjoint : ∀ i j, Loadable m image i → Loadable m image j → i ≠ j →
    Disjoint (pageRange bias.toNat (programHeader m image i))
      (pageRange bias.toNat (programHeader m image j))
  entry : ∃ i, Loadable m image i ∧ (bias + (headerAt m image.toNat).entry).toNat ∈
    pageRange bias.toNat (programHeader m image i)

variable {m : Mem} {image : U64}

theorem toNat_of_userPage {va : U64} (h : UserPage va) :
    va.toNat % 4096 = 0 ∧ 2 ^ 39 ≤ va.toNat ∧ va.toNat < 2 ^ 40 := by
  obtain ⟨haligned, hindex, hbelow⟩ := h
  rw [BitVec.lt_def, toNat_userLimit] at hbelow
  rw [pml4Index, toNat_index, userPml4Index] at hindex
  exact ⟨(and_pageMask_eq_zero_iff va).1 haligned, by omega, by omega⟩

section Ranges

variable {m : Mem} {image bias : U64} {i : ℕ} {seg : Segment} {ph : Elf64ProgramHeader}

theorem alignUpChecked_isSome {v : U64} (h : v.toNat + 4095 < 2 ^ 64) :
    ∃ c, alignUpChecked v = some c := by
  have hmax : uint64Max = 18446744073709551615 := rfl
  unfold alignUpChecked
  split_ifs with hov
  · omega
  · exact ⟨_, rfl⟩

/-- A place inside PML4 slot 1 passes the range checks. -/
theorem segmentOf_of_inside (hlo : 2 ^ 39 ≤ bias.toNat + ph.virtualAddress.toNat)
    (hhi : bias.toNat + ph.virtualAddress.toNat + ph.memorySize.toNat ≤ 2 ^ 40)
    (hne : ph.memorySize ≠ 0) : ∃ seg, segmentOf bias ph = some seg := by
  have hbase : userBase.toNat = 2 ^ 39 := rfl
  have hsize : ph.memorySize.toNat ≠ 0 := fun h0 => hne (BitVec.eq_of_toNat_eq h0)
  have hstart : (bias + ph.virtualAddress).toNat = bias.toNat + ph.virtualAddress.toNat := by
    bv_omega
  have hstop : (bias + ph.virtualAddress + ph.memorySize).toNat =
      bias.toNat + ph.virtualAddress.toNat + ph.memorySize.toNat := by bv_omega
  have hrange : ¬ (bias + ph.virtualAddress < userBase ∨
      userLimit < bias + ph.virtualAddress + ph.memorySize ∨
      bias + ph.virtualAddress + ph.memorySize ≤ bias + ph.virtualAddress) := by
    rw [not_or, not_or, BitVec.lt_def, BitVec.lt_def, BitVec.le_def, toNat_userLimit, hstop, hstart]
    omega
  obtain ⟨mapEnd, hmapEnd⟩ := alignUpChecked_isSome
    (show (bias + ph.virtualAddress + ph.memorySize).toNat + 4095 < 2 ^ 64 by omega)
  unfold segmentOf rangeEnd
  rw [u64AddOverflow_eq_some.2 hstart.symm, Option.bind_eq_bind, Option.bind_some,
    u64AddOverflow_eq_some.2 (by rw [hstop, hstart]), Option.bind_some, if_neg hrange, hmapEnd,
    Option.bind_some]
  exact ⟨_, rfl⟩

theorem SegmentOf.pageRange_eq (hr : SegmentOf bias ph seg) :
    pageRange bias.toNat ph = Set.Ico seg.mapStart.toNat seg.mapEnd.toNat := by
  rw [pageRange, hr.mapStart, hr.mapEnd, hr.stop, hr.start]

/-- The addresses in the range are those on the pages of the header. -/
theorem mem_pageRange (hl : Loadable m image i)
    (hseg : segmentOf bias (programHeader m image i) = some seg) {x : ℕ} :
    x ∈ pageRange bias.toNat (programHeader m image i) ↔
      ∃ pg ∈ headerPages m image bias i, pg.va.toNat = x / 4096 * 4096 := by
  have hr := segmentOf_spec hseg
  obtain ⟨halign, hend⟩ := hr.pages_le
  rw [hr.pageRange_eq, Set.mem_Ico, headerPages_of_segment hl hseg]
  constructor
  · rintro ⟨hlo, hhi⟩
    have ht : (x - seg.mapStart.toNat) / 4096 < seg.pages := by omega
    refine ⟨_, mem_pageRun.2 ⟨_, ht, rfl⟩, ?_⟩
    rw [segmentPage, hr.toNat_page ht]
    omega
  · rintro ⟨pg, hpg, hva⟩
    obtain ⟨t, ht, rfl⟩ := mem_pageRun.1 hpg
    rw [segmentPage, hr.toNat_page ht] at hva
    omega

/-- The pages of a header are pages below `2 ^ 48`. -/
theorem headerPages_aligned (hi : i < (headerAt m image.toNat).phnum.toNat) {pg : Mapping}
    (hpg : pg ∈ headerPages m image bias i) : pg.va.toNat % 4096 = 0 ∧ pg.va.toNat < 2 ^ 48 := by
  obtain ⟨hl, seg, hseg, t, ht, rfl⟩ := (mem_headerPages hi).1 hpg
  have hr := segmentOf_spec hseg
  obtain ⟨halign, hend⟩ := hr.pages_le
  have hmapEnd := hr.mapEnd
  have hupper := hr.upper
  rw [toNat_userLimit] at hupper
  rw [segmentPage, hr.toNat_page ht]
  omega

/-- A page of a header in slot 1 is a user page. -/
theorem headerPages_userPage (hl : Loadable m image i)
    (hlo : 2 ^ 39 ≤ bias.toNat + (programHeader m image i).virtualAddress.toNat)
    (hhi : bias.toNat + (programHeader m image i).virtualAddress.toNat +
      (programHeader m image i).memorySize.toNat ≤ 2 ^ 40) {pg : Mapping}
    (hpg : pg ∈ headerPages m image bias i) : UserPage pg.va := by
  obtain ⟨seg, hseg⟩ := segmentOf_of_inside hlo hhi hl.2.2
  have halign := (headerPages_aligned hl.1 hpg).1
  obtain ⟨h₁, h₂⟩ := (mem_pageRange (x := pg.va.toNat) hl hseg).2 ⟨pg, hpg, by omega⟩
  exact userPage_of_toNat halign (by omega) (by omega)

/-- The pages of one header are different pages. -/
theorem headerPages_pairwise (hi : i < (headerAt m image.toNat).phnum.toNat) :
    (headerPages m image bias i).Pairwise fun pg pg' => pathOf pg.va ≠ pathOf pg'.va := by
  by_cases hl : Loadable m image i
  · cases hseg : segmentOf bias (programHeader m image i) with
    | none =>
      rw [headerPages, if_neg (not_or.2 ⟨not_not.2 hl.2.1, hl.2.2⟩), hseg]
      exact List.Pairwise.nil
    | some seg =>
      have hr := segmentOf_spec hseg
      have hmapEnd := hr.mapEnd
      have hupper := hr.upper
      rw [toNat_userLimit] at hupper
      have hend := hr.pages_le.2
      rw [headerPages_of_segment hl hseg]
      -- from any page on, the pages that follow are at higher addresses
      suffices hrun : ∀ n (va : U64), va.toNat + 4096 * n ≤ seg.mapEnd.toNat →
          (pageRun (segmentPage m image (programHeader m image i) seg) n va).Pairwise
            fun pg pg' => pathOf pg.va ≠ pathOf pg'.va from hrun _ _ hend.le
      intro n
      induction n with
      | zero => exact fun _ _ => List.Pairwise.nil
      | succ n ih =>
        intro va hva
        have hnext : (va + 4096).toNat = va.toNat + 4096 := by bv_omega
        refine List.pairwise_cons.2 ⟨fun pg hpg heq => ?_, ih _ (by omega)⟩
        obtain ⟨t, ht, rfl⟩ := mem_pageRun.1 hpg
        have hpage : (va + 4096 + BitVec.ofNat 64 (4096 * t)).toNat =
            va.toNat + 4096 + 4096 * t := by
          rw [toNat_add_ofNat (by omega), hnext]
        have hsame : va.toNat / 4096 = (va + 4096 + BitVec.ofNat 64 (4096 * t)).toNat / 4096 :=
          (pathOf_eq_iff (by omega) (by omega)).1 heq
        omega
  · rw [headerPages_of_not_loadable hi hl]
    exact List.Pairwise.nil

end Ranges

/-! ### Acceptance -/

section Accept

variable {κ : Type*} {user : κ → Prop} {root : κ → Option ℕ} {k : κ} {σ σ' : Phys} {a a' : PageSets}
  {m : Mem} {pml4 image imageSize : U64}

/-- The pages of the image are different pages when those of different headers are. -/
theorem pairwise_imagePages :
    ((imagePages m image).Pairwise fun pg pg' => pathOf pg.va ≠ pathOf pg'.va) ↔
      ∀ i j, i < j → j < (headerAt m image.toNat).phnum.toNat →
        ∀ pg ∈ headerPages m image (loadBias m image) i,
          ∀ pg' ∈ headerPages m image (loadBias m image) j, pathOf pg.va ≠ pathOf pg'.va := by
  rw [imagePages, List.pairwise_flatMap, List.pairwise_iff_getElem, Nat.sub_zero]
  simp only [List.getElem_range', List.length_range', Nat.zero_add, Nat.one_mul]
  constructor
  · exact fun h i j hij hj => h.2 i j (by omega) hj hij
  · refine fun h => ⟨fun i hi => headerPages_pairwise ?_, fun i j _ hj hij => h i j hij hj⟩
    rw [List.mem_range'_1] at hi
    omega

/-- The test for the entry point, on a page address. -/
theorem entryInPage_iff {bias va : U64} (halign : va.toNat % 4096 = 0) (hlow : va.toNat < 2 ^ 48) :
    entryInPage m image bias va = true ↔
      va.toNat = (bias + (headerAt m image.toNat).entry).toNat / 4096 * 4096 := by
  have hnext : (va + 4096).toNat = va.toNat + 4096 := by bv_omega
  rw [entryInPage, decide_eq_true_iff, BitVec.le_def, BitVec.lt_def, hnext]
  omega

/-- The entry point is on a page of the image when it is in the range of a segment. -/
theorem any_entryInPage (hsegs : ∀ i, Loadable m image i →
      ∃ seg, segmentOf (loadBias m image) (programHeader m image i) = some seg) :
    ((imagePages m image).any fun pg => entryInPage m image (loadBias m image) pg.va) = true ↔
      ∃ i, Loadable m image i ∧ (loadBias m image + (headerAt m image.toNat).entry).toNat ∈
        pageRange (loadBias m image).toNat (programHeader m image i) := by
  rw [List.any_eq_true]
  constructor
  · rintro ⟨pg, hpg, hentry⟩
    obtain ⟨i, seg, t, hl, hseg, ht, rfl⟩ := mem_imagePages.1 hpg
    have hmem := (mem_headerPages hl.1).2 ⟨hl, seg, hseg, t, ht, rfl⟩
    obtain ⟨halign, hlow⟩ := headerPages_aligned hl.1 hmem
    exact ⟨i, hl, (mem_pageRange hl hseg).2 ⟨_, hmem, (entryInPage_iff halign hlow).1 hentry⟩⟩
  · rintro ⟨i, hl, hentry⟩
    obtain ⟨seg, hseg⟩ := hsegs i hl
    obtain ⟨pg, hpg, hva⟩ := (mem_pageRange hl hseg).1 hentry
    obtain ⟨halign, hlow⟩ := headerPages_aligned hl.1 hpg
    obtain ⟨-, seg', hseg', t, ht, hpg'⟩ := (mem_headerPages hl.1).1 hpg
    exact ⟨pg, mem_imagePages.2 ⟨i, seg', t, hl, hseg', ht, hpg'⟩,
      (entryInPage_iff halign hlow).2 hva⟩

/-- **What the loader has accepted can be placed.** -/
theorem elf64LoadImage_placed (h : Tables user root σ a) (hk : user k)
    (hroot : root k = some pml4.toNat) (hs : Sees user root k σ.mem image imageSize σ a) {e : U64}
    (hok : elf64LoadImage σ pml4 image imageSize = (some e, σ')) :
    elf64Validate σ.mem image imageSize = true ∧ Placed σ.mem image (loadBias σ.mem image) ∧
      e = loadBias σ.mem image + (headerAt σ.mem image.toNat).entry ∧ 0 ∉ a.free ∧
      FromFree user root k σ a σ' ∧ ∃ a', Maps user root k (imagePages σ.mem image) σ a σ' a' := by
  obtain ⟨he, ⟨⟨a', hmaps, -⟩, hsegs⟩⟩ := elf64LoadImage_maps h hk hroot hs hok
  have hsegs := fun i => hsegs i (Nat.zero_le i)
  obtain ⟨hvalid, hload, -⟩ := elf64LoadImage_some.1 hok
  obtain ⟨hfrom, hzero, hentry⟩ := (elf64Validate_spec hvalid).headers_ok h hk hroot hs
    (show 2 ^ 16 ≤ 2 ^ 16 + 0 from le_rfl) hload
  rw [Bool.false_or] at hentry
  have hentry := (any_entryInPage hsegs).1 hentry.symm
  have huser : ∀ {i pg}, Loadable σ.mem image i →
      pg ∈ headerPages σ.mem image (loadBias σ.mem image) i → UserPage pg.va := by
    intro i pg hl hpg
    obtain ⟨-, seg, hseg, t, ht, rfl⟩ := (mem_headerPages hl.1).1 hpg
    obtain ⟨frame, pt, hm⟩ := hmaps.mapped _ (mem_imagePages.2 ⟨i, seg, t, hl, hseg, ht, rfl⟩)
    exact hm.page
  refine ⟨hvalid, ⟨fun i hl => ?_, ?_, hentry⟩, he, hzero ?_, hfrom, a', hmaps⟩
  · obtain ⟨seg, hseg⟩ := hsegs i hl
    have hr := segmentOf_spec hseg
    obtain ⟨halign, hend⟩ := hr.pages_le
    have hstart := hr.start
    have hstop := hr.stop
    have hmapStart := hr.mapStart
    have hmapEnd := hr.mapEnd
    have hne := hr.nonempty
    have hlower := hr.lower
    have hbase : userBase.toNat = 2 ^ 39 := rfl
    -- the last page is a user page
    obtain ⟨pg, hpg, hva⟩ := (mem_pageRange (x := seg.mapEnd.toNat - 1) hl hseg).1 (by
      rw [hr.pageRange_eq, Set.mem_Ico]
      omega)
    have hlast := toNat_of_userPage (huser hl hpg)
    omega
  · -- a common address would be on a page that was mapped twice
    have hpairs := pairwise_imagePages.1 hmaps.distinct
    have hdisjoint : ∀ i j, Loadable σ.mem image i → Loadable σ.mem image j → i < j →
        Disjoint (pageRange (loadBias σ.mem image).toNat (programHeader σ.mem image i))
          (pageRange (loadBias σ.mem image).toNat (programHeader σ.mem image j)) := by
      intro i j hi hj hij
      refine Set.disjoint_left.2 fun x hx hx' => ?_
      obtain ⟨seg, hseg⟩ := hsegs i hi
      obtain ⟨seg', hseg'⟩ := hsegs j hj
      obtain ⟨pg, hpg, hva⟩ := (mem_pageRange hi hseg).1 hx
      obtain ⟨pg', hpg', hva'⟩ := (mem_pageRange hj hseg').1 hx'
      refine hpairs i j hij hj.1 pg hpg pg' hpg' ?_
      rw [BitVec.eq_of_toNat_eq (hva.trans hva'.symm)]
    intro i j hi hj hij
    rcases Nat.lt_or_gt_of_ne hij with hlt | hgt
    · exact hdisjoint i j hi hj hlt
    · exact (hdisjoint j i hj hi hgt).symm
  · obtain ⟨i, hl, hx⟩ := hentry
    obtain ⟨seg, hseg⟩ := hsegs i hl
    obtain ⟨pg, hpg, -⟩ := (mem_pageRange hl hseg).1 hx
    obtain ⟨-, seg', hseg', t, ht, hpg'⟩ := (mem_headerPages hl.1).1 hpg
    exact List.ne_nil_of_mem (mem_imagePages.2 ⟨i, seg', t, hl, hseg', ht, hpg'⟩)

/-- The loader is called on a fresh address space, and no byte of the image lies in a frame that
the allocator may hand out, or in the PML4. -/
structure FreshLoad (σ : Phys) (pml4 image imageSize : U64) : Prop where
  pmm : PmmReached σ.pmm
  fresh : FreshTable σ pml4
  nonzero : pml4 ≠ 0
  apart : ∀ x, InImage image imageSize x →
    x / 4096 ∉ freeSet bootstrapLimit σ.pmm ∧ x / 4096 ≠ pml4.toNat / 4096

/-- A fresh address space, with its PML4 as all that it owns. -/
theorem FreshLoad.sees (hf : FreshLoad σ pml4 image imageSize) :
    ∃ a, Tables single (singleRoot pml4) σ a ∧ a.free = freeSet bootstrapLimit σ.pmm ∧
      (∀ {k p f}, Owns single σ.mem (singleRoot pml4) k p f → p = [] ∧ f = pml4.toNat) ∧
      Sees single (singleRoot pml4) () σ.mem image imageSize σ a := by
  obtain ⟨a, hr⟩ := hf.pmm.refines
  obtain ⟨htables, hself⟩ := hf.fresh.tables hr
  refine ⟨a, htables, hr.freeSet_eq.symm, hself, fun _ _ => rfl, fun x hx =>
    ⟨?_, fun p f ho _ => ?_⟩⟩
  · rw [← hr.freeSet_eq]
    exact (hf.apart x hx).1
  · rw [(hself ho).2]
    exact (hf.apart x hx).2

/-- There is room for an image that can be placed, if there are enough frames. -/
theorem FreshLoad.room (hf : FreshLoad σ pml4 image imageSize)
    (hplaced : Placed σ.mem image (loadBias σ.mem image))
    (hself : ∀ {k p f}, Owns single σ.mem (singleRoot pml4) k p f → p = [] ∧ f = pml4.toNat)
    (hzero : 0 ∉ a.free) (henough : (framePaths (imagePages σ.mem image)).card ≤ a.free.card) :
    Room single (singleRoot pml4) () σ a (imagePages σ.mem image) where
  zero := hzero
  nonzero ho := by
    rw [(hself ho).2]
    exact fun h0 => hf.nonzero (BitVec.eq_of_toNat_eq h0)
  page pg hpg := by
    obtain ⟨i, seg, t, hl, hseg, ht, rfl⟩ := mem_imagePages.1 hpg
    obtain ⟨hlo, hhi⟩ := hplaced.inside i hl
    exact headerPages_userPage hl hlo hhi ((mem_headerPages hl.1).2 ⟨hl, seg, hseg, t, ht, rfl⟩)
  fresh pg _ f ho := absurd (hself ho).1 (by simp [pathOf])
  distinct := by
    refine pairwise_imagePages.2 fun i j hij hj pg hpg pg' hpg' heq => ?_
    have hi := hij.trans hj
    obtain ⟨hl, seg, hseg, -⟩ := (mem_headerPages hi).1 hpg
    obtain ⟨hl', seg', hseg', -⟩ := (mem_headerPages hj).1 hpg'
    obtain ⟨halign, hlow⟩ := headerPages_aligned hi hpg
    obtain ⟨halign', hlow'⟩ := headerPages_aligned hj hpg'
    have hsame := (pathOf_eq_iff hlow hlow').1 heq
    refine Set.disjoint_left.1 (hplaced.disjoint i j hl hl' hij.ne)
      ((mem_pageRange (x := pg.va.toNat) hl hseg).2 ⟨pg, hpg, by omega⟩)
      ((mem_pageRange hl' hseg').2 ⟨pg', hpg', by omega⟩)
  enough := by
    refine le_trans (Finset.card_le_card fun p hp => ?_) henough
    exact (mem_missing.1 hp).1

end Accept

section Sample

variable {bytes : List U8} (hlen : bytes.length ≤ 4096)
include hlen

/-- The machine after `process_create(1)` is one to load an image on. -/
theorem imagePhys_freshLoad {imageSize : U64} (hsize : imageSize.toNat ≤ 4096) :
    FreshLoad (imagePhys bytes) 0x200000 0x100000 imageSize where
  pmm := ⟨⟨0, 0, 0, 0, 0⟩, .init 0 0x10000000, [.reserveRange 0 0x200000, .allocPage], rfl⟩
  fresh := imagePhys_fresh hlen
  nonzero := by decide
  apart x hx := by
    obtain ⟨hfree, hne⟩ := imageProcess_apart hlen hsize x hx
    exact ⟨hfree, hne (show (0x200000 : U64) ≠ 0 by decide)⟩

end Sample

section Dyn

variable {m : Mem} {image imageSize pml4 : U64} {σ : Phys}

/-- The load bias of an `ET_DYN` image takes the page of the entry point to `SB_USER_BASE`; above
that it wraps around. -/
theorem toNat_loadBias_dyn (hdyn : (headerAt m image.toNat).type = elfTypeDyn) :
    (loadBias m image).toNat + (headerAt m image.toNat).entry.toNat / 4096 * 4096 = 2 ^ 39 ∨
      2 ^ 39 < (headerAt m image.toNat).entry.toNat / 4096 * 4096 ∧
        (loadBias m image).toNat + (headerAt m image.toNat).entry.toNat / 4096 * 4096 =
          2 ^ 64 + 2 ^ 39 := by
  have halign := toNat_alignDown (headerAt m image.toNat).entry
  have hbase : userBase.toNat = 2 ^ 39 := rfl
  rw [loadBias, hdyn, if_pos rfl, BitVec.toNat_sub, halign, hbase]
  have := (headerAt m image.toNat).entry.isLt
  omega

end Dyn

/-- A number in `n` bytes, the lowest first. -/
def leBytes (n x : ℕ) : List U8 := (List.range n).map fun i => BitVec.ofNat 8 (x / 256 ^ i)

end SuiraBox.Exec
