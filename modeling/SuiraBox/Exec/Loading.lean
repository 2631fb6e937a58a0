/-
# Loading preserves the program

What a process finds in its address space after `process_prepare_elf` has
returned 0: the bytes of every segment at their virtual addresses, zeros in the
rest of the segment's pages, a zeroed stack, and nothing else.  The address
space is fresh before, and no frame that the allocator may hand out holds a byte
of the image.

`Maps` has the pages as a list; here they are read back through
`address_space_translate_user`.
-/

import SuiraBox.Exec.Image
import SuiraBox.Exec.Isolation

namespace SuiraBox.Exec

open ByteMem Forest Mm

/-! ### The stack -/

/-- A cleared page, writable and not executable. -/
def stackPage (va : U64) : Mapping := ⟨va, vmmWritable ||| vmmNx, fun _ => 0⟩

section Stack

variable {κ : Type*} {user : κ → Prop} {root : κ → Option ℕ} {k : κ} {σ σ' : Phys} {a : PageSets}
  {pml4 : U64}

variable (h : Tables user root σ a) (hk : user k) (hroot : root k = some pml4.toNat)

include h hk hroot

/-- One round of the stack loop. -/
theorem stackPage_cases (va : U64) :
    (∃ σ', mapFreshPage (fun m _ => some m) pml4 va (vmmWritable ||| vmmNx) σ = .error σ' ∧
      (0 ∈ a.reserved → 4 ≤ a.free.card → UserPage va →
        ∃ f, Owns user σ.mem root k (pathOf va) f)) ∨
    ∃ σ' a', mapFreshPage (fun m _ => some m) pml4 va (vmmWritable ||| vmmNx) σ = .ok σ' ∧
      Maps user root k (pageRun stackPage 1 va) σ a σ' a' ∧ a.free.card ≤ a'.free.card + 4 := by
  rcases mapFreshPage_spec h hk hroot va (vmmWritable ||| vmmNx) clear_inside with
    ⟨σ', a', heq, -, -, hroom, -⟩ | ⟨σ', a', page, m', heq, halign, -, hfill, hmaps, hcard, -⟩
  · exact Or.inl ⟨σ', heq, fun hres hfour hva => hroom hres hfour hva (by simp [Fills])⟩
  · obtain rfl := Option.some.inj hfill
    refine Or.inr ⟨σ', a', heq, hmaps.congr_bytes fun j hj => ?_, hcard⟩
    rw [zeroBytes_page halign, if_pos (by omega)]

theorem stackPages_maps {n : ℕ} {va : U64} (hok : stackPages pml4 n va σ = .ok σ') :
    ∃ a', Maps user root k (pageRun stackPage n va) σ a σ' a' := by
  induction n generalizing σ a va with
  | zero =>
    obtain rfl := Except.ok.inj hok
    exact ⟨a, Maps.nil h⟩
  | succ n ih =>
    rw [stackPages] at hok
    rcases stackPage_cases h hk hroot va with ⟨σ₁, heq, -⟩ | ⟨σ₁, a₁, heq, hmaps, -⟩
    · rw [heq] at hok
      exact absurd hok (by simp)
    · rw [heq] at hok
      obtain ⟨a', hmaps'⟩ := ih hmaps.tables hok
      exact ⟨a', hmaps.append hmaps'⟩

/-- Four pages to take for every page of the stack, and none of them mapped: the
stack loop does not fail. -/
theorem stackPages_total {n : ℕ} {va : U64} (hres : 0 ∈ a.reserved) (hroom : 4 * n ≤ a.free.card)
    (halign : va.toNat % 4096 = 0) (hlo : 2 ^ 39 ≤ va.toNat) (hhi : va.toNat + 4096 * n ≤ 2 ^ 40)
    (hno : ∀ v : U64, va.toNat ≤ v.toNat → v.toNat < va.toNat + 4096 * n →
      ∀ f, ¬ Owns user σ.mem root k (pathOf v) f) : ∃ σ', stackPages pml4 n va σ = .ok σ' := by
  induction n generalizing σ a va with
  | zero => exact ⟨σ, rfl⟩
  | succ n ih =>
    have hnext : (va + 4096).toNat = va.toNat + 4096 := by bv_omega
    have hva := userPage_of_toNat halign hlo (by omega)
    rw [stackPages]
    rcases stackPage_cases h hk hroot va with ⟨σ₁, -, hfail⟩ | ⟨σ₁, a₁, heq, hmaps, hcard⟩
    · obtain ⟨f, hf⟩ := hfail hres (by omega) hva
      exact absurd hf (hno va le_rfl (by omega) f)
    · rw [heq]
      have hres₁ : 0 ∈ a₁.reserved := by rw [hmaps.grows.reserved]; exact hres
      have hrest : ∀ v : U64, (va + 4096).toNat ≤ v.toNat → v.toNat < (va + 4096).toNat + 4096 * n →
          ∀ f, ¬ Owns user σ₁.mem root k (pathOf v) f := by
        rw [hnext]
        intro v hv hv'
        refine hmaps.not_mapped (hno v (by omega) (by omega)) fun pg hpg hpath => ?_
        obtain rfl := List.mem_singleton.1 hpg
        have hsame : v.toNat / 4096 = va.toNat / 4096 :=
          (pathOf_eq_iff (by omega) (by omega)).1 hpath
        omega
      refine ih hmaps.tables hres₁ (by omega) ?_ ?_ ?_ hrest
      · rw [hnext]
        omega
      · rw [hnext]
        exact Nat.le_add_right_of_le hlo
      · rw [hnext]
        omega

end Stack

/-! ### Pages by their addresses -/

/-- An address, `n` bytes on. -/
theorem toNat_add_ofNat {va : U64} {n : ℕ} (h : va.toNat + n < 2 ^ 64) :
    (va + BitVec.ofNat 64 n).toNat = va.toNat + n := by bv_omega

/-- The leaf entry that `address_space_translate_user` comes to. -/
def userLeaf (m : Mem) (pml4 va : U64) : Option U64 :=
  (walk (nextUser m) pml4.toNat (tablePathOf va)).map fun pt => slot m pt (ptIndex va)

/-- The leaf entry for `va` is a user entry, writable and not executable as
said. -/
def LeafIs (m : Mem) (pml4 va : U64) (writable nx : Bool) : Prop :=
  ∃ e, userLeaf m pml4 va = some e ∧ e.getLsbD 2 = true ∧ e.getLsbD 1 = writable ∧ e.getLsbD 63 = nx

section Translate

variable {κ : Type*} {user : κ → Prop} {root : κ → Option ℕ} {k : κ} {σ σ' : Phys} {a a' : PageSets}
  {pml4 va : U64} {pg : Mapping}

theorem toNat_userLimit : userLimit.toNat = 2 ^ 47 := rfl

/-- What a mapped page gives at an address in it. -/
theorem Mapped.translate {frame : U64} {pt : ℕ} (hm : Mapped user root k σ pg frame pt)
    (h : Tables user root σ a) (hk : user k) (hroot : root k = some pml4.toNat)
    (hva : va.toNat / 4096 = pg.va.toNat / 4096) :
    (∃ pa, addressSpaceTranslateUser σ.mem pml4 va = some pa ∧
      σ.mem pa.toNat = pg.bytes (va.toNat % 4096)) ∧
    LeafIs σ.mem pml4 va (pg.flags.getLsbD 1) (pg.flags.getLsbD 63) := by
  have halign := h.aligned hm.owns
  have hlt : _ < 65536 := h.refines.allocated_lt (h.allocated hm.owns)
  have hbelow := hm.page.below
  rw [BitVec.lt_def, toNat_userLimit] at hbelow
  have hlow : va.toNat < 2 ^ 47 := by omega
  have hpath : pathOf va = pathOf pg.va := (pathOf_eq_iff (by omega) (by omega)).2 hva
  obtain ⟨hindex, htable, hlast⟩ : pml4Index va = pml4Index pg.va ∧
      tablePathOf va = tablePathOf pg.va ∧ ptIndex va = ptIndex pg.va := by
    simp only [pathOf, List.cons.injEq, and_true] at hpath
    simp only [tablePathOf, List.cons.injEq, and_true]
    exact ⟨hpath.1, ⟨hpath.1, hpath.2.1, hpath.2.2.1⟩, hpath.2.2.2⟩
  obtain ⟨-, -, huser, hwritable, hnx⟩ := leafEntry_spec pg.flags halign (by omega)
  constructor
  · refine ⟨BitVec.ofNat 64 (frame.toNat + va.toNat % 4096),
      (addressSpaceTranslateUser_iff h hk hroot va _).2 ⟨hindex.trans hm.page.index, ?_,
        frame.toNat, ?_, rfl⟩, ?_⟩
    · rw [BitVec.lt_def, toNat_userLimit]
      exact hlow
    · rw [hpath]
      exact hm.owns
    · rw [BitVec.toNat_ofNat, Nat.mod_eq_of_lt (by omega)]
      exact hm.bytes _ (by omega)
  · refine ⟨leafEntry frame pg.flags, ?_, huser, hwritable, hnx⟩
    obtain ⟨-, r, hr, hwalk⟩ := (h.owned_nextUser _ _).2 hm.table
    obtain rfl := Option.some.inj (hroot.symm.trans hr)
    rw [userLeaf, htable, hwalk, Option.map_some, hlast, hm.leaf]

/-- What translates is a page that was mapped, in an address space that had no
page. -/
theorem Maps.translate_mem {pages : List Mapping} (hmaps : Maps user root k pages σ a σ' a')
    (hk : user k) (hroot : root k = some pml4.toNat)
    (hempty : ∀ {p f}, Owns user σ.mem root k p f → p = []) {pa : U64}
    (hva : addressSpaceTranslateUser σ'.mem pml4 va = some pa) :
    ∃ pg ∈ pages, va.toNat / 4096 = pg.va.toNat / 4096 ∧
      σ'.mem pa.toNat = pg.bytes (va.toNat % 4096) := by
  obtain ⟨-, hlow, f, ho, -⟩ := (addressSpaceTranslateUser_iff hmaps.tables hk hroot va pa).1 hva
  rw [BitVec.lt_def, toNat_userLimit] at hlow
  rcases hmaps.grows.fresh ho with hold | ⟨hshort, -⟩ | ⟨-, pg, hpg, hpath⟩
  · exact absurd (hempty hold) (by simp [pathOf])
  · exact absurd hshort (by simp [pathOf])
  · obtain ⟨frame, pt, hm⟩ := hmaps.mapped pg hpg
    have hbelow := hm.page.below
    rw [BitVec.lt_def, toNat_userLimit] at hbelow
    have hsame := (pathOf_eq_iff (by omega) (by omega)).1 hpath
    obtain ⟨⟨pa', hpa', hbyte⟩, -⟩ := hm.translate hmaps.tables hk hroot hsame
    obtain rfl := Option.some.inj (hva.symm.trans hpa')
    exact ⟨pg, hpg, hsame, hbyte⟩

end Translate

/-- The bits of a segment's flags. -/
theorem segmentFlags_bits (ph : Elf64ProgramHeader) :
    (segmentFlags ph).getLsbD 1 = decide (ph.flags &&& pfW ≠ 0) ∧
      (segmentFlags ph).getLsbD 63 = decide (ph.flags &&& pfX = 0) := by
  unfold segmentFlags
  dsimp only
  split_ifs with hw hx hx
  · rw [decide_eq_true hw, decide_eq_true hx]
    decide
  · rw [decide_eq_true hw, decide_eq_false hx]
    decide
  · rw [decide_eq_false hw, decide_eq_true hx]
    decide
  · rw [decide_eq_false hw, decide_eq_false hx]
    decide

/-! ### The loaded program -/

/-- The virtual address of byte `k` of segment `n`. -/
def segmentAddress (m : Mem) (image : U64) (n k : ℕ) : U64 :=
  loadBias m image + (programHeader m image n).virtualAddress + BitVec.ofNat 64 k

/-- The program of the image, as `m` has it, in the address space `pml4` of
memory `m'`. -/
structure ProgramLoaded (m : Mem) (image : U64) (m' : Mem) (pml4 : U64) : Prop where
  segments : ∀ n, Loadable m image n → ∀ k < (programHeader m image n).memorySize.toNat,
    (∃ pa, addressSpaceTranslateUser m' pml4 (segmentAddress m image n k) = some pa ∧
      m' pa.toNat = if k < (programHeader m image n).fileSize.toNat then
        m (image.toNat + (programHeader m image n).offset.toNat + k) else 0) ∧
    LeafIs m' pml4 (segmentAddress m image n k)
    (decide ((programHeader m image n).flags &&& pfW ≠ 0))
      (decide ((programHeader m image n).flags &&& pfX = 0))
  zeros : ∀ va pa, addressSpaceTranslateUser m' pml4 va = some pa →
    (∀ n, Loadable m image n → ∀ k < (programHeader m image n).fileSize.toNat,
      va ≠ segmentAddress m image n k) → m' pa.toNat = 0
  stack : ∀ va, userStackBottom ≤ va → va < userStackTop →
    (∃ pa, addressSpaceTranslateUser m' pml4 va = some pa ∧ m' pa.toNat = 0) ∧
    LeafIs m' pml4 va true true ∧
    ∀ n, Loadable m image n → ∀ k < (programHeader m image n).memorySize.toNat,
      va.toNat / 4096 ≠ (segmentAddress m image n k).toNat / 4096
  nothing : ∀ va pa, addressSpaceTranslateUser m' pml4 va = some pa →
    (userStackBottom ≤ va ∧ va < userStackTop) ∨
    ∃ n, Loadable m image n ∧ ∃ k < (programHeader m image n).memorySize.toNat,
      va.toNat / 4096 = (segmentAddress m image n k).toNat / 4096

section Addresses

variable {m : Mem} {image bias : U64} {n k : ℕ} {seg : Segment} {header : Elf64ProgramHeader}

theorem SegmentOf.virtualStart_eq (hr : SegmentOf bias header seg) :
    bias + header.virtualAddress = seg.virtualStart := by
  have := hr.start
  bv_omega

theorem SegmentOf.toNat_address (hr : SegmentOf bias header seg)
    (hk : k < header.memorySize.toNat) :
    (bias + header.virtualAddress + BitVec.ofNat 64 k).toNat = seg.virtualStart.toNat + k := by
  have h₂ := hr.stop
  have h₃ := hr.upper
  rw [toNat_userLimit] at h₃
  rw [hr.virtualStart_eq, toNat_add_ofNat (by omega)]

/-- Page `t` of a segment. -/
theorem SegmentOf.toNat_page (hr : SegmentOf bias header seg) {t : ℕ} (ht : t < seg.pages) :
    (seg.mapStart + BitVec.ofNat 64 (4096 * t)).toNat = seg.mapStart.toNat + 4096 * t := by
  have h₁ := hr.pages_le
  have h₂ := hr.mapEnd
  have h₃ := hr.upper
  rw [toNat_userLimit] at h₃
  exact toNat_add_ofNat (by omega)

/-- Every byte of a segment lies in one of its pages. -/
theorem SegmentOf.exists_page (hr : SegmentOf bias header seg) (hk : k < header.memorySize.toNat) :
    ∃ t < seg.pages, (seg.virtualStart.toNat + k) / 4096 * 4096 =
      seg.mapStart.toNat + 4096 * t := by
  have h₁ := hr.pages_le
  have h₂ := hr.mapStart
  have h₃ := hr.mapEnd
  have h₄ := hr.stop
  exact ⟨(seg.virtualStart.toNat + k) / 4096 - seg.mapStart.toNat / 4096, by omega, by omega⟩

/-- Every page of a segment holds one of its bytes. -/
theorem SegmentOf.exists_byte (hr : SegmentOf bias header seg) {t : ℕ} (ht : t < seg.pages) :
    ∃ k < header.memorySize.toNat,
      (seg.virtualStart.toNat + k) / 4096 * 4096 = seg.mapStart.toNat + 4096 * t := by
  have h₁ := hr.pages_le
  have h₂ := hr.mapStart
  have h₃ := hr.mapEnd
  have h₄ := hr.stop
  have h₅ := hr.nonempty
  refine ⟨seg.mapStart.toNat + 4096 * t - seg.virtualStart.toNat, by omega, by omega⟩

/-- The byte of a segment's page at an address in it. -/
theorem segmentPage_bytes {va page : U64} (halign : page.toNat % 4096 = 0)
    (hpage : va.toNat / 4096 = page.toNat / 4096) :
    (segmentPage m image header seg page).bytes (va.toNat % 4096) =
      segmentByte m image header seg va.toNat := by
  have hsame : page.toNat + va.toNat % 4096 = va.toNat := by omega
  exact congrArg (segmentByte m image header seg) hsame

end Addresses

section Program

variable {κ : Type*} {user : κ → Prop} {root : κ → Option ℕ} {k : κ} {σ σ' : Phys} {a a' : PageSets}
  {m : Mem} {image pml4 : U64} {n : ℕ} {seg : Segment}

/-- The pages of the segments. -/
def imagePages (m : Mem) (image : U64) : List Mapping :=
  (List.range' 0 ((headerAt m image.toNat).phnum.toNat - 0)).flatMap
    (headerPages m image (loadBias m image))

theorem mem_imagePages {pg : Mapping} : pg ∈ imagePages m image ↔
    ∃ n seg t, Loadable m image n ∧ segmentOf (loadBias m image)
      (programHeader m image n) = some seg ∧
      t < seg.pages ∧ pg = segmentPage m image (programHeader m image n) seg
        (seg.mapStart + BitVec.ofNat 64 (4096 * t)) := by
  rw [imagePages, List.mem_flatMap]
  constructor
  · rintro ⟨n, hn, hpg⟩
    rw [List.mem_range'_1] at hn
    obtain ⟨hl, seg, hseg, t, ht, rfl⟩ := (mem_headerPages (by omega)).1 hpg
    exact ⟨n, seg, t, hl, hseg, ht, rfl⟩
  · rintro ⟨n, seg, t, hl, hseg, ht, rfl⟩
    refine ⟨n, ?_, (mem_headerPages hl.1).2 ⟨hl, seg, hseg, t, ht, rfl⟩⟩
    have := hl.1
    rw [List.mem_range'_1]
    omega

/-- The pages of the segments, then those of the stack. -/
def programPages (m : Mem) (image : U64) : List Mapping :=
  imagePages m image ++ pageRun stackPage 4 userStackBottom

theorem mem_programPages {pg : Mapping} : pg ∈ programPages m image ↔
    pg ∈ imagePages m image ∨
      ∃ t < 4, pg = stackPage (userStackBottom + BitVec.ofNat 64 (4096 * t)) := by
  rw [programPages, List.mem_append, mem_pageRun]

theorem toNat_userStackBottom : userStackBottom.toNat = 0x80000FC000 := rfl

theorem toNat_userStackTop : userStackTop.toNat = 0x8000100000 := rfl

theorem toNat_stackPage {t : ℕ} (ht : t < 4) :
    (userStackBottom + BitVec.ofNat 64 (4096 * t)).toNat = 0x80000FC000 + 4096 * t := by
  rw [toNat_add_ofNat (by rw [toNat_userStackBottom]; omega), toNat_userStackBottom]

/-- A byte of a segment, through the page it lies in. -/
theorem Maps.segment_byte {pages : List Mapping} (hmaps : Maps user root k pages σ a σ' a')
    (himage : ∀ pg ∈ imagePages m image, pg ∈ pages) (hk : user k)
    (hroot : root k = some pml4.toNat) (hl : Loadable m image n)
    (hseg : segmentOf (loadBias m image) (programHeader m image n) = some seg) {j : ℕ}
    (hj : j < (programHeader m image n).memorySize.toNat) :
    (∃ pa, addressSpaceTranslateUser σ'.mem pml4 (segmentAddress m image n j) = some pa ∧
      σ'.mem pa.toNat = if j < (programHeader m image n).fileSize.toNat then
        m (image.toNat + (programHeader m image n).offset.toNat + j) else 0) ∧
    LeafIs σ'.mem pml4 (segmentAddress m image n j)
      (decide ((programHeader m image n).flags &&& pfW ≠ 0))
      (decide ((programHeader m image n).flags &&& pfX = 0)) := by
  have hr := segmentOf_spec hseg
  obtain ⟨t, ht, hpage⟩ := hr.exists_page hj
  have hva : (segmentAddress m image n j).toNat = seg.virtualStart.toNat + j := hr.toNat_address hj
  have hpg := hr.toNat_page ht
  obtain ⟨frame, pt, hm⟩ :=
    hmaps.mapped _ (himage _ (mem_imagePages.2 ⟨n, seg, t, hl, hseg, ht, rfl⟩))
  have hsame : (segmentAddress m image n j).toNat / 4096 =
      (seg.mapStart + BitVec.ofNat 64 (4096 * t)).toNat / 4096 := by
    rw [hpg, hva]
    omega
  obtain ⟨⟨pa, hpa, hbyte⟩, hleaf⟩ := hm.translate hmaps.tables hk hroot hsame
  refine ⟨⟨pa, hpa, hbyte.trans ?_⟩, ?_⟩
  · have halign := hr.pages_le.1
    rw [segmentPage_bytes (by rw [hpg]; omega) hsame, hva, segmentByte]
    refine if_congr (by omega) ?_ rfl
    rw [Nat.add_sub_cancel_left]
  · obtain ⟨hw, hx⟩ := segmentFlags_bits (programHeader m image n)
    rwa [segmentPage, hr.flags, hw, hx] at hleaf

/-- No segment reaches into a page of the stack: the stack is mapped last, and a
page that is mapped already would have stopped it. -/
theorem Maps.stack_apart (hmaps : Maps user root k (programPages m image) σ a σ' a')
    (hl : Loadable m image n)
    (hseg : segmentOf (loadBias m image) (programHeader m image n) = some seg) {j t : ℕ}
    (hj : j < (programHeader m image n).memorySize.toNat) (ht : t < 4) :
    (userStackBottom + BitVec.ofNat 64 (4096 * t)).toNat / 4096 ≠
      (segmentAddress m image n j).toNat / 4096 := by
  intro hmeet
  have hr := segmentOf_spec hseg
  obtain ⟨t', ht', hpage⟩ := hr.exists_page hj
  have hva : (segmentAddress m image n j).toNat = seg.virtualStart.toNat + j := hr.toNat_address hj
  have hpg := hr.toNat_page ht'
  have hend := hr.mapEnd
  have hpages := hr.pages_le
  have hupper := hr.upper
  have hstack := toNat_stackPage ht
  rw [toNat_userLimit] at hupper
  refine (List.pairwise_append.1 hmaps.distinct).2.2 _ (mem_imagePages.2 ⟨n, seg, t', hl, hseg,
    ht', rfl⟩)
    _ (mem_pageRun.2 ⟨t, ht, rfl⟩) ((pathOf_eq_iff ?_ ?_).2 ?_)
  · rw [segmentPage, hpg]
    omega
  · rw [stackPage, hstack]
    omega
  · rw [segmentPage, stackPage, hpg, hmeet, hva]
    omega

/-- **The pages are the program.**  An address space that had no page and has
grown by the pages of the segments and of the stack holds the program. -/
theorem Maps.programLoaded (hmaps : Maps user root k (programPages m image) σ a σ' a') (hk : user k)
    (hroot : root k = some pml4.toNat) (hempty : ∀ {p f}, Owns user σ.mem root k p f → p = [])
    (hsegs : ∀ n, Loadable m image n →
      ∃ seg, segmentOf (loadBias m image) (programHeader m image n) = some seg) :
    ProgramLoaded m image σ'.mem pml4 := by
  refine ⟨fun n hl j hj => ?_, fun va pa hva hno => ?_, fun va hlo hhi => ?_, fun va pa hva => ?_⟩
  · obtain ⟨seg, hseg⟩ := hsegs n hl
    exact hmaps.segment_byte (fun pg hpg => mem_programPages.2 (Or.inl hpg)) hk hroot hl hseg hj
  · obtain ⟨pg, hpg, hpage, hbyte⟩ := hmaps.translate_mem hk hroot hempty hva
    rcases mem_programPages.1 hpg with himage | ⟨t, ht, rfl⟩
    · obtain ⟨n, seg, t, hl, hseg, ht, rfl⟩ := mem_imagePages.1 himage
      have hr := segmentOf_spec hseg
      have hpgva := hr.toNat_page ht
      have halign := hr.pages_le.1
      have hpage' : va.toNat / 4096 = (seg.mapStart + BitVec.ofNat 64 (4096 * t)).toNat / 4096 :=
        hpage
      rw [hbyte, segmentPage_bytes (by rw [hpgva]; omega) hpage', segmentByte, if_neg]
      rintro ⟨h₁, h₂⟩
      have hlt := va.isLt
      refine hno n hl (va.toNat - seg.virtualStart.toNat) (by omega) (BitVec.eq_of_toNat_eq ?_)
      rw [segmentAddress, hr.virtualStart_eq, toNat_add_ofNat (by omega)]
      omega
    · exact hbyte
  · rw [BitVec.le_def, toNat_userStackBottom] at hlo
    rw [BitVec.lt_def, toNat_userStackTop] at hhi
    obtain ⟨t, ht, hpage⟩ : ∃ t < 4, va.toNat / 4096 = (0x80000FC000 + 4096 * t) / 4096 :=
      ⟨(va.toNat - 0x80000FC000) / 4096, by omega, by omega⟩
    rw [← toNat_stackPage ht] at hpage
    obtain ⟨frame, pt, hm⟩ := hmaps.mapped _ (mem_programPages.2 (Or.inr ⟨t, ht, rfl⟩))
    obtain ⟨hbyte, hleaf⟩ := hm.translate hmaps.tables hk hroot hpage
    have hflags : (vmmWritable ||| vmmNx).getLsbD 1 = true ∧
        (vmmWritable ||| vmmNx).getLsbD 63 = true := by
      decide
    rw [stackPage, hflags.1, hflags.2] at hleaf
    refine ⟨hbyte, hleaf, fun n hl j hj hmeet => ?_⟩
    obtain ⟨seg, hseg⟩ := hsegs n hl
    exact hmaps.stack_apart hl hseg hj ht (hpage.symm.trans hmeet)
  · obtain ⟨pg, hpg, hpage, -⟩ := hmaps.translate_mem hk hroot hempty hva
    rcases mem_programPages.1 hpg with himage | ⟨t, ht, rfl⟩
    · obtain ⟨n, seg, t, hl, hseg, ht, rfl⟩ := mem_imagePages.1 himage
      have hr := segmentOf_spec hseg
      obtain ⟨j, hj, hbyte⟩ := hr.exists_byte ht
      refine Or.inr ⟨n, hl, j, hj, hpage.trans ?_⟩
      rw [segmentAddress, hr.toNat_address hj, segmentPage, hr.toNat_page ht]
      omega
    · rw [stackPage, toNat_stackPage ht] at hpage
      refine Or.inl ⟨?_, ?_⟩
      · rw [BitVec.le_def, toNat_userStackBottom]
        omega
      · rw [BitVec.lt_def, toNat_userStackTop]
        omega

end Program

/-! ### `process_prepare_elf` -/

/-- The process has no address space yet, or a fresh one. -/
def FreshSpace (K : Kernel) (i : Slot) : Prop :=
  (K.processes i).pml4Physical = 0 ∨ FreshTable K.phys (K.processes i).pml4Physical

/-- No byte of the image lies in a frame that the allocator may hand out, or in
the PML4. -/
def ImageApart (K : Kernel) (i : Slot) (image imageSize : U64) : Prop :=
  ∀ x, InImage image imageSize x → x / 4096 ∉ freeSet bootstrapLimit K.phys.pmm ∧
    ((K.processes i).pml4Physical ≠ 0 → x / 4096 ≠ (K.processes i).pml4Physical.toNat / 4096)

section Prepare

variable {K : Kernel} {i : Slot} {image imageSize : U64}

/-- After the first part of `process_prepare_elf` the process has a fresh
address space, and the image is as it was. -/
theorem prepareSpace_fresh (hpmm : PmmReached K.phys.pmm) (hfresh : FreshSpace K i)
    (hapart : ImageApart K i image imageSize) (hok : (prepareSpace K i).1 = true) :
    let K₁ := (prepareSpace K i).2
    let pml4 := (K₁.processes i).pml4Physical
    FreshTable K₁.phys pml4 ∧ ∃ a, Refines bootstrapLimit K₁.phys.pmm a ∧
      Sees single (singleRoot pml4) () K.phys.mem image imageSize K₁.phys a := by
  obtain ⟨a, hr⟩ := hpmm.refines
  -- with a fresh table, only its own page is to be looked at
  have hsees : ∀ σ {pml4 a₁}, FreshTable σ pml4 → Refines bootstrapLimit σ.pmm a₁ →
      (∀ x, InImage image imageSize x → σ.mem x = K.phys.mem x ∧ x / 4096 ∉ a₁.free ∧
        x / 4096 ≠ pml4.toNat / 4096) →
      Sees single (singleRoot pml4) () K.phys.mem image imageSize σ a₁ := by
    intro σ pml4 a₁ hf hr₁ hx
    refine ⟨fun x hxi => (hx x hxi).1, fun x hxi => ⟨(hx x hxi).2.1, fun p f ho _ => ?_⟩⟩
    rw [((hf.tables hr₁).2 ho).2]
    exact (hx x hxi).2.2
  have hfree := fun x hx => (hapart x hx).1
  rw [hr.freeSet_eq] at hfree
  unfold prepareSpace at hok ⊢
  split_ifs at hok ⊢ with hzero
  · cases hcreate : addressSpaceCreate K.phys K.cr3 with
    | mk r σ =>
      rw [hcreate] at hok
      cases r with
      | none => exact absurd hok (by simp)
      | some page =>
        have hn := addressSpaceCreate_some hr hcreate
        dsimp only
        rw [setProcess_self]
        refine ⟨hn.fresh hr, _, hn.refines, hsees σ (hn.fresh hr) hn.refines fun x hx => ?_⟩
        have hne : x / 4096 ≠ page.toNat / 4096 := fun he => hfree x hx (he ▸ hn.free)
        refine ⟨hn.other x hne, fun hmem => hfree x hx ?_, hne⟩
        rw [PageSets.free_take] at hmem
        exact Finset.mem_of_mem_erase hmem
  · have hf := hfresh.resolve_left hzero
    exact ⟨hf, a, hr, hsees _ hf hr fun x hx => ⟨rfl, hfree x hx, (hapart x hx).2 hzero⟩⟩

/-- `process_prepare_elf` that returns 0 has loaded the image and mapped the
stack. -/
theorem prepareImage_ok {info : ProcessImage}
    (hok : (prepareImage K i image imageSize info).1 = 0) :
    ∃ e σ₁ σ₂, elf64LoadImage K.phys (K.processes i).pml4Physical image imageSize = (some e, σ₁) ∧
      mapUserStack σ₁ (K.processes i).pml4Physical userStackBottom userStackTop = .ok σ₂ ∧
      prepareImage K i image imageSize info =
        (0, ⟨e, userStackTop, userStackBottom⟩, { K with phys := σ₂ }.setProcess i
          { K.processes i with
            state := .created, entryPoint := e, userStackTop := userStackTop }) := by
  unfold prepareImage at hok ⊢
  dsimp only at hok ⊢
  cases hload : elf64LoadImage K.phys (K.processes i).pml4Physical image imageSize with
  | mk r σ₁ =>
    rw [hload] at hok
    cases r with
    | none => exact absurd hok (by simp)
    | some e =>
      dsimp only at hok ⊢
      cases hstack : mapUserStack σ₁ (K.processes i).pml4Physical userStackBottom userStackTop with
      | error σ₂ =>
        rw [hstack] at hok
        exact absurd hok (by simp)
      | ok σ₂ => exact ⟨e, σ₁, σ₂, rfl, hstack, rfl⟩

/-- **Loading preserves the program.**  `process_prepare_elf` that returns 0, on a
process with a fresh address space and an image apart from the frames of the
allocator: the address space holds the program of the image, and entry point and
stack top are in the process record and in the image information. -/
theorem processPrepareElf_loads (K : Kernel) (i : Slot) (image imageSize : U64)
    (info : ProcessImage) (hpmm : PmmReached K.phys.pmm) (hfresh : FreshSpace K i)
    (hapart : ImageApart K i image imageSize)
    (hok : (processPrepareElf K (some i) image imageSize (some info)).1 = 0) :
    let K' := (processPrepareElf K (some i) image imageSize (some info)).2.2
    let e := loadBias K.phys.mem image + (headerAt K.phys.mem image.toNat).entry
    ProgramLoaded K.phys.mem image K'.phys.mem (K'.processes i).pml4Physical ∧
    (K'.processes i).entryPoint = e ∧ (K'.processes i).userStackTop = userStackTop ∧
    (processPrepareElf K (some i) image imageSize (some info)).2.1 =
      some ⟨e, userStackTop, userStackBottom⟩ := by
  unfold processPrepareElf at hok ⊢
  dsimp only at hok ⊢
  split_ifs at hok ⊢ with hargs hcreated
  · exact absurd hok (by simp)
  · exact absurd hok (by simp)
  · rw [Bool.not_eq_true', Bool.not_eq_false] at hcreated
    obtain ⟨hf, a, hr, hs⟩ := prepareSpace_fresh hpmm hfresh hapart hcreated
    generalize (prepareSpace K i).2 = K₁ at hok hf hr hs ⊢
    obtain ⟨e, σ₁, σ₂, hload, hstack, heq⟩ := prepareImage_ok hok
    obtain ⟨htables, hself⟩ := hf.tables hr
    have hsingle : single () := trivial
    have hroot : singleRoot (K₁.processes i).pml4Physical () =
      some (K₁.processes i).pml4Physical.toNat := rfl
    obtain ⟨rfl, ⟨a₁, hmaps₁, -⟩, hsegs⟩ := elf64LoadImage_maps htables hsingle hroot hs hload
    rw [mapUserStack, if_neg (by decide)] at hstack
    obtain ⟨a₂, hmaps₂⟩ := stackPages_maps hmaps₁.tables hsingle hroot hstack
    rw [heq]
    dsimp only
    rw [setProcess_self]
    exact ⟨Maps.programLoaded (hmaps₁.append hmaps₂) hsingle hroot (fun ho => (hself ho).1)
      fun n hl => hsegs n (Nat.zero_le n) hl, rfl, rfl, rfl⟩

end Prepare

/-- Loading an image with one program header. -/
theorem elf64LoadImage_single {σ σ₁ : Phys} {pml4 image imageSize bias : U64} {seg : Segment}
    (hvalid : elf64Validate σ.mem image imageSize = true) (hbias : loadBias σ.mem image = bias)
    (hl : Loadable σ.mem image 0) (hseg : segmentOf bias (programHeader σ.mem image 0) = some seg)
    (hpages : loadPages pml4 image imageSize bias (programHeaderAddress σ.mem image 0) seg seg.pages
      seg.mapStart false σ = .ok (true, σ₁))
    (hone : (headerAt σ₁.mem image.toNat).phnum.toNat ≤ 1) :
    elf64LoadImage σ pml4 image imageSize =
      (some (bias + (headerAt σ₁.mem image.toNat).entry), σ₁) := by
  subst hbias
  refine elf64LoadImage_some.2 ⟨hvalid, ?_, rfl⟩
  obtain ⟨n, hfuel⟩ : ∃ n, (2 ^ 16 : ℕ) = n + 1 + 1 := ⟨65534, rfl⟩
  rw [hfuel, loadHeaders_load hl, hseg]
  dsimp only
  rw [hpages]
  dsimp only
  rw [loadHeaders, if_pos hone]

/-- An ELF image of 124 bytes: the header, one program header for a segment of
eight bytes at `SB_USER_BASE` that may be read and executed, and the four bytes
of it that are in the file. -/
def sampleImage : List U8 :=
  [0x7F, 0x45, 0x4C, 0x46, 2, 1, 1, 0, 0, 0, 0, 0, 0, 0, 0, 0, 2, 0, 62, 0, 1, 0, 0, 0,
    0, 0, 0, 0, 0x80, 0, 0, 0, 64, 0, 0, 0, 0, 0, 0, 0, 0, 0, 0, 0, 0, 0, 0, 0,
    0, 0, 0, 0, 64, 0, 56, 0, 1, 0, 0, 0, 0, 0, 0, 0] ++
  [1, 0, 0, 0, 5, 0, 0, 0, 120, 0, 0, 0, 0, 0, 0, 0, 0, 0, 0, 0, 0x80, 0, 0, 0,
    0, 0, 0, 0, 0, 0, 0, 0, 4, 0, 0, 0, 0, 0, 0, 0, 8, 0, 0, 0, 0, 0, 0, 0,
    0, 0, 0, 0, 0, 0, 0, 0] ++ [0x90, 0x90, 0xEB, 0xFE]

section Sample

variable (bytes : List U8)

/-- Memory that holds an image at 1 MiB, in a reserved page. -/
def imageMem : Mem := bytesAt 0x100000 bytes

/-- A machine without a process, with the image in memory. -/
def imageKernel : Kernel := { bootedKernel with phys := ⟨imageMem bytes, bootedPmm⟩ }

/-- Physical memory after the first page has been taken for a PML4. -/
def imagePhys : Phys := ⟨imageMem bytes, (pmmAllocPage bootstrapLimit bootedPmm).2⟩

/-- The machine after `process_create(1)`. -/
def imageProcess : Kernel :=
  { imageKernel bytes with phys := imagePhys bytes, processCount := 1 }.setProcess 0
    { Process.zero with pid := 1, state := .created, pml4Physical := 0x200000 }

theorem imageKernel_pmm : (imageKernel bytes).phys.pmm = bootedPmm := rfl

theorem imagePhys_refines :
    Refines bootstrapLimit (imagePhys bytes).pmm (bootedPages.take 512) := by
  dsimp only [imagePhys]
  exact bootedPmm_alloc.2

variable {bytes} (hlen : bytes.length ≤ 4096)
include hlen

/-- Away from the image the memory is zero. -/
theorem imageMem_zero {x : ℕ} (hx : x < 0x100000 ∨ 0x101000 ≤ x) : imageMem bytes x = 0 := by
  unfold imageMem bytesAt
  split_ifs with h
  · exact List.getD_eq_default _ _ (by omega)
  · rfl

theorem imageMem_create :
    setSlot (zeroPage (imageMem bytes) 0x200000) 0x200000 0 0 = imageMem bytes := by
  funext x
  rw [setSlot, write64_zero, zeroPage_apply (by decide)]
  split_ifs with h₁ h₂
  · rw [imageMem_zero hlen (by omega)]
  · rw [imageMem_zero hlen (by omega)]
  · rfl

/-- The page of the first address space. -/
theorem imageKernel_space : addressSpaceCreate (imageKernel bytes).phys (imageKernel bytes).cr3 =
    (some 0x200000, imagePhys bytes) := by
  have hslot : slot (zeroPage (imageMem bytes) 0x200000) 0x1000 0 = 0 :=
    read64_eq_zero fun x h₁ h₂ => by
      rw [zeroPage_apply (by decide), if_neg (by omega), imageMem_zero hlen (by omega)]
  rw [addressSpaceCreate]
  dsimp only [imageKernel]
  rw [bootedPmm_alloc.1, if_neg (by decide), show (0x200000 : U64).toNat = 0x200000 from rfl,
    show (bootedKernel.cr3 &&& entryAddrMask).toNat = 0x1000 by decide, hslot, imageMem_create hlen]
  rfl

theorem imageKernel_create :
    processCreate (imageKernel bytes) 1 = (some 0, imageProcess bytes) := by
  have hfind : ((List.finRange 32).find? fun i => ((imageKernel bytes).processes i).state =
      .unused) = some 0 := rfl
  have hcount : (imageKernel bytes).processCount = 0 := rfl
  rw [processCreate, hcount, if_neg (by decide), hfind]
  dsimp only
  rw [createIn, imageKernel_space hlen]
  rfl

theorem imagePhys_fresh : FreshTable (imagePhys bytes) 0x200000 := by
  have hr := imagePhys_refines bytes
  have hlt : (0x200000 : U64).toNat / 4096 < bootstrapLimit.pages := by decide
  have hpage : (0x200000 : U64).toNat / 4096 = 512 := rfl
  have hunreserved : 512 ∉ (bootedPages.take 512).reserved := fun hmem =>
    absurd (mem_insidePages.1 hmem).2 (by decide)
  refine ⟨by decide, ⟨hlt, (hr.allocated _ hlt).2 ?_⟩, ?_, fun j _ hj => ?_⟩
  · rw [hpage]
    exact Finset.mem_insert_self ..
  · refine Bool.eq_false_iff.2 fun hbit => hunreserved ?_
    rw [← hpage]
    exact (hr.reserved _ hlt).1 hbit
  · rw [show (0x200000 : U64).toNat = 0x200000 from rfl]
    exact read64_eq_zero fun x h₁ h₂ => imageMem_zero hlen (by omega)

theorem imagePhys_sees {imageSize : U64} (hsize : imageSize.toNat ≤ 4096) :
    Sees single (singleRoot 0x200000) () (imageMem bytes) 0x100000 imageSize (imagePhys bytes)
      (bootedPages.take 512) := by
  refine ⟨fun x _ => rfl, fun x hx => ?_⟩
  obtain ⟨h₁, h₂⟩ : 0x100000 ≤ x ∧ x < 0x100000 + imageSize.toNat := hx
  refine ⟨fun hfree => ?_, fun p f ho _ => ?_⟩
  · rw [PageSets.free_take, Finset.mem_erase, mem_bootedPages_free] at hfree
    omega
  · rw [(((imagePhys_fresh hlen).tables (imagePhys_refines bytes)).2 ho).2,
      show (0x200000 : U64).toNat = 0x200000 from rfl]
    omega

theorem imageProcess_apart {imageSize : U64} (hsize : imageSize.toNat ≤ 4096) :
    ImageApart (imageProcess bytes) 0 0x100000 imageSize := by
  rintro x ⟨h₁, h₂⟩
  obtain ⟨hfree, howned⟩ := (imagePhys_sees hlen hsize).apart x ⟨h₁, h₂⟩
  refine ⟨?_, fun _ => howned [] _ (owned_nil.2 rfl) (by simp)⟩
  rw [show (imageProcess bytes).phys = imagePhys bytes from rfl,
    (imagePhys_refines bytes).freeSet_eq]
  exact hfree

end Sample

/-- The segment of the image. -/
def sampleSegment : Segment :=
  ⟨0x8000000000, 0x8000000008, 0x8000000000, 0x8000001000, vmmUser⟩

theorem sampleImage_length : sampleImage.length ≤ 4096 := by
  rw [show sampleImage.length = 124 from rfl]
  omega

theorem sampleImage_segment : Loadable (imageMem sampleImage) 0x100000 0 ∧
    segmentOf 0 (programHeader (imageMem sampleImage) 0x100000 0) = some sampleSegment := by
  refine ⟨⟨?_, ?_, ?_⟩, ?_⟩
  · decide +kernel
  · decide +kernel
  · decide +kernel
  · rw [show programHeader (imageMem sampleImage) 0x100000 0 = ⟨1, 5, 120, 0x8000000000, 4, 8⟩ by
      decide +kernel]
    rfl

/-- Room for the segment and the stack, and page 0 is not handed out. -/
theorem bootedPages_room :
    0 ∈ (bootedPages.take 512).reserved ∧ 20 ≤ (bootedPages.take 512).free.card := by
  refine ⟨mem_insidePages.2 ⟨by decide, by decide⟩, ?_⟩
  rw [PageSets.free_take]
  have hsub : (Finset.range 20).image (· + 513) ⊆ bootedPages.free.erase 512 := fun p hp => by
    obtain ⟨q, hq, rfl⟩ := Finset.mem_image.1 hp
    rw [Finset.mem_range] at hq
    exact Finset.mem_erase.2 ⟨by omega, mem_bootedPages_free.2 (by omega)⟩
  exact Finset.card_le_card hsub

/-- The image is loaded: one page. -/
theorem sampleImage_load : ∃ e σ₁ a₁,
    elf64LoadImage (imagePhys sampleImage) 0x200000 0x100000 124 = (some e, σ₁) ∧
    Maps single (singleRoot 0x200000) () (pageRun (segmentPage (imageMem sampleImage) 0x100000
      (programHeader (imageMem sampleImage) 0x100000 0) sampleSegment) 1 sampleSegment.mapStart)
      (imagePhys sampleImage) (bootedPages.take 512) σ₁ a₁ ∧ 16 ≤ a₁.free.card := by
  obtain ⟨htables, hself⟩ :=
    (imagePhys_fresh sampleImage_length).tables (imagePhys_refines sampleImage)
  obtain ⟨hl, hseg⟩ := sampleImage_segment
  obtain ⟨hres, hcard⟩ := bootedPages_room
  have hvalid : elf64Validate (imageMem sampleImage) 0x100000 124 = true := by decide +kernel
  have hmem : (imagePhys sampleImage).mem = imageMem sampleImage := rfl
  obtain ⟨σ', -, hfail⟩ | ⟨σ₁, a₁, hpage, hmaps, hs₁, hcard₁⟩ :=
    ((elf64Validate_spec hvalid).loadsSegment hl hseg).page htables trivial rfl
      (imagePhys_sees sampleImage_length (by decide))
      (show sampleSegment.mapStart.toNat < sampleSegment.mapEnd.toNat by decide)
  · obtain ⟨f, ho⟩ := hfail hres (by omega) (userPage_of_toNat (by decide) (by decide) (by decide))
    exact absurd (hself ho).1 (by simp [pathOf])
  obtain ⟨hphnum, -, -, -, hentry⟩ := hs₁.same.header (by decide)
  have hin : entryInPage σ₁.mem 0x100000 0 sampleSegment.mapStart = true := by
    rw [entryInPage, hentry]
    decide +kernel
  have hone : (headerAt σ₁.mem (0x100000 : U64).toNat).phnum.toNat = 1 := by
    rw [hphnum]
    decide +kernel
  have hpages : loadPages 0x200000 0x100000 124 0
      (programHeaderAddress (imageMem sampleImage) 0x100000 0)
      sampleSegment sampleSegment.pages sampleSegment.mapStart false (imagePhys sampleImage) =
      .ok (true, σ₁) := by
    rw [show sampleSegment.pages = 1 by decide, loadPages, hpage]
    dsimp only
    rw [hin, loadPages, Bool.false_or]
  refine ⟨0 + (headerAt σ₁.mem (0x100000 : U64).toNat).entry, σ₁, a₁, ?_, hmaps, by omega⟩
  exact elf64LoadImage_single hvalid (by decide +kernel) hl hseg hpages hone.le

/-- The stack is mapped, and `process_prepare_elf` returns 0. -/
theorem sampleImage_prepared (info : ProcessImage) :
    (processPrepareElf (imageProcess sampleImage) (some 0) 0x100000 124 (some info)).1 = 0 := by
  obtain ⟨e, σ₁, a₁, hload, hmaps, hcard⟩ := sampleImage_load
  obtain ⟨-, hself⟩ := (imagePhys_fresh sampleImage_length).tables (imagePhys_refines sampleImage)
  have hstack : ∃ σ₂, mapUserStack σ₁ 0x200000 userStackBottom userStackTop = .ok σ₂ := by
    rw [mapUserStack, if_neg (by decide),
      show ((userStackTop - userStackBottom) / 4096).toNat = 4 by decide]
    refine stackPages_total hmaps.tables trivial rfl ?_ hcard (by decide) ?_ ?_ fun v h₁ h₂ =>
      hmaps.not_mapped (fun f ho => absurd (hself ho).1 (by simp [pathOf])) fun pg hpg hsame => ?_
    · rw [hmaps.grows.reserved]
      exact bootedPages_room.1
    · rw [toNat_userStackBottom]
      omega
    · rw [toNat_userStackBottom]
      omega
    · obtain rfl := List.mem_singleton.1 hpg
      rw [toNat_userStackBottom] at h₁ h₂
      have := (pathOf_eq_iff (by omega) (by decide)).1 hsame
      rw [show (segmentPage _ _ _ _ _).va.toNat / 4096 = 0x8000000 from rfl] at this
      omega
  obtain ⟨σ₂, hstack⟩ := hstack
  rw [processPrepareElf_live_rc (by decide) (by decide) (by decide), prepareImage,
    show ((imageProcess sampleImage).processes 0).pml4Physical = 0x200000 from rfl,
    show (imageProcess sampleImage).phys = imagePhys sampleImage from rfl, hload]
  dsimp only
  rw [hstack]

/-- It is accepted, and then it is loaded. -/
theorem sampleImage_programLoaded :
    (processPrepareElf (imageProcess sampleImage) (some 0) 0x100000 124 (some ⟨0, 0, 0⟩)).1 = 0 ∧
    let K :=
  (processPrepareElf (imageProcess sampleImage) (some 0) 0x100000 124 (some ⟨0, 0, 0⟩)).2.2
    ProgramLoaded (imageMem sampleImage) 0x100000 K.phys.mem (K.processes 0).pml4Physical :=
  ⟨sampleImage_prepared _,
    (processPrepareElf_loads (imageProcess sampleImage) 0 0x100000 124 ⟨0, 0, 0⟩
      ⟨⟨0, 0, 0, 0, 0⟩, .init 0 0x10000000, [.reserveRange 0 0x200000, .allocPage], rfl⟩
      (Or.inr (imagePhys_fresh sampleImage_length))
      (imageProcess_apart sampleImage_length (by decide)) (sampleImage_prepared _)).1⟩

end SuiraBox.Exec
