/-
# What the loader makes of an image

An image that nothing writes to while it is loaded reads the same at every point
of the loader, so its headers are fixed and the pages the loader makes are a
function of its bytes: `imagePages`, the pages of each segment in turn.  The
address space then grows by these pages (`elf64LoadImage_maps`).

A page of a segment holds `segmentByte` at each of its addresses: file bytes
from `virtual_start` on for `file_size` bytes, zero before and behind.  The copy
window of the code is where a page and that range meet.
-/

import SuiraBox.Exec.Elf

namespace SuiraBox.Exec

open ByteMem Forest Mm

/-! ### Images that stay as they are -/

/-- The addresses of an image. -/
def InImage (image imageSize : U64) (x : ℕ) : Prop :=
  image.toNat ≤ x ∧ x < image.toNat + imageSize.toNat

/-- Memory `m` holds the image as `m₀` does. -/
def SameImage (image imageSize : U64) (m₀ m : Mem) : Prop :=
  ∀ x, InImage image imageSize x → m x = m₀ x

/-- The table of program headers lies inside the image, in unbounded numbers. -/
structure TableInside (m : Mem) (image size : U64) : Prop where
  entrySize : 56 ≤ (headerAt m image.toNat).phentsize.toNat
  table : (headerAt m image.toNat).phnum.toNat ≠ 0 → (headerAt m image.toNat).phoff.toNat +
    (headerAt m image.toNat).phentsize.toNat * (headerAt m image.toNat).phnum.toNat ≤ size.toNat

/-- What `elf64_validate` makes sure of, in unbounded numbers. -/
structure ValidImage (m : Mem) (image size : U64) : Prop where
  header : 64 ≤ size.toNat
  entrySize : 56 ≤ (headerAt m image.toNat).phentsize.toNat
  table : (headerAt m image.toNat).phnum.toNat ≠ 0 → (headerAt m image.toNat).phoff.toNat +
    (headerAt m image.toNat).phentsize.toNat * (headerAt m image.toNat).phnum.toNat ≤ size.toNat
  segment : ∀ i < (headerAt m image.toNat).phnum.toNat,
    let ph := programHeaderAt m (programHeaderAddress m image i)
    ph.type = elfPtLoad →
      ph.fileSize.toNat ≤ ph.memorySize.toNat ∧ ph.offset.toNat + ph.fileSize.toNat ≤ size.toNat

variable {size image va : U64} {m : Mem} {i n : ℕ} {entryMapped : Bool}

theorem Elf64ProgramHeader.accepted_spec {ph : Elf64ProgramHeader}
    (h : ph.accepted size = true) (htype : ph.type = elfPtLoad) :
    ph.fileSize.toNat ≤ ph.memorySize.toNat ∧ ph.offset.toNat + ph.fileSize.toNat ≤ size.toNat := by
  unfold Elf64ProgramHeader.accepted at h
  rw [if_neg (not_not.2 htype)] at h
  split_ifs at h with hsize
  · rw [BitVec.lt_def, not_lt] at hsize
    cases hend : u64AddOverflow ph.offset ph.fileSize with
    | none =>
      rw [hend] at h
      exact absurd h (by simp)
    | some fileEnd =>
      rw [hend] at h
      rw [u64AddOverflow_eq_some] at hend
      simp only [Bool.not_eq_true', decide_eq_false_iff_not, BitVec.lt_def, not_lt] at h
      exact ⟨hsize, by omega⟩

theorem tableInside_of_checks (haccepted : (headerAt m image.toNat).accepted = true)
    (htable : (headerAt m image.toNat).tableInside size = true) : TableInside m image size := by
  refine ⟨?_, fun hne => ?_⟩
  · simp only [Elf64Header.accepted, Bool.not_eq_true', decide_eq_false_iff_not, not_or,
      BitVec.lt_def, not_lt] at haccepted
    exact haccepted.2.2.2.2.2.2.2
  · unfold Elf64Header.tableInside at htable
    rw [if_neg fun h0 => hne (by rw [h0]; rfl)] at htable
    generalize (headerAt m image.toNat).phentsize = phentsize at htable ⊢
    generalize (headerAt m image.toNat).phnum = phnum at htable ⊢
    have hmul : (phentsize.setWidth 64 * phnum.setWidth 64).toNat =
        phentsize.toNat * phnum.toNat := by
      have hlt : phentsize.toNat * phnum.toNat < 2 ^ 16 * 2 ^ 16 :=
        Nat.mul_lt_mul'' phentsize.isLt phnum.isLt
      rw [BitVec.toNat_mul, BitVec.toNat_setWidth_of_le (by decide),
        BitVec.toNat_setWidth_of_le (by decide), Nat.mod_eq_of_lt (by omega)]
    cases hend : u64AddOverflow (headerAt m image.toNat).phoff
        (phentsize.setWidth 64 * phnum.setWidth 64) with
    | none =>
      rw [hend] at htable
      exact absurd htable (by simp)
    | some phEnd =>
      rw [hend] at htable
      rw [u64AddOverflow_eq_some, hmul] at hend
      simp only [Bool.not_eq_true', decide_eq_false_iff_not, BitVec.lt_def, not_lt] at htable
      omega

/-- The index of a program header: neither the product nor the sum wraps around, and the
header lies inside. -/
theorem TableInside.index (h : TableInside m image size)
    (hi : i < (headerAt m image.toNat).phnum.toNat) :
    let header := headerAt m image.toNat
    (BitVec.ofNat 64 i * header.phentsize.setWidth 64).toNat = header.phentsize.toNat * i ∧
    header.phoff.toNat + (BitVec.ofNat 64 i * header.phentsize.setWidth 64).toNat < 2 ^ 64 ∧
    (header.phoff + BitVec.ofNat 64 i * header.phentsize.setWidth 64).toNat + 56 ≤ size.toNat := by
  have htable := h.table (by omega)
  have hentry := h.entrySize
  have hsize := size.isLt
  dsimp only
  generalize (headerAt m image.toNat).phnum.toNat = phnum at hi htable
  generalize (headerAt m image.toNat).phoff = phoff at htable ⊢
  generalize (headerAt m image.toNat).phentsize = phentsize at hentry htable ⊢
  have hnext : phentsize.toNat * (i + 1) ≤ phentsize.toNat * phnum := Nat.mul_le_mul_left _ hi
  rw [Nat.mul_succ] at hnext
  have hcomm : i * phentsize.toNat = phentsize.toNat * i := Nat.mul_comm ..
  have hi' : i % 2 ^ 64 = i := by
    have : 56 * i ≤ phentsize.toNat * i := Nat.mul_le_mul_right _ hentry
    omega
  have hmul : (BitVec.ofNat 64 i * phentsize.setWidth 64).toNat = phentsize.toNat * i := by
    rw [BitVec.toNat_mul, BitVec.toNat_ofNat, hi', BitVec.toNat_setWidth_of_le (by decide), hcomm]
    omega
  refine ⟨hmul, by omega, ?_⟩
  rw [BitVec.toNat_add, hmul]
  omega

theorem elf64Validate_spec (h : elf64Validate m image size = true) :
    ValidImage m image size := by
  unfold elf64Validate at h
  split_ifs at h with hargs
  simp only [Bool.and_eq_true, List.all_eq_true, List.mem_range] at h
  obtain ⟨⟨haccepted, htable⟩, hall⟩ := h
  simp only [not_or, BitVec.lt_def, not_lt] at hargs
  obtain ⟨hentry, htable⟩ := tableInside_of_checks haccepted htable
  exact ⟨hargs.2, hentry, htable, fun i hi => Elf64ProgramHeader.accepted_spec (hall i hi)⟩

theorem ValidImage.tableInside (hv : ValidImage m image size) :
    TableInside m image size := ⟨hv.entrySize, hv.table⟩

section Headers

variable {m₀ m : Mem} {image imageSize : U64}

/-- The header reads the same. -/
theorem SameImage.header (h : SameImage image imageSize m₀ m) (hsize : 64 ≤ imageSize.toNat) :
    (headerAt m image.toNat).phnum = (headerAt m₀ image.toNat).phnum ∧
    (headerAt m image.toNat).phoff = (headerAt m₀ image.toNat).phoff ∧
    (headerAt m image.toNat).phentsize = (headerAt m₀ image.toNat).phentsize ∧
    (headerAt m image.toNat).type = (headerAt m₀ image.toNat).type ∧
    (headerAt m image.toNat).entry = (headerAt m₀ image.toNat).entry := by
  have hsame : ∀ x, image.toNat ≤ x → x < image.toNat + 64 → m x = m₀ x :=
    fun x h₁ h₂ => h x ⟨h₁, by omega⟩
  refine ⟨read16_congr fun x h₁ h₂ => ?_, read64_congr fun x h₁ h₂ => ?_,
    read16_congr fun x h₁ h₂ => ?_, read16_congr fun x h₁ h₂ => ?_,
    read64_congr fun x h₁ h₂ => ?_⟩ <;>
    exact hsame x (by omega) (by omega)

/-- Program headers lie in the image. -/
theorem ValidImage.programHeader_inside (hv : ValidImage m₀ image imageSize)
    (hi : i < (headerAt m₀ image.toNat).phnum.toNat) :
    image.toNat ≤ programHeaderAddress m₀ image i ∧
      programHeaderAddress m₀ image i + 56 ≤ image.toNat + imageSize.toNat := by
  obtain ⟨-, -, hin⟩ := hv.tableInside.index hi
  unfold programHeaderAddress
  dsimp only at hin ⊢
  omega

/-- A program header reads the same, at the same place. -/
theorem SameImage.header_eq (h : SameImage image imageSize m₀ m)
    (hv : ValidImage m₀ image imageSize) (hi : i < (headerAt m₀ image.toNat).phnum.toNat) :
    programHeaderAddress m image i = programHeaderAddress m₀ image i ∧
      programHeaderAt m (programHeaderAddress m₀ image i) =
        programHeaderAt m₀ (programHeaderAddress m₀ image i) := by
  obtain ⟨-, hphoff, hphentsize, -⟩ := h.header hv.header
  obtain ⟨hlo, hhi⟩ := hv.programHeader_inside hi
  refine ⟨by rw [programHeaderAddress, programHeaderAddress, hphoff, hphentsize], ?_⟩
  generalize programHeaderAddress m₀ image i = ph at hlo hhi
  have hsame : ∀ x, ph ≤ x → x < ph + 56 → m x = m₀ x := fun x h₁ h₂ => h x ⟨by omega, by omega⟩
  have h32 : ∀ n, n + 4 ≤ 56 → read32 m (ph + n) = read32 m₀ (ph + n) := fun n hn =>
    read32_congr fun x h₁ h₂ => hsame x (by omega) (by omega)
  have h64 : ∀ n, n + 8 ≤ 56 → read64 m (ph + n) = read64 m₀ (ph + n) := fun n hn =>
    read64_congr fun x h₁ h₂ => hsame x (by omega) (by omega)
  have h0 : read32 m ph = read32 m₀ ph := h32 0 (by decide)
  unfold programHeaderAt
  rw [h0, h32 4 (by decide), h64 8 (by decide), h64 16 (by decide), h64 32 (by decide),
    h64 40 (by decide)]

theorem SameImage.symm (h : SameImage image imageSize m₀ m) : SameImage image imageSize m m₀ :=
  fun x hx => (h x hx).symm

theorem SameImage.loadBias_eq (h : SameImage image imageSize m₀ m) (hsize : 64 ≤ imageSize.toNat) :
    loadBias m image = loadBias m₀ image := by
  obtain ⟨-, -, -, htype, hentry⟩ := h.header hsize
  rw [loadBias, loadBias, htype, hentry]

/-- An image is valid wherever it is the same. -/
theorem ValidImage.congr (hv : ValidImage m image imageSize) (h : SameImage image imageSize m₀ m) :
    ValidImage m₀ image imageSize := by
  obtain ⟨hnum, hoff, hsize, -, -⟩ := h.symm.header hv.header
  refine ⟨hv.header, ?_, ?_, fun i hi => ?_⟩
  · rw [hsize]
    exact hv.entrySize
  · rw [hnum, hoff, hsize]
    exact hv.table
  · rw [hnum] at hi
    obtain ⟨haddr, hheader⟩ := h.symm.header_eq hv hi
    rw [haddr, hheader]
    exact hv.segment i hi

end Headers

/-! ### The bytes of a page -/

/-- The byte of a segment at a virtual address. -/
def segmentByte (m : Mem) (image : U64) (ph : Elf64ProgramHeader) (seg : Segment) (va : ℕ) : U8 :=
  if seg.virtualStart.toNat ≤ va ∧ va < seg.virtualStart.toNat + ph.fileSize.toNat then
    m (image.toNat + ph.offset.toNat + (va - seg.virtualStart.toNat))
  else 0

/-- An interval of the image and one of a page that the image has no byte in are
apart. -/
theorem apart_of_page {imageSize : U64} {page dst src : ℕ}
    (hapart : ∀ x, InImage image imageSize x → x / 4096 ≠ page / 4096)
    (hsrc : image.toNat ≤ src) (hsrc' : src + n ≤ image.toNat + imageSize.toNat)
    (halign : page % 4096 = 0) (hdst : page ≤ dst) (hdst' : dst + n ≤ page + 4096) :
    dst + n ≤ src ∨ src + n ≤ dst := by
  by_contra hmeet
  rcases Nat.lt_or_ge src dst with hlt | hge
  · exact hapart dst ⟨by omega, by omega⟩ (by omega)
  · exact hapart src ⟨by omega, by omega⟩ (by omega)

/-- The copy of a window, byte by byte, in unbounded numbers: `vs` and `fs` are
start and file size of the segment, `cs` and `ce` the ends of the window. -/
theorem copyBytes_window {page va vs fs cs ce src j : ℕ}
    (hcs : cs = max va vs) (hce : ce = min (va + 4096) (vs + fs)) (hcopy : cs < ce)
    (hclear : ∀ j < 4096, m (page + j) = 0)
    (hapart : page + (cs - va) + (ce - cs) ≤ src + (cs - vs) ∨
      src + (cs - vs) + (ce - cs) ≤ page + (cs - va)) (hj : j < 4096) :
    copyBytes m (page + (cs - va)) (src + (cs - vs)) (ce - cs) (page + j) =
      if vs ≤ va + j ∧ va + j < vs + fs then m (src + (va + j - vs)) else 0 := by
  split_ifs with hin
  · obtain ⟨d, rfl⟩ : ∃ d, j = cs - va + d := ⟨j - (cs - va), by omega⟩
    rw [← Nat.add_assoc, copyBytes_apply m hapart (by omega)]
    congr 1
    omega
  · rw [copyBytes_of_outside m (by omega), hclear j hj]

/-- The copy window in unbounded numbers, when neither the file range nor its place in memory
wraps around. -/
theorem copyWindow_spec {start fileSize copyStart copyEnd : U64} (offset : U64)
    (hva : va.toNat + 4096 < 2 ^ 64) (hfile : offset.toNat + fileSize.toNat < 2 ^ 64)
    (hplace : start.toNat + fileSize.toNat < 2 ^ 64)
    (hstart : (if start < va then va else start) = copyStart)
    (hstop : (if va + 4096 < start + fileSize then va + 4096 else start + fileSize) = copyEnd) :
    copyStart.toNat = max va.toNat start.toNat ∧
    copyEnd.toNat = min (va.toNat + 4096) (start.toNat + fileSize.toNat) ∧
    (copyStart < copyEnd →
      (copyStart - start).toNat = copyStart.toNat - start.toNat ∧
      (copyEnd - start).toNat = copyEnd.toNat - start.toNat ∧
      (offset + (copyStart - start)).toNat = offset.toNat + (copyStart.toNat - start.toNat) ∧
      (offset + (copyEnd - start)).toNat = offset.toNat + (copyEnd.toNat - start.toNat)) := by
  have hadd : (va + 4096).toNat = va.toNat + 4096 := by bv_omega
  have hsum : (start + fileSize).toNat = start.toNat + fileSize.toNat := by bv_omega
  have hlower : copyStart.toNat = max va.toNat start.toNat := by
    subst hstart
    split_ifs with hlt <;> rw [BitVec.lt_def] at hlt <;> omega
  have hupper : copyEnd.toNat = min (va.toNat + 4096) (start.toNat + fileSize.toNat) := by
    subst hstop
    split_ifs with hlt <;> rw [BitVec.lt_def] at hlt <;> omega
  refine ⟨hlower, hupper, fun hcopy => ?_⟩
  rw [BitVec.lt_def] at hcopy
  have hskipped : (copyStart - start).toNat = copyStart.toNat - start.toNat :=
    BitVec.toNat_sub_of_le (BitVec.le_def.2 (by omega))
  have hreached : (copyEnd - start).toNat = copyEnd.toNat - start.toNat :=
    BitVec.toNat_sub_of_le (BitVec.le_def.2 (by omega))
  refine ⟨hskipped, hreached, ?_, ?_⟩
  · rw [BitVec.toNat_add, hskipped, Nat.mod_eq_of_lt (by omega)]
  · rw [BitVec.toNat_add, hreached, Nat.mod_eq_of_lt (by omega)]

/-- Filling a page, in unbounded numbers: the part of the file that falls into
the page is copied there, which may be nothing. -/
theorem fillPage_eq {imageSize page : U64} {ph : ℕ} {seg : Segment}
    {header : Elf64ProgramHeader} (hph : programHeaderAt m ph = header)
    (hend : header.offset.toNat + header.fileSize.toNat ≤ imageSize.toNat)
    (hstop : seg.virtualStart.toNat + header.fileSize.toNat ≤ seg.virtualEnd.toNat)
    (hva : va.toNat + 4096 < 2 ^ 64) :
    fillPage image imageSize ph seg va m page =
      some (copyBytes m (page.toNat + (max va.toNat seg.virtualStart.toNat - va.toNat))
        (image.toNat + header.offset.toNat +
          (max va.toNat seg.virtualStart.toNat - seg.virtualStart.toNat))
        (min (va.toNat + 4096) (seg.virtualStart.toNat + header.fileSize.toNat) -
          max va.toNat seg.virtualStart.toNat)) := by
  have hsize := imageSize.isLt
  have hlast := seg.virtualEnd.isLt
  have hadd : (va + 4096).toNat = va.toNat + 4096 := by bv_omega
  have hvend : (seg.virtualStart + header.fileSize).toNat =
      seg.virtualStart.toNat + header.fileSize.toNat := by bv_omega
  obtain ⟨fileEnd, hfileEnd⟩ : ∃ c, rangeEnd header.offset header.fileSize = some c :=
    ⟨header.offset + header.fileSize, u64AddOverflow_eq_some.2 (by bv_omega)⟩
  have hfileEnd' := u64AddOverflow_eq_some.1 hfileEnd
  unfold fillPage
  simp only [hph, hfileEnd]
  clear hph hfileEnd
  -- nothing to copy: the number of bytes is zero
  have hnothing : ∀ {dst src n : ℕ}, n = 0 → some m = some (copyBytes m dst src n) := by
    rintro _ _ _ rfl
    rfl
  by_cases hwin : va < seg.virtualEnd ∧ seg.virtualStart < va + 4096
  · rw [if_pos hwin]
    clear hwin
    generalize hstart : (if seg.virtualStart < va then va else seg.virtualStart) = copyStart
    generalize hstopc : (if va + 4096 < seg.virtualStart + header.fileSize then va + 4096
      else seg.virtualStart + header.fileSize) = copyEnd
    obtain ⟨hcs, hce, hwindow⟩ :=
      copyWindow_spec header.offset hva (by omega) (by omega) hstart hstopc
    rw [← hcs, ← hce]
    rcases Nat.lt_or_ge copyStart.toNat copyEnd.toNat with hcopy | hnone
    · -- the page and the file range meet
      have hcond : copyStart < copyEnd ∧ seg.virtualStart ≤ copyStart ∧
          copyEnd ≤ seg.virtualStart + header.fileSize := by
        rw [BitVec.lt_def, BitVec.le_def, BitVec.le_def, hvend]
        omega
      obtain ⟨-, -, hfs, hfe⟩ := hwindow hcond.1
      have hbounds : ¬ (header.offset + (copyStart - seg.virtualStart) < header.offset ∨
          fileEnd < header.offset + (copyEnd - seg.virtualStart) ∨
          imageSize < header.offset + (copyEnd - seg.virtualStart)) := by
        rw [BitVec.lt_def, BitVec.lt_def, BitVec.lt_def, hfs, hfe]
        omega
      obtain ⟨-, -, hdst, hlen⟩ := copyWindow_inside header.offset hstart hstopc hcond.1
      rw [if_pos hcond, if_neg hbounds, hdst, hlen, hfs, ← Nat.add_assoc]
    · rw [if_neg fun hcond => Nat.not_lt.2 hnone (BitVec.lt_def.1 hcond.1)]
      exact hnothing (by omega)
  · rw [if_neg hwin]
    rw [BitVec.lt_def, BitVec.lt_def, hadd] at hwin
    exact hnothing (by omega)

/-- **The copy window is right.**  Filling a cleared page of a segment gives the
bytes of the segment there, whatever part of the page the file reaches. -/
theorem fillPage_spec {imageSize bias page : U64} {ph : ℕ} {seg : Segment}
    {header : Elf64ProgramHeader} (hph : programHeaderAt m ph = header)
    (hseg : SegmentOf bias header seg) (hfile : header.fileSize.toNat ≤ header.memorySize.toNat)
    (hend : header.offset.toNat + header.fileSize.toNat ≤ imageSize.toNat)
    (hhi : va.toNat < seg.mapEnd.toNat) (halign : page.toNat % 4096 = 0)
    (hclear : ∀ j < 4096, m (page.toNat + j) = 0)
    (hapart : ∀ x, InImage image imageSize x → x / 4096 ≠ page.toNat / 4096) :
    ∃ m', fillPage image imageSize ph seg va m page = some m' ∧
      ∀ j < 4096, m' (page.toNat + j) = segmentByte m image header seg (va.toNat + j) := by
  have hlimit : userLimit.toNat = 2 ^ 47 := rfl
  obtain ⟨-, hstop, -, hupper, -, -, hmapEnd, -⟩ := hseg
  refine ⟨_, fillPage_eq hph hend (by omega) (by omega), fun j hj => ?_⟩
  rw [segmentByte]
  generalize hcs : max va.toNat seg.virtualStart.toNat = cs
  generalize hce : min (va.toNat + 4096) (seg.virtualStart.toNat + header.fileSize.toNat) = ce
  rcases Nat.lt_or_ge cs ce with hcopy | hnone
  · refine copyBytes_window hcs.symm hce.symm hcopy hclear ?_ hj
    exact apart_of_page hapart (by omega) (by omega) halign (by omega) (by omega)
  · rw [Nat.sub_eq_zero_of_le hnone, copyBytes, hclear j hj, if_neg (by omega)]

/-! ### The pages of a segment -/

/-- The page of a segment at `va`. -/
def segmentPage (m : Mem) (image : U64) (ph : Elf64ProgramHeader) (seg : Segment) (va : U64) :
    Mapping :=
  ⟨va, seg.flags, fun j => segmentByte m image ph seg (va.toNat + j)⟩

/-- A segment that the loader has let through; its program header is at `ph`. -/
structure LoadsSegment (m₀ : Mem) (image imageSize bias : U64) (ph : ℕ)
    (header : Elf64ProgramHeader) (seg : Segment) : Prop where
  reads : ∀ {m}, SameImage image imageSize m₀ m → programHeaderAt m ph = header
  range : SegmentOf bias header seg
  file : header.fileSize.toNat ≤ header.memorySize.toNat
  inside : header.offset.toNat + header.fileSize.toNat ≤ imageSize.toNat

section Loops

variable {κ : Type*} {user : κ → Prop} {root : κ → Option ℕ} {k : κ} {σ σ' : Phys} {a a' : PageSets}
  {N : List ℕ → ℕ → Prop} {m₀ : Mem} {pml4 image imageSize bias : U64} {ph : ℕ}
  {header : Elf64ProgramHeader} {seg : Segment}

/-- The image is as in `m₀`, and nothing that the loader does will change that. -/
structure Sees (user : κ → Prop) (root : κ → Option ℕ) (k : κ) (m₀ : Mem) (image imageSize : U64)
    (σ : Phys) (a : PageSets) : Prop where
  same : SameImage image imageSize m₀ σ.mem
  apart : Apart user root k σ a (InImage image imageSize)

theorem Sees.grows (hs : Sees user root k m₀ image imageSize σ a)
    (hg : Grows user root k N σ a σ' a') : Sees user root k m₀ image imageSize σ' a' := by
  obtain ⟨hapart, hsame⟩ := hg.apart hs.apart
  exact ⟨fun x hx => (hsame x hx).trans (hs.same x hx), hapart⟩

/-- Only the file range of a segment is looked at. -/
theorem segmentByte_congr (h : SameImage image imageSize m₀ m)
    (hinside : header.offset.toNat + header.fileSize.toNat ≤ imageSize.toNat) (va : ℕ) :
    segmentByte m image header seg va = segmentByte m₀ image header seg va := by
  unfold segmentByte
  split_ifs with hin
  · exact h _ ⟨by omega, by omega⟩
  · rfl

/-- Filling a page that was free: it succeeds and gives the bytes of the
segment. -/
theorem LoadsSegment.fill (hl : LoadsSegment m₀ image imageSize bias ph header seg)
    (hs : Sees user root k m₀ image imageSize σ a) {page : U64}
    (hhi : va.toNat < seg.mapEnd.toNat) (halign : page.toNat % 4096 = 0)
    (hfree : page.toNat / 4096 ∈ a.free) :
    ∃ m', fillPage image imageSize ph seg va (zeroBytes σ.mem page.toNat 4096) page = some m' ∧
      ∀ j < 4096, m' (page.toNat + j) = segmentByte m₀ image header seg (va.toNat + j) := by
  have hapart : ∀ x, InImage image imageSize x → x / 4096 ≠ page.toNat / 4096 :=
    fun x hx he => (hs.apart x hx).1 (he ▸ hfree)
  have hsame : SameImage image imageSize m₀ (zeroBytes σ.mem page.toNat 4096) := by
    intro x hx
    rw [zeroBytes_page halign, if_neg (hapart x hx)]
    exact hs.same x hx
  obtain ⟨m', hfill, hbytes⟩ := fillPage_spec (hl.reads hsame) hl.range hl.file hl.inside hhi halign
    (fun j hj => by rw [zeroBytes_page halign, if_pos (by omega)]) hapart
  exact ⟨m', hfill, fun j hj => (hbytes j hj).trans (segmentByte_congr hsame hl.inside _)⟩

section Segment

variable (hl : LoadsSegment m₀ image imageSize bias ph header seg) (h : Tables user root σ a)
  (hk : user k) (hroot : root k = some pml4.toNat) (hs : Sees user root k m₀ image imageSize σ a)

include hl h hk hroot hs

/-- One round of the page loop on an image that stays as it is. -/
theorem LoadsSegment.page (hhi : va.toNat < seg.mapEnd.toNat) :
    (∃ σ', mapFreshPage (fillPage image imageSize ph seg va) pml4 va seg.flags σ = .error σ' ∧
      (0 ∈ a.reserved → 4 ≤ a.free.card → UserPage va →
        ∃ f, Owns user σ.mem root k (pathOf va) f)) ∨
    ∃ σ' a', mapFreshPage (fillPage image imageSize ph seg va) pml4 va seg.flags σ = .ok σ' ∧
      Maps user root k (pageRun (segmentPage m₀ image header seg) 1 va) σ a σ' a' ∧
      Sees user root k m₀ image imageSize σ' a' ∧ a.free.card ≤ a'.free.card + 4 := by
  rcases mapFreshPage_spec h hk hroot va seg.flags
      fillPage_inside with
    ⟨σ', a', heq, -, -, hroom, -⟩ | ⟨σ', a', page, m', heq, halign, hfree, hfill, hmaps, hcard, -⟩
  · refine Or.inl ⟨σ', heq, fun hres hfour hpage => hroom hres hfour hpage fun page halign hfree =>
      ?_⟩
    obtain ⟨m', hfill, -⟩ := hl.fill hs hhi halign hfree
    exact fun hnone => absurd (hfill.symm.trans hnone) (by simp)
  · obtain ⟨m'', hfill', hbytes⟩ := hl.fill hs hhi halign hfree
    obtain rfl := Option.some.inj (hfill.symm.trans hfill')
    exact Or.inr ⟨σ', a', heq, hmaps.congr_bytes hbytes, hs.grows hmaps.grows, hcard⟩

/-- A page loop that succeeds has mapped its first page, and goes on from there. -/
theorem LoadsSegment.next (hhi : va.toNat < seg.mapEnd.toNat) {entryMapped' : Bool}
    (hok : loadPages pml4 image imageSize bias ph seg (n + 1) va entryMapped σ =
      .ok (entryMapped', σ')) :
    ∃ σ₁ a₁, mapFreshPage (fillPage image imageSize ph seg va) pml4 va seg.flags σ = .ok σ₁ ∧
      Maps user root k (pageRun (segmentPage m₀ image header seg) 1 va) σ a σ₁ a₁ ∧
      Sees user root k m₀ image imageSize σ₁ a₁ ∧
      loadPages pml4 image imageSize bias ph seg n (va + 4096)
        (entryMapped || entryInPage σ₁.mem image bias va) σ₁ = .ok (entryMapped', σ') := by
  rw [loadPages] at hok
  rcases hl.page h hk hroot hs hhi with ⟨σ₁, heq, -⟩ | ⟨σ₁, a₁, heq, hmaps, hs₁, -⟩
  · rw [heq] at hok
    exact absurd hok (by simp)
  · rw [heq] at hok
    exact ⟨σ₁, a₁, heq, hmaps, hs₁, hok⟩

/-- **The page loop makes the pages of the segment.** -/
theorem LoadsSegment.pages (hhi : va.toNat + 4096 * n ≤ seg.mapEnd.toNat) {entryMapped' : Bool}
    (hok : loadPages pml4 image imageSize bias ph seg n va entryMapped σ = .ok (entryMapped', σ')) :
    ∃ a', Maps user root k (pageRun (segmentPage m₀ image header seg) n va) σ a σ' a' ∧
      Sees user root k m₀ image imageSize σ' a' := by
  induction n generalizing σ a va entryMapped with
  | zero =>
    rw [loadPages, Except.ok.injEq, Prod.mk.injEq] at hok
    obtain ⟨-, rfl⟩ := hok
    exact ⟨a, Maps.nil h, hs⟩
  | succ n ih =>
    obtain ⟨hlt, -, hrest⟩ := hl.range.next_page hhi
    obtain ⟨σ₁, a₁, -, hmaps, hs₁, hok⟩ := hl.next h hk hroot hs hlt hok
    obtain ⟨a', hmaps', hs'⟩ := ih hmaps.tables hs₁ hrest hok
    exact ⟨a', hmaps.append hmaps', hs'⟩

end Segment

/-- The pages that header `i` asks for. -/
def headerPages (m : Mem) (image bias : U64) (i : ℕ) : List Mapping :=
  let header := programHeaderAt m (programHeaderAddress m image i)
  if header.type ≠ elfPtLoad ∨ header.memorySize = 0 then []
  else match segmentOf bias header with
    | none => []
    | some seg => pageRun (segmentPage m image header seg) seg.pages seg.mapStart

/-- Program header `i` of an image. -/
abbrev programHeader (m : Mem) (image : U64) (i : ℕ) : Elf64ProgramHeader :=
  programHeaderAt m (programHeaderAddress m image i)

/-- Header `i` is a non-empty `PT_LOAD` header. -/
def Loadable (m : Mem) (image : U64) (i : ℕ) : Prop :=
  i < (headerAt m image.toNat).phnum.toNat ∧ (programHeader m image i).type = elfPtLoad ∧
    (programHeader m image i).memorySize ≠ 0

/-- One round of the header loop, on a header with a segment to load. -/
theorem loadHeaders_load (hl : Loadable σ.mem image i) :
    loadHeaders pml4 image imageSize bias (n + 1) i entryMapped σ =
      match segmentOf bias (programHeader σ.mem image i) with
      | none => .error σ
      | some seg =>
        match loadPages pml4 image imageSize bias (programHeaderAddress σ.mem image i) seg seg.pages
          seg.mapStart entryMapped σ with
        | .error σ => .error σ
        | .ok (entryMapped, σ) =>
          loadHeaders pml4 image imageSize bias n (i + 1) entryMapped σ := by
  obtain ⟨hi, htype, hsize⟩ := hl
  rw [loadHeaders, if_neg (by omega)]
  dsimp only
  refine (if_neg (not_or.2 ⟨not_not.2 htype, hsize⟩)).trans ?_
  cases segmentOf bias (programHeader σ.mem image i) with
  | none => rfl
  | some seg => rfl

theorem mem_headerPages {pg : Mapping} (hi : i < (headerAt m image.toNat).phnum.toNat) :
    pg ∈ headerPages m image bias i ↔ Loadable m image i ∧
      ∃ seg, segmentOf bias (programHeader m image i) = some seg ∧
        ∃ t < seg.pages, pg = segmentPage m image (programHeader m image i) seg
          (seg.mapStart + BitVec.ofNat 64 (4096 * t)) := by
  unfold headerPages
  dsimp only
  split_ifs with hskip
  · refine iff_of_false (by simp) fun ⟨hl, _⟩ => ?_
    exact absurd hskip (not_or.2 ⟨not_not.2 hl.2.1, hl.2.2⟩)
  · rw [not_or, not_not] at hskip
    cases segmentOf bias (programHeader m image i) with
    | none => exact iff_of_false (by simp) (by simp)
    | some seg =>
      dsimp only
      rw [mem_pageRun]
      exact ⟨fun h => ⟨⟨hi, hskip⟩, seg, rfl, h⟩, fun ⟨_, seg', heq, h⟩ => by
        obtain rfl := Option.some.inj heq
        exact h⟩

theorem ValidImage.loadsSegment (hv : ValidImage m₀ image imageSize)
    (hi : Loadable m₀ image i) (hseg : segmentOf bias (programHeader m₀ image i) = some seg) :
    LoadsSegment m₀ image imageSize bias (programHeaderAddress m₀ image i)
      (programHeader m₀ image i) seg :=
  ⟨fun hsame => (hsame.header_eq hv hi.1).2, segmentOf_spec hseg, (hv.segment i hi.1 hi.2.1).1,
    (hv.segment i hi.1 hi.2.1).2⟩

/-- The whole page range of a segment is made of its pages. -/
theorem SegmentOf.pages_le (hr : SegmentOf bias header seg) :
    seg.mapStart.toNat % 4096 = 0 ∧ seg.mapStart.toNat + 4096 * seg.pages = seg.mapEnd.toNat := by
  have h₁ := hr.mapStart
  have h₂ := hr.mapEnd
  have h₃ := hr.nonempty
  unfold Segment.pages
  omega

theorem headerPages_of_not_loadable (hi : i < (headerAt m image.toNat).phnum.toNat)
    (hl : ¬ Loadable m image i) : headerPages m image bias i = [] := by
  rw [headerPages, if_pos]
  by_contra hskip
  rw [not_or, not_not] at hskip
  exact hl ⟨hi, hskip⟩

theorem headerPages_of_segment (hl : Loadable m image i)
    (hseg : segmentOf bias (programHeader m image i) = some seg) :
    headerPages m image bias i =
      pageRun (segmentPage m image (programHeader m image i) seg) seg.pages seg.mapStart := by
  rw [headerPages, if_neg (not_or.2 ⟨not_not.2 hl.2.1, hl.2.2⟩), hseg]

/-- The pages from header `i` on are those of header `i`, then the others. -/
theorem flatMap_headerPages (hi : i < (headerAt m image.toNat).phnum.toNat) :
    (List.range' i ((headerAt m image.toNat).phnum.toNat - i)).flatMap (headerPages m image bias) =
      headerPages m image bias i ++
        (List.range' (i + 1) ((headerAt m image.toNat).phnum.toNat - (i + 1))).flatMap
          (headerPages m image bias) := by
  rw [show (headerAt m image.toNat).phnum.toNat - i =
    (headerAt m image.toNat).phnum.toNat - (i + 1) + 1 by
    omega, List.range'_succ, List.flatMap_cons]

/-- From header `i` on, the pages of the image have been made and every segment
has passed the range checks. -/
structure LoadedFrom (user : κ → Prop) (root : κ → Option ℕ) (k : κ) (m₀ : Mem)
    (image imageSize bias : U64) (i : ℕ) (σ : Phys) (a : PageSets) (σ' : Phys) : Prop where
  pages : ∃ a', Maps user root k
    ((List.range' i ((headerAt m₀ image.toNat).phnum.toNat - i)).flatMap
    (headerPages m₀ image bias)) σ a σ' a' ∧ Sees user root k m₀ image imageSize σ' a'
  segments : ∀ j, i ≤ j → Loadable m₀ image j →
    ∃ seg, segmentOf bias (programHeader m₀ image j) = some seg

theorem LoadedFrom.done (h : Tables user root σ a) (hs : Sees user root k m₀ image imageSize σ a)
    (hle : (headerAt m₀ image.toNat).phnum.toNat ≤ i) :
    LoadedFrom user root k m₀ image imageSize bias i σ a σ := by
  refine ⟨⟨a, ?_, hs⟩, fun j hj hload => ?_⟩
  · rw [Nat.sub_eq_zero_of_le hle]
    exact Maps.nil h
  · have := hload.1
    omega

theorem LoadedFrom.cons (hi : i < (headerAt m₀ image.toNat).phnum.toNat)
    (hmaps : Maps user root k (headerPages m₀ image bias i) σ a σ' a') (hseg : Loadable m₀ image i →
      ∃ seg, segmentOf bias (programHeader m₀ image i) = some seg)
    {σ'' : Phys} (h : LoadedFrom user root k m₀ image imageSize bias (i + 1) σ' a' σ'') :
    LoadedFrom user root k m₀ image imageSize bias i σ a σ'' := by
  obtain ⟨⟨a'', hmaps', hs⟩, hsegs⟩ := h
  refine ⟨⟨a'', ?_, hs⟩, fun j hj hload => ?_⟩
  · rw [flatMap_headerPages hi]
    exact hmaps.append hmaps'
  · rcases eq_or_ne j i with rfl | hne
    · exact hseg hload
    · exact hsegs j (by omega) hload

/-- One round of the header loop on an image that stays as it is: it is done, it passes over the
header, the segment is refused, or its pages are loaded. -/
theorem ValidImage.loadHeaders_cases (hv : ValidImage m₀ image imageSize)
    (hsame : SameImage image imageSize m₀ σ.mem) (pml4 bias : U64) (n i : ℕ) (entryMapped : Bool) :
    ((headerAt m₀ image.toNat).phnum.toNat ≤ i ∧
      loadHeaders pml4 image imageSize bias (n + 1) i entryMapped σ = .ok (entryMapped, σ)) ∨
    (i < (headerAt m₀ image.toNat).phnum.toNat ∧ ¬ Loadable m₀ image i ∧
      loadHeaders pml4 image imageSize bias (n + 1) i entryMapped σ =
        loadHeaders pml4 image imageSize bias n (i + 1) entryMapped σ) ∨
    (Loadable m₀ image i ∧ segmentOf bias (programHeader m₀ image i) = none ∧
      loadHeaders pml4 image imageSize bias (n + 1) i entryMapped σ = .error σ) ∨
    ∃ seg, Loadable m₀ image i ∧ segmentOf bias (programHeader m₀ image i) = some seg ∧
      ((∃ σ₁, loadPages pml4 image imageSize bias (programHeaderAddress m₀ image i) seg seg.pages
          seg.mapStart entryMapped σ = .error σ₁ ∧
        loadHeaders pml4 image imageSize bias (n + 1) i entryMapped σ = .error σ₁) ∨
      ∃ entryMapped₁ σ₁, loadPages pml4 image imageSize bias (programHeaderAddress m₀ image i) seg
          seg.pages seg.mapStart entryMapped σ = .ok (entryMapped₁, σ₁) ∧
        loadHeaders pml4 image imageSize bias (n + 1) i entryMapped σ =
          loadHeaders pml4 image imageSize bias n (i + 1) entryMapped₁ σ₁) := by
  rw [loadHeaders]
  obtain ⟨hnum, -⟩ := hsame.header hv.header
  rw [hnum]
  rcases Nat.lt_or_ge i (headerAt m₀ image.toNat).phnum.toNat with hi | hle
  · obtain ⟨haddr, hheader⟩ := hsame.header_eq hv hi
    rw [if_neg (by omega), haddr]
    dsimp only
    rw [hheader]
    rcases Decidable.em ((programHeader m₀ image i).type ≠ elfPtLoad ∨
      (programHeader m₀ image i).memorySize = 0) with hskip | hload
    · rw [if_pos hskip]
      refine Or.inr (Or.inl ⟨hi, fun hl => ?_, rfl⟩)
      exact absurd hskip (not_or.2 ⟨not_not.2 hl.2.1, hl.2.2⟩)
    · rw [if_neg hload]
      rw [not_or, not_not] at hload
      have hl : Loadable m₀ image i := ⟨hi, hload⟩
      cases hseg : segmentOf bias (programHeader m₀ image i) with
      | none => exact Or.inr (Or.inr (Or.inl ⟨hl, rfl, rfl⟩))
      | some seg =>
        refine Or.inr (Or.inr (Or.inr ⟨seg, hl, rfl, ?_⟩))
        dsimp only
        cases loadPages pml4 image imageSize bias (programHeaderAddress m₀ image i) seg seg.pages
            seg.mapStart entryMapped σ with
        | error σ₁ => exact Or.inl ⟨σ₁, rfl, rfl⟩
        | ok r => exact Or.inr ⟨r.1, r.2, rfl, rfl⟩
  · exact Or.inl ⟨hle, if_pos hle⟩

variable (h : Tables user root σ a) (hk : user k) (hroot : root k = some pml4.toNat)
  (hs : Sees user root k m₀ image imageSize σ a)

include h hk hroot hs

/-- **The header loop makes the pages of the image**, header by header. -/
theorem ValidImage.headers (hv : ValidImage m₀ image imageSize) (hn : 2 ^ 16 ≤ n + i)
    {entryMapped' : Bool}
    (hok : loadHeaders pml4 image imageSize bias n i entryMapped σ = .ok (entryMapped', σ')) :
    LoadedFrom user root k m₀ image imageSize bias i σ a σ' := by
  have hphnum := (headerAt m₀ image.toNat).phnum.isLt
  induction n generalizing σ a i entryMapped with
  | zero =>
    rw [loadHeaders, Except.ok.injEq, Prod.mk.injEq] at hok
    obtain ⟨-, rfl⟩ := hok
    exact LoadedFrom.done h hs (by omega)
  | succ n ih =>
    rcases hv.loadHeaders_cases hs.same pml4 bias n i entryMapped with
      ⟨hle, heq⟩ | ⟨hi, hl, heq⟩ | ⟨-, -, heq⟩ | ⟨seg, hl, hseg,
        ⟨σ₁, -, heq⟩ | ⟨b, σ₁, hpages, heq⟩⟩
    · rw [heq, Except.ok.injEq, Prod.mk.injEq] at hok
      obtain ⟨-, rfl⟩ := hok
      exact LoadedFrom.done h hs hle
    · refine LoadedFrom.cons hi ?_ (fun hload => absurd hload hl) (ih h hs (by omega) (heq ▸ hok))
      rw [headerPages_of_not_loadable hi hl]
      exact Maps.nil h
    · exact absurd (heq.symm.trans hok) (by simp)
    · exact absurd (heq.symm.trans hok) (by simp)
    · have hsegment := hv.loadsSegment hl hseg
      obtain ⟨a₁, hmaps, hs₁⟩ := hsegment.pages h hk hroot hs hsegment.range.pages_le.2.le hpages
      refine LoadedFrom.cons hl.1 ?_ (fun _ => ⟨seg, hseg⟩)
        (ih hmaps.tables hs₁ (by omega) (heq ▸ hok))
      rw [headerPages_of_segment hl hseg]
      exact hmaps

/-- **Loading an image that stays as it is.**  When `elf64_load_image` succeeds
it has made the pages of the image, and answers with the entry point. -/
theorem elf64LoadImage_maps {e : U64}
    (hok : elf64LoadImage σ pml4 image imageSize = (some e, σ')) :
    e = loadBias m₀ image + (headerAt m₀ image.toNat).entry ∧
      LoadedFrom user root k m₀ image imageSize (loadBias m₀ image) 0 σ a σ' := by
  obtain ⟨hvalid, hload, rfl⟩ := elf64LoadImage_some.1 hok
  have hv := (elf64Validate_spec hvalid).congr hs.same
  rw [hs.same.loadBias_eq hv.header] at hload ⊢
  have hloaded := hv.headers h hk hroot hs (show 2 ^ 16 ≤ 2 ^ 16 + 0 from le_rfl) hload
  obtain ⟨a', -, hs'⟩ := hloaded.pages
  obtain ⟨-, -, -, -, hentry⟩ := hs'.same.header hv.header
  rw [hentry]
  exact ⟨rfl, hloaded⟩

end Loops

end SuiraBox.Exec
