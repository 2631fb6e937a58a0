/-
# The ELF loader

`kernel/elf.c` checks an image, `kernel/elf_loader.c` maps its `PT_LOAD`
segments into a user address space.  The image lies in the same physical memory
as the pages the loader writes to, and nothing keeps the two apart: every field
of a header is read from memory at the point where the code reads it.

Both header structures are packed, of 64 and 56 bytes; `headerAt` and
`programHeaderAt` have the offsets.  `return -1` in the middle of the loader
leaves what has been done so far in place; it is `.error` with that state.
-/

import SuiraBox.Exec.FreshPages

namespace SuiraBox.Exec

open ByteMem Forest Mm

/-- `sb_elf64_header_t`, the fields that the code looks at. -/
structure Elf64Header where
  ident : ℕ → U8
  type : U16
  machine : U16
  version : U32
  entry : U64
  phoff : U64
  ehsize : U16
  phentsize : U16
  phnum : U16

/-- `sb_elf64_program_header_t`, the fields that the code looks at. -/
structure Elf64ProgramHeader where
  type : U32
  flags : U32
  offset : U64
  virtualAddress : U64
  fileSize : U64
  memorySize : U64
deriving DecidableEq

/-- The header at an address. -/
def headerAt (m : Mem) (image : ℕ) : Elf64Header where
  ident i := m (image + i)
  type := read16 m (image + 16)
  machine := read16 m (image + 18)
  version := read32 m (image + 20)
  entry := read64 m (image + 24)
  phoff := read64 m (image + 32)
  ehsize := read16 m (image + 52)
  phentsize := read16 m (image + 54)
  phnum := read16 m (image + 56)

/-- The program header at an address. -/
def programHeaderAt (m : Mem) (ph : ℕ) : Elf64ProgramHeader where
  type := read32 m ph
  flags := read32 m (ph + 4)
  offset := read64 m (ph + 8)
  virtualAddress := read64 m (ph + 16)
  fileSize := read64 m (ph + 32)
  memorySize := read64 m (ph + 40)

/-- The address of program header `i`: `image + phoff + i * phentsize`. -/
def programHeaderAddress (m : Mem) (image : U64) (i : ℕ) : ℕ :=
  let header := headerAt m image.toNat
  image.toNat + (header.phoff + BitVec.ofNat 64 i * header.phentsize.setWidth 64).toNat

/-- `UINT64_MAX`. -/
def uint64Max : ℕ := 2 ^ 64 - 1

/-- `u64_add_overflow`: the sum, or `none` if it overflows. -/
def u64AddOverflow (a b : U64) : Option U64 :=
  if uint64Max - a.toNat < b.toNat then none else some (a + b)

/-- `SB_ELF_MAGIC`. -/
def elfMagic : U32 := 0x464C457F

/-- `SB_ELF_TYPE_EXEC`. -/
def elfTypeExec : U16 := 2

/-- `SB_ELF_TYPE_DYN`. -/
def elfTypeDyn : U16 := 3

/-- `SB_ELF_PT_LOAD`. -/
def elfPtLoad : U32 := 1

/-- The first four bytes of the header as one word. -/
def Elf64Header.magic (header : Elf64Header) : U32 :=
  (header.ident 0).setWidth 32 ||| (header.ident 1).setWidth 32 <<< 8 |||
    (header.ident 2).setWidth 32 <<< 16 ||| (header.ident 3).setWidth 32 <<< 24

/-- The fields of a header that `elf64_validate` accepts. -/
def Elf64Header.accepted (header : Elf64Header) : Bool :=
  !(header.magic ≠ elfMagic ∨ header.ident 4 ≠ 2 ∨ header.ident 5 ≠ 1 ∨ header.machine ≠ 62 ∨
    (header.type ≠ elfTypeExec ∧ header.type ≠ elfTypeDyn) ∨ header.version ≠ 1 ∨
    header.ehsize < 64 ∨ header.phentsize < 56)

/-- The table of program headers lies inside the image. -/
def Elf64Header.tableInside (header : Elf64Header) (size : U64) : Bool :=
  if header.phnum = 0 then true
  else
    match u64AddOverflow header.phoff (header.phentsize.setWidth 64 * header.phnum.setWidth 64) with
    | none => false
    | some phEnd => !(size < phEnd)

/-- One round of the loop of `elf64_validate`. -/
def Elf64ProgramHeader.accepted (ph : Elf64ProgramHeader) (size : U64) : Bool :=
  if ph.type ≠ elfPtLoad then true
  else if ph.memorySize < ph.fileSize then false
  else match u64AddOverflow ph.offset ph.fileSize with
    | none => false
    | some fileEnd => !(size < fileEnd)

/-- `elf64_validate`, `true` for the return value `0`; the header it gives back
is the image itself. -/
def elf64Validate (m : Mem) (image size : U64) : Bool :=
  if image = 0 ∨ size < 64 then false
  else
    let header := headerAt m image.toNat
    header.accepted && header.tableInside size &&
      (List.range header.phnum.toNat).all fun i =>
        (programHeaderAt m (programHeaderAddress m image i)).accepted size

/-- `align_down`. -/
def alignDown (value : U64) : U64 := value &&& ~~~4095

/-- `align_up_checked`: the next page address, or `none` if it overflows. -/
def alignUpChecked (value : U64) : Option U64 :=
  if uint64Max - 4095 < value.toNat then none else some ((value + 4095) &&& ~~~4095)

/-- `range_end`: the sum, or `none` if it overflows. -/
def rangeEnd (start size : U64) : Option U64 := u64AddOverflow start size

/-- `PF_X`. -/
def pfX : U32 := 1

/-- `PF_W`. -/
def pfW : U32 := 2

/-- The flags a segment's pages are mapped with. -/
def segmentFlags (ph : Elf64ProgramHeader) : U64 :=
  let flags := vmmUser
  let flags := if ph.flags &&& pfW ≠ 0 then flags ||| vmmWritable else flags
  if ph.flags &&& pfX = 0 then flags ||| vmmNx else flags

/-- `load_bias`. -/
def loadBias (m : Mem) (image : U64) : U64 :=
  let header := headerAt m image.toNat
  if header.type = elfTypeDyn then userBase - alignDown header.entry else 0

/-- The local variables of the loader for one segment. -/
structure Segment where
  virtualStart : U64
  virtualEnd : U64
  mapStart : U64
  mapEnd : U64
  flags : U64

/-- The range checks of the loader for one segment. -/
def segmentOf (bias : U64) (ph : Elf64ProgramHeader) : Option Segment := do
  let virtualStart ← rangeEnd bias ph.virtualAddress
  let virtualEnd ← rangeEnd virtualStart ph.memorySize
  if virtualStart < userBase ∨ userLimit < virtualEnd ∨ virtualEnd ≤ virtualStart then none
  else
    let mapEnd ← alignUpChecked virtualEnd
    return ⟨virtualStart, virtualEnd, alignDown virtualStart, mapEnd, segmentFlags ph⟩

/-- The copy of file bytes into the cleared page for `va`; `ph` is the address of
the program header. -/
def fillPage (image imageSize : U64) (ph : ℕ) (seg : Segment) (va : U64) (m : Mem) (page : U64) :
    Option Mem :=
  let header := programHeaderAt m ph
  match rangeEnd header.offset header.fileSize with
  | none => none
  | some segmentFileEnd =>
    let segmentFileStart := header.offset
    if va < seg.virtualEnd ∧ seg.virtualStart < va + 4096 then
      let copyStart := if seg.virtualStart < va then va else seg.virtualStart
      let copyEnd := if va + 4096 < seg.virtualStart + header.fileSize then va + 4096
        else seg.virtualStart + header.fileSize
      if copyStart < copyEnd ∧ seg.virtualStart ≤ copyStart ∧
          copyEnd ≤ seg.virtualStart + header.fileSize then
        let pageFileStart := segmentFileStart + (copyStart - seg.virtualStart)
        let pageFileEnd := segmentFileStart + (copyEnd - seg.virtualStart)
        if pageFileStart < segmentFileStart ∨ segmentFileEnd < pageFileEnd ∨
            imageSize < pageFileEnd then none
        else some (copyBytes m (page.toNat + (copyStart - va).toNat)
          (image.toNat + pageFileStart.toNat) (pageFileEnd - pageFileStart).toNat)
      else some m
    else some m

/-- The test that sets `entry_mapped`. -/
def entryInPage (m : Mem) (image bias va : U64) : Bool :=
  let entryVirtual := bias + (headerAt m image.toNat).entry
  va ≤ entryVirtual ∧ entryVirtual < va + 4096

/-- The page loop of `elf64_load_image`: `n` rounds from `va` on, with
`entry_mapped`. -/
def loadPages (pml4 image imageSize bias : U64) (ph : ℕ) (seg : Segment) :
    ℕ → U64 → Bool → Phys → Except Phys (Bool × Phys)
  | 0, _, entryMapped, σ => .ok (entryMapped, σ)
  | n + 1, va, entryMapped, σ =>
    match mapFreshPage (fillPage image imageSize ph seg va) pml4 va seg.flags σ with
    | .error σ => .error σ
    | .ok σ => loadPages pml4 image imageSize bias ph seg n (va + 4096)
        (entryMapped || entryInPage σ.mem image bias va) σ

/-- The rounds of the page loop: both ends are page addresses and `map_end` is
the larger. -/
def Segment.pages (seg : Segment) : ℕ := (seg.mapEnd.toNat - seg.mapStart.toNat) / 4096

/-- The header loop of `elf64_load_image` from header `i` on.  The bound
`phnum` is read in every round; it has 16 bits, so `n` rounds from
`2 ^ 16 - n` on are enough. -/
def loadHeaders (pml4 image imageSize bias : U64) :
    ℕ → ℕ → Bool → Phys → Except Phys (Bool × Phys)
  | 0, _, entryMapped, σ => .ok (entryMapped, σ)
  | n + 1, i, entryMapped, σ =>
    if (headerAt σ.mem image.toNat).phnum.toNat ≤ i then .ok (entryMapped, σ)
    else
      let ph := programHeaderAddress σ.mem image i
      let header := programHeaderAt σ.mem ph
      if header.type ≠ elfPtLoad ∨ header.memorySize = 0 then
        loadHeaders pml4 image imageSize bias n (i + 1) entryMapped σ
      else match segmentOf bias header with
        | none => .error σ
        | some seg =>
          match loadPages pml4 image imageSize bias ph seg seg.pages seg.mapStart entryMapped σ with
          | .error σ => .error σ
          | .ok (entryMapped, σ) => loadHeaders pml4 image imageSize bias n (i + 1) entryMapped σ

/-- `elf64_load_image`: the entry point, or `none` for `-1`. -/
def elf64LoadImage (σ : Phys) (pml4 image imageSize : U64) : Option U64 × Phys :=
  if !elf64Validate σ.mem image imageSize then (none, σ)
  else
    let bias := loadBias σ.mem image
    match loadHeaders pml4 image imageSize bias (2 ^ 16) 0 false σ with
    | .error σ => (none, σ)
    | .ok (entryMapped, σ) =>
      if !entryMapped then (none, σ) else (some (bias + (headerAt σ.mem image.toNat).entry), σ)

/-! ### Arithmetic of the checks -/

theorem u64AddOverflow_eq_some {a b c : U64} :
    u64AddOverflow a b = some c ↔ a.toNat + b.toNat = c.toNat := by
  have hc := c.isLt
  rw [u64AddOverflow, uint64Max]
  split_ifs with h
  · refine iff_of_false (by simp) fun heq => ?_
    bv_omega
  · rw [Option.some.injEq]
    constructor
    · rintro rfl
      bv_omega
    · intro heq
      bv_omega

theorem toNat_alignDown (v : U64) : (alignDown v).toNat = v.toNat / 4096 * 4096 :=
  Words.toNat_and_not_low v (show 12 ≤ 64 by decide) rfl

/-- Rounding up to a page. -/
theorem alignUpChecked_spec {v c : U64} (h : alignUpChecked v = some c) :
    c.toNat = (v.toNat + 4095) / 4096 * 4096 := by
  unfold alignUpChecked at h
  split_ifs at h with hov
  obtain rfl := Option.some.inj h
  have hmax : uint64Max = 18446744073709551615 := rfl
  have hsum : (v + 4095).toNat = v.toNat + 4095 := by bv_omega
  exact (toNat_alignDown (v + 4095)).trans (by rw [hsum])

/-- What the range checks let through, in unbounded numbers. -/
structure SegmentOf (bias : U64) (ph : Elf64ProgramHeader) (seg : Segment) : Prop where
  start : seg.virtualStart.toNat = bias.toNat + ph.virtualAddress.toNat
  stop : seg.virtualEnd.toNat = seg.virtualStart.toNat + ph.memorySize.toNat
  lower : userBase.toNat ≤ seg.virtualStart.toNat
  upper : seg.virtualEnd.toNat ≤ userLimit.toNat
  nonempty : seg.virtualStart.toNat < seg.virtualEnd.toNat
  mapStart : seg.mapStart.toNat = seg.virtualStart.toNat / 4096 * 4096
  mapEnd : seg.mapEnd.toNat = (seg.virtualEnd.toNat + 4095) / 4096 * 4096
  flags : seg.flags = segmentFlags ph

/-- A page of a segment that has `n` more pages behind it. -/
theorem SegmentOf.next_page {bias va : U64} {ph : Elf64ProgramHeader} {seg : Segment} {n : ℕ}
    (hr : SegmentOf bias ph seg) (h : va.toNat + 4096 * (n + 1) ≤ seg.mapEnd.toNat) :
    va.toNat < seg.mapEnd.toNat ∧ va.toNat + 4096 < 2 ^ 64 ∧
      (va + 4096).toNat + 4096 * n ≤ seg.mapEnd.toNat := by
  have hlimit : userLimit.toNat = 2 ^ 47 := rfl
  have hupper := hr.upper
  have hmapEnd := hr.mapEnd
  have hnext : (va + 4096).toNat = va.toNat + 4096 := by bv_omega
  omega

/-- The page range of a segment, in numbers. -/
theorem segmentOf_spec {bias : U64} {ph : Elf64ProgramHeader} {seg : Segment}
    (h : segmentOf bias ph = some seg) : SegmentOf bias ph seg := by
  unfold segmentOf rangeEnd at h
  simp only [Option.bind_eq_bind, Option.bind_eq_some_iff, Option.pure_def] at h
  obtain ⟨virtualStart, hstart, virtualEnd, hstop, h⟩ := h
  split_ifs at h with hrange
  obtain ⟨mapEnd, hmap, h⟩ := Option.bind_eq_some_iff.1 h
  obtain rfl := Option.some.inj h
  rw [u64AddOverflow_eq_some] at hstart hstop
  simp only [not_or, BitVec.le_def, BitVec.lt_def, not_lt, not_le] at hrange
  exact ⟨hstart.symm, hstop.symm, hrange.1, hrange.2.1, hrange.2.2, toNat_alignDown _,
    alignUpChecked_spec hmap, rfl⟩

/-- The copied window is a part of the page for `va`. -/
theorem copyWindow_inside {va start fileEnd copyStart copyEnd : U64} (offset : U64)
    (hstart : (if start < va then va else start) = copyStart)
    (hstop : (if va + 4096 < fileEnd then va + 4096 else fileEnd) = copyEnd)
    (hcopy : copyStart < copyEnd) :
    va.toNat ≤ copyStart.toNat ∧ copyEnd.toNat ≤ va.toNat + 4096 ∧
      (copyStart - va).toNat = copyStart.toNat - va.toNat ∧
      (offset + (copyEnd - start) - (offset + (copyStart - start))).toNat =
        copyEnd.toNat - copyStart.toNat := by
  have hlower : va.toNat ≤ copyStart.toNat := by
    subst hstart
    split_ifs <;> bv_omega
  have hupper : copyEnd.toNat ≤ va.toNat + 4096 := by
    subst hstop
    split_ifs <;> bv_omega
  refine ⟨hlower, hupper, by bv_omega, ?_⟩
  simp only [BitVec.toNat_sub, BitVec.toNat_add, BitVec.lt_def] at *
  omega

/-- Filling a page writes to no other page, whatever the headers have become. -/
theorem fillPage_inside {image imageSize va : U64} {ph : ℕ} {seg : Segment} :
    FillsInside (fillPage image imageSize ph seg va) := by
  intro m page m' halign h x hx
  unfold fillPage at h
  dsimp only at h
  cases hend : rangeEnd (programHeaderAt m ph).offset (programHeaderAt m ph).fileSize with
  | none =>
    rw [hend] at h
    exact absurd h (by simp)
  | some segmentFileEnd =>
    rw [hend] at h
    dsimp only at h
    generalize (programHeaderAt m ph).offset = offset at h
    generalize seg.virtualStart + (programHeaderAt m ph).fileSize = fileEnd at h
    generalize hstart : (if seg.virtualStart < va then va else seg.virtualStart) = copyStart at h
    generalize hstop : (if va + 4096 < fileEnd then va + 4096 else fileEnd) = copyEnd at h
    by_cases hwin : va < seg.virtualEnd ∧ seg.virtualStart < va + 4096
    · rw [if_pos hwin] at h
      split_ifs at h with hcopy
      · obtain rfl := Option.some.inj h
        obtain ⟨hlower, hupper, hdst, hlen⟩ := copyWindow_inside offset hstart hstop hcopy.1
        refine copyBytes_of_outside m ?_
        rw [hlen, hdst]
        omega
      · exact congrFun (Option.some.inj h).symm x
    · rw [if_neg hwin] at h
      exact congrFun (Option.some.inj h).symm x

/-! ### What the loader does to the machine, for any bytes -/

/-- The state a loop of the loader leaves, either way. -/
def finalState : Except Phys (Bool × Phys) → Phys
  | .error σ => σ
  | .ok (_, σ) => σ

/-- A loop that keeps `P` on every way leaves a state with `P`. -/
theorem Ends.final {P : Phys → Prop} {r : Except Phys (Bool × Phys)} (h : Ends Prod.snd P P r) :
    P (finalState r) := by
  cases r with
  | error σ => exact h
  | ok r => exact h

section Loops

variable {P Q : Phys → Prop} {σ σ' : Phys} {pml4 image imageSize bias : U64}
  (hpages : KeptByPages pml4 P Q)

include hpages in
/-- The page loop keeps what its rounds keep. -/
theorem loadPages_ends {ph n : ℕ} {seg : Segment} {va : U64} {entryMapped : Bool} (h : P σ) :
    Ends Prod.snd P Q (loadPages pml4 image imageSize bias ph seg n va entryMapped σ) := by
  induction n generalizing σ va entryMapped with
  | zero => exact h
  | succ n ih =>
    have hpage : Ends id P Q (mapFreshPage (fillPage image imageSize ph seg va) pml4 va _ σ) :=
      hpages fillPage_inside va seg.flags h
    rw [loadPages]
    split <;> rename_i heq <;> rw [heq] at hpage
    · exact hpage
    · exact ih hpage

include hpages in
/-- So does the header loop. -/
theorem loadHeaders_ends (hgive : ∀ {σ}, P σ → Q σ) {n i : ℕ} {entryMapped : Bool} (h : P σ) :
    Ends Prod.snd P Q (loadHeaders pml4 image imageSize bias n i entryMapped σ) := by
  induction n generalizing σ i entryMapped with
  | zero => exact h
  | succ n ih =>
    unfold loadHeaders
    dsimp only
    split_ifs with hdone hskip
    · exact h
    · exact ih h
    · cases segmentOf bias (programHeaderAt σ.mem (programHeaderAddress σ.mem image i)) with
      | none => exact hgive h
      | some seg =>
        have hloop : Ends Prod.snd P Q (loadPages pml4 image imageSize bias
            (programHeaderAddress σ.mem image i) seg seg.pages seg.mapStart entryMapped σ) :=
          loadPages_ends hpages h
        dsimp only
        split <;> rename_i heq <;> rw [heq] at hloop
        · exact hloop
        · exact ih hloop

end Loops

section Load

variable {σ σ' : Phys} {pml4 image imageSize : U64}

/-- A load that succeeds has found a valid image and has come to the entry point. -/
theorem elf64LoadImage_some {e : U64} : elf64LoadImage σ pml4 image imageSize = (some e, σ') ↔
    elf64Validate σ.mem image imageSize = true ∧
    loadHeaders pml4 image imageSize (loadBias σ.mem image) (2 ^ 16) 0 false σ = .ok (true, σ') ∧
    e = loadBias σ.mem image + (headerAt σ'.mem image.toNat).entry := by
  unfold elf64LoadImage
  cases elf64Validate σ.mem image imageSize with
  | false => exact iff_of_false (by simp) (by simp)
  | true =>
    rw [if_neg (by decide)]
    dsimp only
    cases loadHeaders pml4 image imageSize (loadBias σ.mem image) (2 ^ 16) 0 false σ with
    | error σ₁ => exact iff_of_false (by simp) (by simp)
    | ok r =>
      obtain ⟨entryMapped, σ₁⟩ := r
      cases entryMapped with
      | false => exact iff_of_false (by simp) (by simp)
      | true =>
        rw [and_iff_right rfl]
        constructor
        · intro heq
          obtain ⟨he, rfl⟩ := Prod.mk.inj heq
          exact ⟨rfl, (Option.some.inj he).symm⟩
        · rintro ⟨hok, rfl⟩
          obtain ⟨-, rfl⟩ := Prod.mk.inj (Except.ok.inj hok)
          rfl

/-- What is left of memory when the headers have been gone through. -/
theorem elf64LoadImage_snd (hvalid : elf64Validate σ.mem image imageSize = true) :
    (elf64LoadImage σ pml4 image imageSize).2 =
      finalState (loadHeaders pml4 image imageSize (loadBias σ.mem image) (2 ^ 16) 0 false σ) := by
  rw [elf64LoadImage, hvalid, if_neg (by decide)]
  dsimp only
  cases loadHeaders pml4 image imageSize (loadBias σ.mem image) (2 ^ 16) 0 false σ with
  | error σ' => rfl
  | ok r =>
    dsimp only
    split_ifs
    · rfl
    · rfl

/-- **Loading is growth.**  Whatever the image holds and wherever it lies,
`elf64_load_image` does no more than let its own address space grow. -/
theorem elf64LoadImage_grown {κ : Type*} {user : κ → Prop} {root : κ → Option ℕ} {k : κ}
    {a : PageSets} (h : Tables user root σ a) (hk : user k) (hroot : root k = some pml4.toNat)
    (image imageSize : U64) : Grown user root k σ a (elf64LoadImage σ pml4 image imageSize).2 := by
  rcases Bool.eq_false_or_eq_true (elf64Validate σ.mem image imageSize) with hvalid | hvalid
  · rw [elf64LoadImage_snd hvalid]
    exact (loadHeaders_ends (keptByPages_grown hk hroot) id (Grown.refl h)).final
  · rw [elf64LoadImage, hvalid, if_pos (by decide)]
    exact Grown.refl h

end Load

end SuiraBox.Exec
