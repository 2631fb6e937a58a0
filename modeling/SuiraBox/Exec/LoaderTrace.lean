/-
# Where the loader reads and writes

`elf64_validate` and `elf64_load_image` once more, with what they do recorded: the
bytes of the image that they read, by their index; the bytes that they write, by the
offset in the page that has just been allocated; the additions and subtractions on the
fields of the headers; and the two ways out in the middle of a page (`return -1` on
lines 78 and 90 of `kernel/elf_loader.c`), after which that page would be lost.

The image is a string of bytes that nothing changes, `m` from `image` on.  The load
bias is a difference that may wrap around, and the entry point adds it back; these two
are not recorded.

On an image that nothing writes to while it is loaded, the values are those of the
plain model (`elf64LoadImageTraced_value`).
-/

import SuiraBox.Library.Trace
import SuiraBox.Exec.Image

namespace SuiraBox.Exec

open ByteMem Forest Mm Trace

/-- What the loader does. -/
inductive LoaderAccess
  | read (index n : ℕ)
  | write (offset : ℕ)
  | add (x y : U64)
  | sub (x y : U64)
  | giveUp

def add64 (x y : U64) : Traced LoaderAccess U64 := tell (.add x y) (x + y)

def sub64 (x y : U64) : Traced LoaderAccess U64 := tell (.sub x y) (x - y)

/-- `u64_add_overflow` and `range_end`, recorded: the sum is formed if it does not overflow. -/
def rangeEndTraced (a b : U64) : Traced LoaderAccess (Option U64) :=
  match rangeEnd a b with
  | none => pure none
  | some c => tell (.add a b) (some c)

/-- The fields of the header. -/
def loadHeader (m : Mem) (image : U64) : Traced LoaderAccess Elf64Header where
  value := headerAt m image.toNat
  events := [.read 0 6, .read 16 2, .read 18 2, .read 20 4, .read 24 8, .read 32 8, .read 52 2,
    .read 54 2, .read 56 2]

/-- The fields of the program header at an index. -/
def loadProgramHeader (m : Mem) (image : U64) (ph : ℕ) :
    Traced LoaderAccess Elf64ProgramHeader where
  value := programHeaderAt m (image.toNat + ph)
  events := [.read ph 4, .read (ph + 4) 4, .read (ph + 8) 8, .read (ph + 16) 8, .read (ph + 32) 8,
    .read (ph + 40) 8]

/-- The index of program header `i`. -/
def programHeaderIndexTraced (m : Mem) (image : U64) (i : ℕ) : Traced LoaderAccess ℕ := do
  let header ← loadHeader m image
  let offset ← add64 header.phoff (BitVec.ofNat 64 i * header.phentsize.setWidth 64)
  pure offset.toNat

/-! ### Validation -/

/-- The table of program headers, recorded. -/
def tableInsideTraced (header : Elf64Header) (size : U64) : Traced LoaderAccess Bool :=
  if header.phnum = 0 then pure true
  else
    onSome (rangeEndTraced header.phoff (header.phentsize.setWidth 64 * header.phnum.setWidth 64))
      false fun phEnd => pure (!(size < phEnd))

/-- One round of the loop of `elf64_validate`, recorded. -/
def acceptedTraced (ph : Elf64ProgramHeader) (size : U64) : Traced LoaderAccess Bool :=
  if ph.type ≠ elfPtLoad then pure true
  else if ph.memorySize < ph.fileSize then pure false
  else onSome (rangeEndTraced ph.offset ph.fileSize) false fun fileEnd => pure (!(size < fileEnd))

/-- The loop of `elf64_validate` from header `i` on, with `n` headers to go, recorded. -/
def validateHeadersTraced (m : Mem) (image size : U64) : ℕ → ℕ → Traced LoaderAccess Bool
  | 0, _ => pure true
  | n + 1, i => do
    let index ← programHeaderIndexTraced m image i
    let ph ← loadProgramHeader m image index
    let ok ← acceptedTraced ph size
    if ok then validateHeadersTraced m image size n (i + 1) else pure false

/-- `elf64_validate`, recorded. -/
def elf64ValidateTraced (m : Mem) (image size : U64) : Traced LoaderAccess Bool :=
  if image = 0 ∨ size < 64 then pure false
  else do
    let header ← loadHeader m image
    if header.accepted then do
      let inside ← tableInsideTraced header size
      if inside then validateHeadersTraced m image size header.phnum.toNat 0 else pure false
    else pure false

/-! ### Loading -/

/-- The range checks of the loader for one segment, recorded. -/
def segmentOfTraced (bias : U64) (ph : Elf64ProgramHeader) : Traced LoaderAccess (Option Segment) :=
  onSome (rangeEndTraced bias ph.virtualAddress) none fun virtualStart =>
    onSome (rangeEndTraced virtualStart ph.memorySize) none fun virtualEnd =>
      if virtualStart < userBase ∨ userLimit < virtualEnd ∨ virtualEnd ≤ virtualStart then pure none
      else if uint64Max - 4095 < virtualEnd.toNat then pure none
      else do
        let sum ← add64 virtualEnd 4095
        pure (some ⟨virtualStart, virtualEnd, alignDown virtualStart, sum &&& ~~~4095,
          segmentFlags ph⟩)

/-- The clearing loop, recorded. -/
def zeroBytesTraced (m : Mem) (page : ℕ) : ℕ → Traced LoaderAccess Mem
  | 0 => pure m
  | n + 1 => do
    let m ← zeroBytesTraced m page n
    tell (.write n) (write8 m (page + n) 0)

/-- The copying loop, recorded: `n` bytes of the image from index `src` on, to offset `dst` of
the page. -/
def copyBytesTraced (bytes : ℕ → U8) (m : Mem) (page dst src : ℕ) : ℕ → Traced LoaderAccess Mem
  | 0 => pure m
  | n + 1 => do
    let m ← copyBytesTraced bytes m page dst src n
    let byte ← tell (.read (src + n) 1) (bytes (src + n))
    tell (.write (dst + n)) (write8 m (page + dst + n) byte)

/-- The copy of file bytes into the cleared page for `va`, recorded; `m₀` holds the image. -/
def fillPageTraced (m₀ : Mem) (image imageSize : U64) (ph : ℕ) (seg : Segment) (va : U64) (m : Mem)
    (page : U64) : Traced LoaderAccess (Option Mem) := do
  let header ← loadProgramHeader m₀ image ph
  match ← rangeEndTraced header.offset header.fileSize with
  | none => tell .giveUp none
  | some segmentFileEnd =>
    let segmentFileStart := header.offset
    let pageEnd ← add64 va 4096
    if va < seg.virtualEnd ∧ seg.virtualStart < pageEnd then
      let copyStart := if seg.virtualStart < va then va else seg.virtualStart
      let fileEnd ← add64 seg.virtualStart header.fileSize
      let copyEnd := if pageEnd < fileEnd then pageEnd else fileEnd
      if copyStart < copyEnd ∧ seg.virtualStart ≤ copyStart ∧ copyEnd ≤ fileEnd then
        let skipped ← sub64 copyStart seg.virtualStart
        let pageFileStart ← add64 segmentFileStart skipped
        let reached ← sub64 copyEnd seg.virtualStart
        let pageFileEnd ← add64 segmentFileStart reached
        if pageFileStart < segmentFileStart ∨ segmentFileEnd < pageFileEnd ∨
            imageSize < pageFileEnd then tell .giveUp none
        else
          let dstOffset ← sub64 copyStart va
          let n ← sub64 pageFileEnd pageFileStart
          let m ← copyBytesTraced (fun i => m₀ (image.toNat + i)) m page.toNat dstOffset.toNat
            pageFileStart.toNat n.toNat
          pure (some m)
      else pure (some m)
    else pure (some m)

/-- One round of the page loop, recorded. -/
def mapFreshPageTraced (fill : Mem → U64 → Traced LoaderAccess (Option Mem)) (pml4 va flags : U64)
    (σ : Phys) : Traced LoaderAccess (Except Phys Phys) :=
  let (page, pmm) := pmmAllocPage bootstrapLimit σ.pmm
  if page = 0 then pure (.error { σ with pmm := pmm })
  else do
    let m ← zeroBytesTraced σ.mem page.toNat 4096
    onSome (fill m page) (.error ⟨m, pmm⟩) fun m =>
      let (rc, σ) := addressSpaceMapUser ⟨m, pmm⟩ pml4 va page flags
      pure
        (if rc ≠ 0 then .error { σ with pmm := pmmFreePage bootstrapLimit σ.pmm page } else .ok σ)

/-- The page loop, recorded. -/
def loadPagesTraced (m : Mem) (pml4 image imageSize bias : U64) (ph : ℕ) (seg : Segment) :
    ℕ → U64 → Bool → Phys → Traced LoaderAccess (Except Phys (Bool × Phys))
  | 0, _, entryMapped, σ => pure (.ok (entryMapped, σ))
  | n + 1, va, entryMapped, σ => do
    match ← mapFreshPageTraced (fillPageTraced m image imageSize ph seg va) pml4 va seg.flags σ with
    | .error σ => pure (.error σ)
    | .ok σ =>
      let header ← loadHeader m image
      let pageEnd ← add64 va 4096
      let entryVirtual := bias + header.entry
      loadPagesTraced m pml4 image imageSize bias ph seg n pageEnd
        (entryMapped || decide (va ≤ entryVirtual ∧ entryVirtual < pageEnd)) σ

/-- The header loop, recorded. -/
def loadHeadersTraced (m : Mem) (pml4 image imageSize bias : U64) :
    ℕ → ℕ → Bool → Phys → Traced LoaderAccess (Except Phys (Bool × Phys))
  | 0, _, entryMapped, σ => pure (.ok (entryMapped, σ))
  | n + 1, i, entryMapped, σ => do
    let header ← loadHeader m image
    if header.phnum.toNat ≤ i then pure (.ok (entryMapped, σ))
    else
      let index ← programHeaderIndexTraced m image i
      let ph ← loadProgramHeader m image index
      if ph.type ≠ elfPtLoad ∨ ph.memorySize = 0 then
        loadHeadersTraced m pml4 image imageSize bias n (i + 1) entryMapped σ
      else
        onSome (segmentOfTraced bias ph) (.error σ) fun seg => do
          match ← loadPagesTraced m pml4 image imageSize bias index seg seg.pages seg.mapStart
            entryMapped σ with
          | .error σ => pure (.error σ)
          | .ok (entryMapped, σ) =>
            loadHeadersTraced m pml4 image imageSize bias n (i + 1) entryMapped σ

/-- `elf64_load_image`, recorded. -/
def elf64LoadImageTraced (m : Mem) (σ : Phys) (pml4 image imageSize : U64) :
    Traced LoaderAccess (Option U64 × Phys) := do
  let valid ← elf64ValidateTraced m image imageSize
  if valid then do
    let header ← loadHeader m image
    let bias := if header.type = elfTypeDyn then userBase - alignDown header.entry else 0
    match ← loadHeadersTraced m pml4 image imageSize bias (2 ^ 16) 0 false σ with
    | .error σ => pure (none, σ)
    | .ok (entryMapped, σ) =>
      if entryMapped then pure (some (bias + header.entry), σ) else pure (none, σ)
  else pure (none, σ)

/-! ### Every step is bounded -/

section Bounded

variable {size : ℕ} {m : Mem} {image imageSize bias va : U64} {ph : ℕ} {seg : Segment}

@[simp] theorem value_add64 (x y : U64) : (add64 x y).value = x + y := rfl

@[simp] theorem value_sub64 (x y : U64) : (sub64 x y).value = x - y := rfl

@[simp] theorem value_loadHeader (m : Mem) (image : U64) :
    (loadHeader m image).value = headerAt m image.toNat := rfl

@[simp] theorem value_loadProgramHeader (m : Mem) (image : U64) (ph : ℕ) :
    (loadProgramHeader m image ph).value = programHeaderAt m (image.toNat + ph) := rfl

@[simp] theorem value_rangeEndTraced (a b : U64) : (rangeEndTraced a b).value = rangeEnd a b := by
  unfold rangeEndTraced
  cases rangeEnd a b with
  | none => rfl
  | some c => rfl

theorem value_programHeaderIndexTraced (m : Mem) (image : U64) (i : ℕ) :
    image.toNat + (programHeaderIndexTraced m image i).value = programHeaderAddress m image i := rfl

@[simp] theorem value_tableInsideTraced (header : Elf64Header) (size : U64) :
    (tableInsideTraced header size).value = header.tableInside size := by
  unfold tableInsideTraced Elf64Header.tableInside
  rw [value_ite, value_onSome, value_rangeEndTraced, rangeEnd]
  cases u64AddOverflow header.phoff (header.phentsize.setWidth 64 * header.phnum.setWidth 64) with
  | none => rfl
  | some phEnd => rfl

@[simp] theorem value_acceptedTraced (ph : Elf64ProgramHeader) (size : U64) :
    (acceptedTraced ph size).value = ph.accepted size := by
  unfold acceptedTraced Elf64ProgramHeader.accepted
  rw [value_ite, value_ite, value_onSome, value_rangeEndTraced, rangeEnd]
  cases u64AddOverflow ph.offset ph.fileSize with
  | none => rfl
  | some fileEnd => rfl

theorem value_validateHeadersTraced (m : Mem) (image size : U64) (n i : ℕ) :
    (validateHeadersTraced m image size n i).value =
      (List.range' i n).all fun j => (programHeader m image j).accepted size := by
  induction n generalizing i with
  | zero => rfl
  | succ n ih =>
    rw [validateHeadersTraced, List.range'_succ, List.all_cons]
    simp only [value_bind, value_acceptedTraced, value_loadProgramHeader,
      value_programHeaderIndexTraced, value_ite, ih, value_pure]
    cases (programHeader m image i).accepted size with
    | false => rfl
    | true => rfl

/-- The recording of `elf64_validate` gives its result. -/
theorem value_elf64ValidateTraced (m : Mem) (image size : U64) :
    (elf64ValidateTraced m image size).value = elf64Validate m image size := by
  unfold elf64ValidateTraced elf64Validate
  rw [value_ite]
  refine if_congr Iff.rfl rfl ?_
  rw [value_bind, value_ite, value_bind, value_ite, value_tableInsideTraced,
    value_validateHeadersTraced, ← List.range_eq_range', value_loadHeader]
  dsimp only
  cases (headerAt m image.toNat).accepted with
  | false => rfl
  | true =>
    cases (headerAt m image.toNat).tableInside size with
    | false => rfl
    | true => rfl

@[simp] theorem value_segmentOfTraced (bias : U64) (ph : Elf64ProgramHeader) :
    (segmentOfTraced bias ph).value = segmentOf bias ph := by
  unfold segmentOfTraced segmentOf alignUpChecked
  rw [value_onSome, value_rangeEndTraced]
  cases rangeEnd bias ph.virtualAddress with
  | none => rfl
  | some virtualStart =>
    rw [Option.elim_some, value_onSome, value_rangeEndTraced]
    dsimp only [Option.bind_eq_bind, Option.bind_some]
    cases rangeEnd virtualStart ph.memorySize with
    | none => rfl
    | some virtualEnd =>
      rw [Option.elim_some, value_ite, value_ite]
      dsimp only [Option.bind_some]
      split_ifs
      · rfl
      · rfl
      · rfl

@[simp] theorem value_zeroBytesTraced (m : Mem) (page n : ℕ) :
    (zeroBytesTraced m page n).value = zeroBytes m page n := by
  induction n with
  | zero => rfl
  | succ n ih => rw [zeroBytesTraced, value_bind, value_tell, ih, zeroBytes]

end Bounded

/-! ### The values are those of the plain model -/

section Values

variable {κ : Type*} {user : κ → Prop} {root : κ → Option ℕ} {k : κ} {σ : Phys} {a : PageSets}
  {m₀ m : Mem} {pml4 image imageSize bias : U64} {ph : ℕ} {seg : Segment}

/-- A copy to a page that the image has no byte in. -/
theorem value_copyBytesTraced (hsame : SameImage image imageSize m₀ m) {page : ℕ}
    (halign : page % 4096 = 0) (hapart : ∀ x, InImage image imageSize x → x / 4096 ≠ page / 4096)
    {dst src n : ℕ} (hdst : dst + n ≤ 4096) (hsrc : src + n ≤ imageSize.toNat) :
    (copyBytesTraced (fun i => m₀ (image.toNat + i)) m page dst src n).value =
      copyBytes m (page + dst) (image.toNat + src) n := by
  induction n with
  | zero => rfl
  | succ n ih =>
    have hin : InImage image imageSize (image.toNat + src + n) := ⟨by omega, by omega⟩
    have hbyte : copyBytes m (page + dst) (image.toNat + src) n (image.toNat + src + n) =
        m₀ (image.toNat + (src + n)) := by
      rw [← Nat.add_assoc, ← hsame _ hin]
      have := hapart _ hin
      exact copyBytes_of_outside m (by omega)
    rw [copyBytesTraced, value_bind, value_bind, value_tell, value_tell, ih (by omega) (by omega),
      copyBytes, hbyte]

/-- The recording of a page's fill is the fill, as long as the image is not overwritten. -/
theorem value_fillPageTraced {va page : U64}
    (hl : LoadsSegment m₀ image imageSize bias (image.toNat + ph)
      (programHeaderAt m₀ (image.toNat + ph)) seg) (hsame : SameImage image imageSize m₀ m)
    (hva : va.toNat + 4096 < 2 ^ 64) (halign : page.toNat % 4096 = 0)
    (hapart : ∀ x, InImage image imageSize x → x / 4096 ≠ page.toNat / 4096) :
    (fillPageTraced m₀ image imageSize ph seg va m page).value =
      fillPage image imageSize (image.toNat + ph) seg va m page := by
  have hsize := imageSize.isLt
  have hlast := seg.virtualEnd.isLt
  have hend := hl.inside
  have hstop := hl.range.stop
  have hfile := hl.file
  unfold fillPageTraced fillPage
  rw [value_bind, value_loadProgramHeader, hl.reads hsame]
  clear hl
  generalize programHeaderAt m₀ (image.toNat + ph) = header at hend hstop hfile ⊢
  rw [value_bind, value_rangeEndTraced]
  dsimp only
  cases rangeEnd header.offset header.fileSize with
  | none => rfl
  | some fileEnd =>
    dsimp only
    rw [value_bind, value_add64, value_ite]
    refine if_congr Iff.rfl ?_ rfl
    rw [value_bind, value_add64]
    generalize hstart : (if seg.virtualStart < va then va else seg.virtualStart) = copyStart
    generalize hstopc : (if va + 4096 < seg.virtualStart + header.fileSize then va + 4096
      else seg.virtualStart + header.fileSize) = copyEnd
    rw [value_ite]
    rcases Decidable.em (copyStart < copyEnd ∧ seg.virtualStart ≤ copyStart ∧
      copyEnd ≤ seg.virtualStart + header.fileSize) with hcopy | hnone
    · rw [if_pos hcopy, if_pos hcopy]
      have hlt : copyStart.toNat < copyEnd.toNat := hcopy.1
      obtain ⟨hcs, hce, hwindow⟩ :=
        copyWindow_spec header.offset hva (by omega) (by omega) hstart hstopc
      obtain ⟨-, -, hfs, -⟩ := hwindow hcopy.1
      obtain ⟨hlower, hupper, hdst, hlen⟩ := copyWindow_inside header.offset hstart hstopc hcopy.1
      rw [value_bind, value_bind, value_bind, value_bind, value_ite]
      refine if_congr Iff.rfl rfl (congrArg some ?_)
      simp only [value_sub64, value_add64]
      exact value_copyBytesTraced hsame halign hapart (by omega) (by omega)
    · rw [if_neg hnone, if_neg hnone]
      rfl

/-- One round of the page loop, for a way to fill free pages. -/
theorem value_mapFreshPageTraced {fill : Mem → U64 → Traced LoaderAccess (Option Mem)}
    {fill' : Mem → U64 → Option Mem} (h : Tables user root σ a) (va flags : U64)
    (hfill : ∀ page, page.toNat % 4096 = 0 → page.toNat / 4096 ∈ a.free →
      (fill (zeroBytes σ.mem page.toNat 4096) page).value =
        fill' (zeroBytes σ.mem page.toNat 4096) page) :
    (mapFreshPageTraced fill pml4 va flags σ).value = mapFreshPage fill' pml4 va flags σ := by
  unfold mapFreshPageTraced mapFreshPage
  dsimp only
  rcases h.refines.allocPage_cases with ⟨-, halloc⟩ | ⟨c, hc, -, hpage, -⟩
  · rw [halloc]
    rfl
  · generalize pmmAllocPage bootstrapLimit σ.pmm = r at hpage ⊢
    obtain ⟨page, pmm⟩ := r
    dsimp only at hpage ⊢
    rw [value_ite]
    refine if_congr Iff.rfl rfl ?_
    rw [value_bind, value_onSome, value_zeroBytesTraced,
      hfill page (by omega) (by rwa [hpage, Nat.mul_div_cancel_left _ (by decide)])]
    cases fill' (zeroBytes σ.mem page.toNat 4096) page with
    | none => rfl
    | some m' => rfl

/-- The page loop. -/
theorem value_loadPagesTraced (hheader : 64 ≤ imageSize.toNat)
    (hl : LoadsSegment m₀ image imageSize bias (image.toNat + ph)
      (programHeaderAt m₀ (image.toNat + ph)) seg) (h : Tables user root σ a) (hk : user k)
    (hroot : root k = some pml4.toNat) (hs : Sees user root k m₀ image imageSize σ a) {n : ℕ}
    {va : U64} (hhi : va.toNat + 4096 * n ≤ seg.mapEnd.toNat) (entryMapped : Bool) :
    (loadPagesTraced m₀ pml4 image imageSize bias ph seg n va entryMapped σ).value =
      loadPages pml4 image imageSize bias (image.toNat + ph) seg n va entryMapped σ := by
  induction n generalizing σ a va entryMapped with
  | zero => rfl
  | succ n ih =>
    obtain ⟨hlt, hroom, hrest⟩ := hl.range.next_page hhi
    rw [loadPagesTraced, loadPages, value_bind,
      value_mapFreshPageTraced h va seg.flags fun page halign hfree => ?_]
    · rcases hl.page h hk hroot hs hlt with ⟨σ₁, heq, -⟩ | ⟨σ₁, a₁, heq, hmaps, hs₁, -⟩
      · rw [heq]
        rfl
      · rw [heq]
        dsimp only
        obtain ⟨-, -, -, -, hentry⟩ := hs₁.same.header hheader
        rw [value_bind, value_bind, value_add64, ih hmaps.tables hs₁ hrest, entryInPage, hentry]
        rfl
    · have hapart : ∀ x, InImage image imageSize x → x / 4096 ≠ page.toNat / 4096 :=
        fun x hx he => (hs.apart x hx).1 (he ▸ hfree)
      refine value_fillPageTraced hl (fun x hx => ?_) hroom halign hapart
      rw [zeroBytes_page halign, if_neg (hapart x hx)]
      exact hs.same x hx

/-- The header loop. -/
theorem value_loadHeadersTraced (hv : ValidImage m₀ image imageSize) (h : Tables user root σ a)
    (hk : user k) (hroot : root k = some pml4.toNat) (hs : Sees user root k m₀ image imageSize σ a)
    (n i : ℕ) (entryMapped : Bool) :
    (loadHeadersTraced m₀ pml4 image imageSize bias n i entryMapped σ).value =
      loadHeaders pml4 image imageSize bias n i entryMapped σ := by
  induction n generalizing σ a i entryMapped with
  | zero => rfl
  | succ n ih =>
    obtain ⟨hnum, -⟩ := hs.same.header hv.header
    rw [loadHeadersTraced, loadHeaders, value_bind, value_loadHeader, value_ite, hnum]
    rcases Nat.lt_or_ge i (headerAt m₀ image.toNat).phnum.toNat with hi | hle
    · obtain ⟨haddr, hheader⟩ := hs.same.header_eq hv hi
      rw [if_neg (by omega), if_neg (by omega), haddr]
      dsimp only
      rw [hheader, value_bind, value_bind, value_loadProgramHeader, value_programHeaderIndexTraced,
        value_ite]
      rcases Decidable.em ((programHeader m₀ image i).type ≠ elfPtLoad ∨
        (programHeader m₀ image i).memorySize = 0) with hskip | hload
      · rw [if_pos hskip, if_pos hskip]
        exact ih h hs _ _
      · rw [if_neg hload, if_neg hload, value_onSome, value_segmentOfTraced]
        rw [not_or, not_not] at hload
        cases hseg : segmentOf bias (programHeader m₀ image i) with
        | none => rfl
        | some seg =>
          have hl := hv.loadsSegment ⟨hi, hload⟩ hseg
          obtain ⟨-, hend⟩ := hl.range.pages_le
          have hpages : (loadPagesTraced m₀ pml4 image imageSize bias
              (programHeaderIndexTraced m₀ image i).value seg seg.pages seg.mapStart entryMapped
              σ).value =
              loadPages pml4 image imageSize bias (programHeaderAddress m₀ image i) seg seg.pages
                seg.mapStart entryMapped σ :=
            value_loadPagesTraced hv.header hl h hk hroot hs hend.le entryMapped
          rw [Option.elim_some, value_bind, hpages]
          clear hpages
          dsimp only
          cases hpages : loadPages pml4 image imageSize bias (programHeaderAddress m₀ image i) seg
              seg.pages seg.mapStart entryMapped σ with
          | error σ₁ => rfl
          | ok r =>
            obtain ⟨a₁, hmaps, hs₁⟩ := hl.pages h hk hroot hs hend.le hpages
            exact ih hmaps.tables hs₁ _ _
    · rw [if_pos hle, if_pos hle]
      rfl

/-- **The recorded loader is the loader**, on an image that nothing writes to while it is
loaded. -/
theorem elf64LoadImageTraced_value (h : Tables user root σ a) (hk : user k)
    (hroot : root k = some pml4.toNat) (hs : Sees user root k σ.mem image imageSize σ a) :
    (elf64LoadImageTraced σ.mem σ pml4 image imageSize).value =
      elf64LoadImage σ pml4 image imageSize := by
  unfold elf64LoadImageTraced elf64LoadImage
  rw [value_bind, value_ite, value_elf64ValidateTraced]
  cases hvalid : elf64Validate σ.mem image imageSize with
  | false => rfl
  | true =>
    have hv := elf64Validate_spec hvalid
    rw [if_pos rfl, if_neg (by decide), value_bind, value_bind, value_loadHeader,
      value_loadHeadersTraced hv h hk hroot hs]
    dsimp only
    generalize hbias : (if (headerAt σ.mem image.toNat).type = elfTypeDyn then
      userBase - alignDown (headerAt σ.mem image.toNat).entry else 0) = bias
    obtain rfl : loadBias σ.mem image = bias := hbias
    cases hload : loadHeaders pml4 image imageSize (loadBias σ.mem image) (2 ^ 16) 0 false σ with
    | error σ₁ => rfl
    | ok r =>
      obtain ⟨entryMapped, σ₁⟩ := r
      obtain ⟨a', -, hs'⟩ :=
        (hv.headers h hk hroot hs (show 2 ^ 16 ≤ 2 ^ 16 + 0 from le_rfl) hload).pages
      obtain ⟨-, -, -, -, hentry⟩ := hs'.same.header hv.header
      dsimp only
      rw [value_ite, hentry]
      cases entryMapped with
      | false => rfl
      | true => rfl

end Values

end SuiraBox.Exec
