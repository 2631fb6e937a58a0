/-
# The link address of position-independent images

An `ET_DYN` image linked `shift` bytes higher, a multiple of the page size, differs in
its entry point and in the virtual addresses of its `PT_LOAD` headers.  The load bias
takes the difference back, so both images come to lie in the same place, page by page,
as long as the bias is a difference that has not wrapped around.  Where the page of the
entry point is moved above `SB_USER_BASE` the higher image is refused.

What a process finds at an address is its byte and its permissions, `userView`.
-/

import SuiraBox.Exec.Acceptance

namespace SuiraBox.Exec

open ByteMem Forest Mm

/-- The bytes of the fields that hold link addresses: the entry point, and the virtual addresses of
the `PT_LOAD` headers. -/
def LinkField (m : Mem) (image : U64) (x : ℕ) : Prop :=
  (image.toNat + 24 ≤ x ∧ x < image.toNat + 32) ∨
    ∃ i < (headerAt m image.toNat).phnum.toNat, (programHeader m image i).type = elfPtLoad ∧
      programHeaderAddress m image i + 16 ≤ x ∧ x < programHeaderAddress m image i + 24

/-- The image in `m'` is the image in `m`, linked `shift` higher; nothing else is different. -/
structure Shifted (m m' : Mem) (image shift : U64) : Prop where
  ident : ∀ i < 6, m' (image.toNat + i) = m (image.toNat + i)
  type : (headerAt m' image.toNat).type = (headerAt m image.toNat).type
  machine : (headerAt m' image.toNat).machine = (headerAt m image.toNat).machine
  version : (headerAt m' image.toNat).version = (headerAt m image.toNat).version
  entry : (headerAt m' image.toNat).entry = (headerAt m image.toNat).entry + shift
  phoff : (headerAt m' image.toNat).phoff = (headerAt m image.toNat).phoff
  ehsize : (headerAt m' image.toNat).ehsize = (headerAt m image.toNat).ehsize
  phentsize : (headerAt m' image.toNat).phentsize = (headerAt m image.toNat).phentsize
  phnum : (headerAt m' image.toNat).phnum = (headerAt m image.toNat).phnum
  headers : ∀ i < (headerAt m image.toNat).phnum.toNat, programHeader m' image i =
    if (programHeader m image i).type = elfPtLoad then
      { programHeader m image i with
        virtualAddress := (programHeader m image i).virtualAddress + shift }
    else programHeader m image i
  other : ∀ x, ¬ LinkField m image x → m' x = m x

section View

variable {κ : Type*} {user : κ → Prop} {root : κ → Option ℕ} {k : κ} {σ σ' : Phys} {a a' : PageSets}
  {pml4 va : U64} {pages : List Mapping}

end View

section Sums

end Sums

section Shift

variable {m m' : Mem} {image imageSize shift : U64} {i : ℕ}

/-- All fields of a program header but the virtual address. -/
theorem Shifted.fields (hs : Shifted m m' image shift)
    (hi : i < (headerAt m image.toNat).phnum.toNat) :
    (programHeader m' image i).type = (programHeader m image i).type ∧
    (programHeader m' image i).flags = (programHeader m image i).flags ∧
    (programHeader m' image i).offset = (programHeader m image i).offset ∧
    (programHeader m' image i).fileSize = (programHeader m image i).fileSize ∧
    (programHeader m' image i).memorySize = (programHeader m image i).memorySize := by
  rw [hs.headers i hi]
  split_ifs
  · exact ⟨rfl, rfl, rfl, rfl, rfl⟩
  · exact ⟨rfl, rfl, rfl, rfl, rfl⟩

/-- Their addresses are moved. -/
theorem Shifted.virtualAddress (hs : Shifted m m' image shift) (hl : Loadable m image i) :
    (programHeader m' image i).virtualAddress =
      (programHeader m image i).virtualAddress + shift := by
  rw [hs.headers i hl.1, if_pos hl.2.1]

/-- `elf64_validate` does not look at link addresses. -/
theorem Shifted.validate (hs : Shifted m m' image shift) :
    elf64Validate m' image imageSize = elf64Validate m image imageSize := by
  have haccepted : (headerAt m' image.toNat).accepted = (headerAt m image.toNat).accepted := by
    have hident : ∀ j < 6, (headerAt m' image.toNat).ident j = (headerAt m image.toNat).ident j :=
      hs.ident
    rw [Elf64Header.accepted, Elf64Header.accepted, Elf64Header.magic, Elf64Header.magic,
      hident 0 (by decide), hident 1 (by decide), hident 2 (by decide), hident 3 (by decide),
      hident 4 (by decide), hident 5 (by decide), hs.machine, hs.type, hs.version, hs.ehsize,
      hs.phentsize]
  have htable : (headerAt m' image.toNat).tableInside imageSize =
      (headerAt m image.toNat).tableInside imageSize := by
    rw [Elf64Header.tableInside, Elf64Header.tableInside, hs.phnum, hs.phoff, hs.phentsize]
  have hall : ((List.range (headerAt m image.toNat).phnum.toNat).all fun i =>
      (programHeader m' image i).accepted imageSize) =
      (List.range (headerAt m image.toNat).phnum.toNat).all fun i =>
        (programHeader m image i).accepted imageSize := by
    rw [Bool.eq_iff_iff, List.all_eq_true, List.all_eq_true]
    refine forall₂_congr fun i hi => ?_
    obtain ⟨htype, -, hoffset, hfile, hsize⟩ := hs.fields (List.mem_range.1 hi)
    rw [Elf64ProgramHeader.accepted, Elf64ProgramHeader.accepted, htype, hoffset, hfile, hsize]
  unfold elf64Validate
  refine if_congr Iff.rfl rfl ?_
  dsimp only
  rw [haccepted, htable, hs.phnum, hall]

variable (hs : Shifted m m' image shift) (hdyn : (headerAt m image.toNat).type = elfTypeDyn)
  (hpage : shift.toNat % 4096 = 0)

include hs hdyn hpage

/-- The bias takes the shift back, if the page of the entry point stays below `SB_USER_BASE`. -/
theorem Shifted.loadBias_add
    (hlow : (headerAt m image.toNat).entry.toNat / 4096 * 4096 + shift.toNat ≤ 2 ^ 39) :
    (loadBias m' image).toNat + shift.toNat = (loadBias m image).toNat := by
  have hentry : (headerAt m' image.toNat).entry.toNat =
      (headerAt m image.toNat).entry.toNat + shift.toNat := by
    rw [hs.entry]
    bv_omega
  have h₁ := toNat_loadBias_dyn hdyn
  have h₂ := toNat_loadBias_dyn (hs.type.trans hdyn)
  rw [hentry] at h₂
  omega

variable (hfit : ∀ i, Loadable m image i → (programHeader m image i).virtualAddress.toNat +
    (programHeader m image i).memorySize.toNat + shift.toNat < 2 ^ 64)

include hfit

omit hdyn hpage in
theorem Shifted.toNat_virtualAddress (hl : Loadable m image i) :
    (programHeader m' image i).virtualAddress.toNat =
      (programHeader m image i).virtualAddress.toNat + shift.toNat := by
  have := hfit i hl
  rw [hs.virtualAddress hl]
  bv_omega

section Low

variable (hlow : (headerAt m image.toNat).entry.toNat / 4096 * 4096 + shift.toNat ≤ 2 ^ 39)

include hlow

/-- A segment is loaded at the same place. -/
theorem Shifted.place (hl : Loadable m image i) :
    (loadBias m' image).toNat + (programHeader m' image i).virtualAddress.toNat =
      (loadBias m image).toNat + (programHeader m image i).virtualAddress.toNat := by
  have := hs.loadBias_add hdyn hpage hlow
  rw [hs.toNat_virtualAddress hfit hl]
  omega

end Low

end Shift

section Runs

variable {σ : Phys} {m' : Mem} {pml4 image imageSize shift : U64}

end Runs

/-! ### One segment, linked at 0 and higher -/

end SuiraBox.Exec
