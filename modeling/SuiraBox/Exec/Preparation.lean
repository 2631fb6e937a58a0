/-
# Which programs can be prepared

`process_prepare_boot_module` of `kernel/process_exec.c` and `prepare_init_process` of
`kernel/kernel.c`: the way from a boot module to the first process.

The loader has its language (`elf64LoadImage_isSome_iff`).  `process_prepare_elf` maps the stack
after it, in the same address space and with what is left of the frames, so a program needs a little
more: no segment on a page of the stack, and room for the pages and tables of both
(`prepareImage_ok_iff_room`).

`prepare_init_process` takes a process, finds the image among the modules and prepares it; it undoes
the first step when another one fails.  Its result is a matter of the boot information block, of the
image and of the number of free frames (`init_process_iff`).
-/

import SuiraBox.Boot.ModuleNames
import SuiraBox.Exec.ProcessTable
import SuiraBox.Exec.Rights

namespace SuiraBox
namespace Mm

open Runs

theorem PmmReached.allocPage {s : Pmm} (h : PmmReached s) :
    PmmReached (pmmAllocPage bootstrapLimit s).2 := by
  obtain ⟨s₀, boot, calls, rfl⟩ := h
  exact ⟨s₀, boot, calls ++ [.allocPage], run_concat ..⟩

/-- The allocator hands out page 0 first, and that is the null pointer. -/
theorem Refines.allocPage_ne_zero_iff {s : Pmm} {a : PageSets} (hr : Refines bootstrapLimit s a) :
    (pmmAllocPage bootstrapLimit s).1 ≠ 0 ↔ 0 ∉ a.free ∧ 0 < a.free.card := by
  rcases hr.allocPage_cases with ⟨hempty, halloc⟩ | ⟨c, hc, hlow, hpage, -⟩
  · rw [halloc, hempty]
    exact iff_of_false (fun h => h rfl) (by simp)
  · have hzero : (pmmAllocPage bootstrapLimit s).1 = 0 ↔ c = 0 := by
      rw [← BitVec.toNat_inj, hpage, show (0 : U64).toNat = 0 from rfl]
      omega
    rw [Ne, hzero]
    refine ⟨fun hne => ⟨fun hmem => hne (Nat.le_zero.1 (hlow 0 hmem)), Finset.card_pos.2 ⟨c, hc⟩⟩,
      ?_⟩
    rintro ⟨hno, -⟩ rfl
    exact hno hc

end Mm

namespace Exec

open ByteMem Forest Mm

/-! ### The stack -/

section Stack

variable {κ : Type*} {user : κ → Prop} {root : κ → Option ℕ} {k : κ} {σ σ' : Phys} {a : PageSets}
  {pml4 va : U64} {n : ℕ}

/-- The stack loop takes free frames only. -/
theorem stackPages_taken (h : Tables user root σ a) (hk : user k) (hroot : root k = some pml4.toNat)
    (hok : stackPages pml4 n va σ = .ok σ') : FromFree user root k σ a σ' := by
  induction n generalizing σ a va with
  | zero =>
    obtain rfl := Except.ok.inj hok
    exact FromFree.refl σ a
  | succ n ih =>
    rw [stackPages] at hok
    rcases stackPage_cases h hk hroot va with ⟨σ₁, heq, -⟩ | ⟨σ₁, a₁, heq, hmaps, -⟩
    · rw [heq] at hok
      exact absurd hok (by simp)
    · obtain ⟨-, hfrom⟩ := mapFreshPage_taken h hk hroot clear_inside heq
      rw [heq] at hok
      exact hfrom.trans hmaps.grows.free_subset (ih hmaps.tables hok)

/-- With room for its pages the stack loop succeeds. -/
theorem stackPages_room (h : Tables user root σ a) (hk : user k) (hroot : root k = some pml4.toNat)
    (hroom : Room user root k σ a (pageRun stackPage n va)) :
    ∃ σ', stackPages pml4 n va σ = .ok σ' := by
  induction n generalizing σ a va with
  | zero => exact ⟨σ, rfl⟩
  | succ n ih =>
    have hfills : Fills (fun m _ => some m) σ.mem a.free := by simp [Fills]
    obtain ⟨σ₁, hok, hroom'⟩ :=
      hroom.step h hk hroot (fun _ _ _ _ heq _ _ => by rw [Option.some.inj heq]) hfills
    change mapFreshPage _ pml4 va (vmmWritable ||| vmmNx) σ = _ at hok
    rcases stackPage_cases h hk hroot va with ⟨σ₂, heq, -⟩ | ⟨σ₂, a₂, heq, hmaps, -⟩
    · exact absurd (heq.symm.trans hok) (by simp)
    · obtain rfl := Except.ok.inj (heq.symm.trans hok)
      rw [stackPages, heq]
      exact ih hmaps.tables (hroom' hmaps)

/-- The pages of the stack, by their addresses. -/
theorem mem_stack_iff {x : ℕ} : x ∈ Set.Ico userStackBottom.toNat userStackTop.toNat ↔
    ∃ pg ∈ pageRun stackPage 4 userStackBottom, pg.va.toNat = x / 4096 * 4096 := by
  rw [Set.mem_Ico, toNat_userStackBottom, toNat_userStackTop]
  constructor
  · rintro ⟨hlo, hhi⟩
    have ht : (x - 0x80000FC000) / 4096 < 4 := by omega
    refine ⟨_, mem_pageRun.2 ⟨_, ht, rfl⟩, ?_⟩
    rw [stackPage, toNat_stackPage ht]
    omega
  · rintro ⟨pg, hpg, hva⟩
    obtain ⟨t, ht, rfl⟩ := mem_pageRun.1 hpg
    rw [stackPage, toNat_stackPage ht] at hva
    omega

theorem stackPages_distinct :
    (pageRun stackPage 4 userStackBottom).Pairwise fun pg pg' => pathOf pg.va ≠ pathOf pg'.va := by
  simp only [pageRun, stackPage, List.pairwise_cons, List.mem_cons, List.not_mem_nil, or_false,
    forall_eq_or_imp, forall_eq, false_implies, implies_true, List.Pairwise.nil, and_true]
  decide

end Stack

/-! ### Programs -/

/-- A process can be made of the image: it is valid, its segments can be placed, and none of them
reaches a page of the stack. -/
structure IsProgram (m : Mem) (image imageSize : U64) : Prop where
  valid : elf64Validate m image imageSize = true
  placed : Placed m image (loadBias m image)
  stack : ∀ n, Loadable m image n →
    Disjoint (pageRange (loadBias m image).toNat (programHeader m image n))
    (Set.Ico userStackBottom.toNat userStackTop.toNat)

section Program

variable {K : Kernel} {i : Slot} {m m' : Mem} {σ : Phys} {a : PageSets} {pml4 image imageSize : U64}
  {info : ProcessImage}

/-- A program has an address and a size. -/
theorem IsProgram.args (hp : IsProgram m image imageSize) : ¬ (image = 0 ∨ imageSize = 0) := by
  intro hargs
  have hvalid := hp.valid
  rw [elf64Validate, if_pos (hargs.imp id fun hzero => by rw [hzero]; decide)] at hvalid
  exact absurd hvalid (by simp)

/-- No segment reaches the stack when the pages are different pages. -/
theorem stack_disjoint (hplaced : Placed m image (loadBias m image)) :
    (∀ n, Loadable m image n →
      Disjoint (pageRange (loadBias m image).toNat (programHeader m image n))
      (Set.Ico userStackBottom.toNat userStackTop.toNat)) ↔
    ∀ pg ∈ imagePages m image, ∀ pg' ∈ pageRun stackPage 4 userStackBottom,
      pathOf pg.va ≠ pathOf pg'.va := by
  have hlow : ∀ pg' ∈ pageRun stackPage 4 userStackBottom, pg'.va.toNat % 4096 = 0 ∧
      pg'.va.toNat < 2 ^ 48 := by
    intro pg' hpg'
    obtain ⟨t, ht, rfl⟩ := mem_pageRun.1 hpg'
    rw [stackPage, toNat_stackPage ht]
    omega
  constructor
  · intro hstack pg hpg pg' hpg' heq
    obtain ⟨n, seg, t, hl, hseg, ht, rfl⟩ := mem_imagePages.1 hpg
    have hmem := (mem_headerPages hl.1).2 ⟨hl, seg, hseg, t, ht, rfl⟩
    obtain ⟨halign, hbelow⟩ := headerPages_aligned hl.1 hmem
    obtain ⟨halign', hbelow'⟩ := hlow pg' hpg'
    have hsame := (pathOf_eq_iff hbelow hbelow').1 heq
    exact Set.disjoint_left.1 (hstack n hl)
      ((mem_pageRange (x := pg'.va.toNat) hl hseg).2 ⟨_, hmem, by omega⟩)
      (mem_stack_iff.2 ⟨pg', hpg', by omega⟩)
  · intro hne n hl
    refine Set.disjoint_left.2 fun x hx hx' => ?_
    obtain ⟨hlo, hhi⟩ := hplaced.inside n hl
    obtain ⟨seg, hseg⟩ := segmentOf_of_inside hlo hhi hl.2.2
    obtain ⟨pg, hpg, hva⟩ := (mem_pageRange hl hseg).1 hx
    obtain ⟨pg', hpg', hva'⟩ := mem_stack_iff.1 hx'
    obtain ⟨-, seg', hseg', t, ht, hpage⟩ := (mem_headerPages hl.1).1 hpg
    refine hne pg (mem_imagePages.2 ⟨n, seg', t, hl, hseg', ht, hpage⟩) pg' hpg' ?_
    rw [BitVec.eq_of_toNat_eq (hva.trans hva'.symm)]

/-- There is room for a program, with its stack, if there are enough frames. -/
theorem IsProgram.room (hp : IsProgram σ.mem image imageSize)
    (hf : FreshLoad σ pml4 image imageSize)
    (hself : ∀ {k p f}, Owns single σ.mem (singleRoot pml4) k p f → p = [] ∧ f = pml4.toNat)
    (hzero : 0 ∉ a.free) (henough : (framePaths (programPages σ.mem image)).card ≤ a.free.card) :
    Room single (singleRoot pml4) () σ a (programPages σ.mem image) := by
  have hsub : framePaths (imagePages σ.mem image) ⊆ framePaths (programPages σ.mem image) := by
    intro p hmem
    obtain ⟨pg, hpg, n, hn, rfl⟩ := mem_framePaths.1 hmem
    exact mem_framePaths.2 ⟨pg, mem_programPages.2 (Or.inl hpg), n, hn, rfl⟩
  have himage := hf.room hp.placed hself hzero ((Finset.card_le_card hsub).trans henough)
  exact {
    zero := hzero
    nonzero := himage.nonzero
    page := fun pg hpg => by
      rcases mem_programPages.1 hpg with hpg | ⟨t, ht, rfl⟩
      · exact himage.page pg hpg
      · have hva : (stackPage (userStackBottom + BitVec.ofNat 64 (4096 * t))).va.toNat =
            0x80000FC000 + 4096 * t :=
          toNat_stackPage ht
        exact userPage_of_toNat (by omega) (by omega) (by omega)
    fresh := fun pg _ f ho => absurd (hself ho).1 (by simp [pathOf])
    distinct :=
      List.pairwise_append.2 ⟨himage.distinct, stackPages_distinct,
        (stack_disjoint hp.placed).1 hp.stack⟩
    enough := (Finset.card_le_card fun _ hmem => (mem_missing.1 hmem).1).trans henough }

/-- The loader has loaded a program and has left room for the stack. -/
theorem IsProgram.load (hp : IsProgram σ.mem image imageSize)
    (h : Tables single (singleRoot pml4) σ a)
    (hs : Sees single (singleRoot pml4) () σ.mem image imageSize σ a)
    (hroom : Room single (singleRoot pml4) () σ a (programPages σ.mem image)) :
    ∃ e σ' a', elf64LoadImage σ pml4 image imageSize = (some e, σ') ∧
      Tables single (singleRoot pml4) σ' a' ∧
      Room single (singleRoot pml4) () σ' a' (pageRun stackPage 4 userStackBottom) := by
  have hroot : singleRoot pml4 () = some pml4.toNat := rfl
  have hv := elf64Validate_spec hp.valid
  have hsegs : ∀ n, Loadable σ.mem image n →
      ∃ seg, segmentOf (loadBias σ.mem image) (programHeader σ.mem image n) = some seg :=
        fun n hl =>
    segmentOf_of_inside (hp.placed.inside n hl).1 (hp.placed.inside n hl).2 hl.2.2
  obtain ⟨entryMapped, σ', a', hload, h', hroom'⟩ :=
    hv.headers_total (n := 2 ^ 16) (i := 0) h trivial hroot hs
    le_rfl (fun n _ => hsegs n) hroom false
  obtain ⟨-, -, hentry⟩ :=
    hv.headers_ok h trivial hroot hs (show 2 ^ 16 ≤ 2 ^ 16 + 0 from le_rfl) hload
  rw [Bool.false_or] at hentry
  have hmapped : entryMapped = true := hentry.trans ((any_entryInPage hsegs).2 hp.placed.entry)
  rw [hmapped] at hload
  exact ⟨_, σ', a', elf64LoadImage_some.2 ⟨hp.valid, hload, rfl⟩, h', hroom'⟩

/-- **Which programs can be prepared.**  The image is loaded and the stack mapped exactly for
programs that there is room for, if loading does not write over the image. -/
theorem prepareImage_ok_iff_room
    (h : Tables single (singleRoot (K.processes i).pml4Physical) K.phys a)
    (hnz : ∀ {p f}, Owns single K.phys.mem (singleRoot (K.processes i).pml4Physical) () p f → f ≠ 0)
    (hs : Sees single (singleRoot (K.processes i).pml4Physical)
      () K.phys.mem image imageSize K.phys a) :
    (prepareImage K i image imageSize info).1 = 0 ↔ IsProgram K.phys.mem image imageSize ∧
      Room single (singleRoot (K.processes i).pml4Physical) () K.phys a
        (programPages K.phys.mem image) := by
  have hroot : singleRoot (K.processes i).pml4Physical () =
      some (K.processes i).pml4Physical.toNat := rfl
  constructor
  · intro hok
    obtain ⟨e, σ₁, σ₂, hload, hstack, -⟩ := prepareImage_ok hok
    obtain ⟨hvalid, hplaced, -, hzero, hfrom₁, a₁, hmaps₁⟩ :=
      elf64LoadImage_placed h trivial hroot hs hload
    rw [mapUserStack, if_neg (by decide)] at hstack
    obtain ⟨a₂, hmaps₂⟩ := stackPages_maps hmaps₁.tables trivial hroot hstack
    have hfrom₂ :=
      fun {p f} => stackPages_taken hmaps₁.tables trivial hroot hstack (p := p) (f := f)
    have hmaps := hmaps₁.append hmaps₂
    have hdistinct := (List.pairwise_append.1 hmaps.distinct).2.2
    exact ⟨⟨hvalid, hplaced, (stack_disjoint hplaced).2 hdistinct⟩,
      hmaps.room (hfrom₁.trans hmaps₁.grows.free_subset hfrom₂) hzero hnz⟩
  · rintro ⟨hp, hroom⟩
    obtain ⟨e, σ₁, a₁, hload, h₁, hroom⟩ := hp.load h hs hroom
    obtain ⟨σ₂, hstack⟩ := stackPages_room h₁ trivial hroot hroom
    have hmap : mapUserStack σ₁ (K.processes i).pml4Physical userStackBottom userStackTop =
        .ok σ₂ := by
      rw [mapUserStack, if_neg (by decide)]
      exact hstack
    rw [prepareImage, hload]
    dsimp only
    rw [hmap]

/-- On a fresh address space there is room when there is a frame for each page and table. -/
theorem prepareImage_ok_iff (hf : FreshLoad K.phys (K.processes i).pml4Physical image imageSize) :
    (prepareImage K i image imageSize info).1 = 0 ↔ IsProgram K.phys.mem image imageSize ∧
      0 ∉ freeSet bootstrapLimit K.phys.pmm ∧
      (framePaths (programPages K.phys.mem image)).card ≤
        (freeSet bootstrapLimit K.phys.pmm).card := by
  obtain ⟨a, h, hfree, hself, hs⟩ := hf.sees
  have hnz : ∀ {p f}, Owns single K.phys.mem (singleRoot (K.processes i).pml4Physical) () p f →
      f ≠ 0 := by
    intro p f ho
    rw [(hself ho).2]
    exact fun hzero => hf.nonzero (BitVec.eq_of_toNat_eq hzero)
  rw [← hfree, prepareImage_ok_iff_room h hnz hs]
  refine and_congr_right fun hp => ⟨fun hroom => ⟨hroom.zero, ?_⟩, fun henough => ?_⟩
  · rw [← missing_eq_framePaths fun ho => (hself ho).1]
    exact hroom.enough
  · exact hp.room hf hself henough.1 henough.2

/-- `process_prepare_elf` on a process with a fresh address space. -/
theorem processPrepareElf_ok_iff
    (hf : FreshLoad K.phys (K.processes i).pml4Physical image imageSize) :
    (processPrepareElf K (some i) image imageSize (some info)).1 = 0 ↔
      IsProgram K.phys.mem image imageSize ∧ 0 ∉ freeSet bootstrapLimit K.phys.pmm ∧
      (framePaths (programPages K.phys.mem image)).card ≤
        (freeSet bootstrapLimit K.phys.pmm).card := by
  by_cases hargs : image = 0 ∨ imageSize = 0
  · rw [processPrepareElf, if_pos hargs]
    exact iff_of_false (by simp) fun hc => hc.1.args hargs
  · rw [not_or] at hargs
    rw [processPrepareElf_live_rc hargs.1 hargs.2 hf.nonzero]
    exact prepareImage_ok_iff hf

/-! ### The same image in another memory -/

variable (hs : SameImage image imageSize m m')

include hs

/-- `elf64_validate` looks at bytes of the image only. -/
theorem SameImage.validate (h : elf64Validate m image imageSize = true) :
    elf64Validate m' image imageSize = true := by
  have hv := elf64Validate_spec h
  have hsame : ∀ x, image.toNat ≤ x → x < image.toNat + 64 → m' x = m x := fun x hlo hhi =>
    hs x ⟨hlo, hhi.trans_le (Nat.add_le_add_left hv.header _)⟩
  obtain ⟨hphnum, hphoff, hphentsize, htype, -⟩ := hs.header hv.header
  have hident : ∀ j < 6, (headerAt m' image.toNat).ident j = (headerAt m image.toNat).ident j :=
    fun j hj =>
    hsame _ (by omega) (by omega)
  have hmachine : (headerAt m' image.toNat).machine = (headerAt m image.toNat).machine :=
    read16_congr fun x hlo hhi => hsame x (by omega) (by omega)
  have hversion : (headerAt m' image.toNat).version = (headerAt m image.toNat).version :=
    read32_congr fun x hlo hhi => hsame x (by omega) (by omega)
  have hehsize : (headerAt m' image.toNat).ehsize = (headerAt m image.toNat).ehsize :=
    read16_congr fun x hlo hhi => hsame x (by omega) (by omega)
  have haccepted : (headerAt m' image.toNat).accepted = (headerAt m image.toNat).accepted := by
    rw [Elf64Header.accepted, Elf64Header.accepted, Elf64Header.magic, Elf64Header.magic,
      hident 0 (by omega), hident 1 (by omega), hident 2 (by omega), hident 3 (by omega),
      hident 4 (by omega), hident 5 (by omega), hmachine, htype, hversion, hehsize, hphentsize]
  have htable : (headerAt m' image.toNat).tableInside imageSize =
      (headerAt m image.toNat).tableInside imageSize := by
    rw [Elf64Header.tableInside, Elf64Header.tableInside, hphnum, hphoff, hphentsize]
  unfold elf64Validate at h ⊢
  split_ifs at h ⊢
  simp only [Bool.and_eq_true, List.all_eq_true, List.mem_range] at h ⊢
  rw [haccepted, htable, hphnum]
  refine ⟨h.1, fun j hj => ?_⟩
  obtain ⟨haddress, hheader⟩ := hs.header_eq hv hj
  rw [haddress, hheader]
  exact h.2 j hj

/-- The pages of a program are the same as well. -/
theorem SameImage.programPages_eq (hv : ValidImage m image imageSize) :
    programPages m' image = programPages m image := by
  have hheaders : ∀ n < (headerAt m image.toNat).phnum.toNat,
      headerPages m' image (loadBias m image) n = headerPages m image (loadBias m image) n := by
    intro n hn
    obtain ⟨haddress, hheader⟩ := hs.header_eq hv hn
    by_cases hl : (programHeader m image n).type ≠ elfPtLoad ∨
      (programHeader m image n).memorySize = 0
    · rw [headerPages, headerPages, haddress, hheader, if_pos hl, if_pos hl]
    · have hinside := (hv.segment n hn (not_not.1 (not_or.1 hl).1)).2
      have hpage : ∀ seg, segmentPage m' image (programHeader m image n) seg =
          segmentPage m image (programHeader m image n) seg := fun seg =>
        funext fun va => congrArg _ (funext fun j => segmentByte_congr hs hinside _)
      rw [headerPages, headerPages, haddress, hheader, if_neg hl, if_neg hl]
      simp only [hpage]
  rw [programPages, programPages, imagePages, imagePages, hs.loadBias_eq hv.header,
    (hs.header hv.header).1]
  congr 1
  exact List.flatMap_congr fun n hn => hheaders n (by rw [List.mem_range'_1] at hn; omega)

/-- A program is a program wherever its image is. -/
theorem IsProgram.congr (hp : IsProgram m image imageSize) : IsProgram m' image imageSize := by
  have hv := elf64Validate_spec hp.valid
  obtain ⟨hphnum, -, -, -, hentry⟩ := hs.header hv.header
  have hheader : ∀ n < (headerAt m image.toNat).phnum.toNat,
      programHeader m' image n = programHeader m image n :=
    fun n hn => by rw [programHeader, (hs.header_eq hv hn).1, (hs.header_eq hv hn).2]
  have hl : ∀ {n}, Loadable m' image n → Loadable m image n ∧
      programHeader m' image n = programHeader m image n := by
    rintro n ⟨hn, hload⟩
    rw [hphnum] at hn
    rw [hheader n hn] at hload
    exact ⟨⟨hn, hload⟩, hheader n hn⟩
  have hl' : ∀ {n}, Loadable m image n → Loadable m' image n := by
    rintro n ⟨hn, hload⟩
    rw [Loadable, hphnum, hheader n hn]
    exact ⟨hn, hload⟩
  refine ⟨hs.validate hp.valid, ⟨fun n hn => ?_, fun n n' hn hn' hne => ?_, ?_⟩, fun n hn => ?_⟩
  · rw [hs.loadBias_eq hv.header, (hl hn).2]
    exact hp.placed.inside n (hl hn).1
  · rw [hs.loadBias_eq hv.header, (hl hn).2, (hl hn').2]
    exact hp.placed.disjoint n n' (hl hn).1 (hl hn').1 hne
  · obtain ⟨n, hn, hmem⟩ := hp.placed.entry
    refine ⟨n, hl' hn, ?_⟩
    rw [hs.loadBias_eq hv.header, hheader n hn.1, hentry]
    exact hmem
  · rw [hs.loadBias_eq hv.header, (hl hn).2]
    exact hp.stack n (hl hn).1

end Program

/-! ### The first process -/

/-- `process_prepare_boot_module`; `none` when the module finder does not come to an end. -/
def processPrepareBootModule (K : Kernel) (fuel : ℕ) (process : Option Slot)
    (multibootInfo moduleName : U64) (imageInfo : Option ProcessImage) :
    Option (ℤ × Option ProcessImage × Kernel) :=
  match Boot.multibootFindModule K.phys.mem fuel multibootInfo moduleName with
  | none => none
  | some none => some (-1, imageInfo, K)
  | some (some module) =>
    if module.stop ≤ module.start then some (-1, imageInfo, K)
    else some (processPrepareElf K process module.start (module.stop - module.start) imageInfo)

/-- `prepare_init_process`: the process, `none` for the null pointer, and what is left at `image`.
The name of the module is a string of the kernel, at `moduleName`. -/
def prepareInitProcess (K : Kernel) (fuel : ℕ) (multibootInfo moduleName : U64)
    (image : Option ProcessImage) : Option (Option Slot × Option ProcessImage × Kernel) :=
  if image.isNone then some (none, image, K)
  else
    match processCreate K 1 with
    | (none, K) => some (none, image, K)
    | (some i, K) =>
      match processPrepareBootModule K fuel (some i) multibootInfo moduleName image with
      | none => none
      | some (rc, image, K) =>
        if rc ≠ 0 then some (none, image, processDestroy K (some i))
        else
          match processCreateThread K (some i) 10001 128 with
          | (none, K) => some (none, image, processDestroy K (some i))
          | (some _, K) => some (some i, image, K)

/-- `"user-hello"`. -/
def userHello : List U8 := [117, 115, 101, 114, 45, 104, 101, 108, 108, 111]

/-- The module that is asked for, in the tags of the information block. -/
def initModule (tags : List Boot.Tag) : Option (U64 × U64) :=
  tags.findSome? (Boot.Tag.range? (· = userHello))

/-- The allocator has been set up, the information block is well formed, and the block, the name and
the module are in memory that the allocator does not hand out. -/
structure InitReady (K : Kernel) (multibootInfo moduleName : U64)
    (tags : List Boot.Tag) : Prop where
  pmm : PmmReached K.phys.pmm
  block : Boot.InfoBlock K.phys.mem multibootInfo tags
  name : Boot.NameAt K.phys.mem moduleName userHello
  blockKept : ∀ x, multibootInfo.toNat ≤ x →
    x < multibootInfo.toNat + (read32 K.phys.mem multibootInfo.toNat).toNat →
    x / 4096 ∉ freeSet bootstrapLimit K.phys.pmm
  nameKept : ∀ x, moduleName.toNat ≤ x → x ≤ moduleName.toNat + userHello.length →
    x / 4096 ∉ freeSet bootstrapLimit K.phys.pmm
  moduleKept : ∀ start stop, initModule tags = some (start, stop) →
    ∀ x, InImage start (stop - start) x → x / 4096 ∉ freeSet bootstrapLimit K.phys.pmm

/-- Only the bytes of the block and of the name count. -/
theorem InitReady.congr {K K' : Kernel} {multibootInfo moduleName : U64} {tags : List Boot.Tag}
    (h : InitReady K multibootInfo moduleName tags) (hpmm : K'.phys.pmm = K.phys.pmm)
    (hblock : ∀ x, multibootInfo.toNat ≤ x →
      x < multibootInfo.toNat + (read32 K.phys.mem multibootInfo.toNat).toNat →
      K'.phys.mem x = K.phys.mem x)
    (hname : ∀ x, moduleName.toNat ≤ x → x ≤ moduleName.toNat + userHello.length →
      K'.phys.mem x = K.phys.mem x) : InitReady K' multibootInfo moduleName tags := by
  obtain ⟨hblock', htotal⟩ := h.block.congr hblock
  refine ⟨hpmm ▸ h.pmm, hblock', ⟨h.name.notNull, h.name.fits, h.name.string.congr hname⟩,
    ?_, ?_, ?_⟩
  · rw [htotal, hpmm]
    exact h.blockKept
  · rw [hpmm]
    exact h.nameKept
  · rw [hpmm]
    exact h.moduleKept

section Create

variable {K K₁ : Kernel} {σ σ₁ : Phys} {i : Slot} {cr3 page pid image imageSize : U64}
    {info : ProcessImage}

/-- What `address_space_create` leaves to be done with: all memory but the PML4's page as it was,
one frame less, and a fresh address space. -/
theorem addressSpaceCreate_ready (hpmm : PmmReached σ.pmm)
    (hspace : addressSpaceCreate σ cr3 = (some page, σ₁)) :
    0 ∉ freeSet bootstrapLimit σ.pmm ∧ 0 ∉ freeSet bootstrapLimit σ₁.pmm ∧
    (freeSet bootstrapLimit σ₁.pmm).card + 1 = (freeSet bootstrapLimit σ.pmm).card ∧
    (∀ x, x / 4096 ∉ freeSet bootstrapLimit σ.pmm → σ₁.mem x = σ.mem x) ∧
    ∀ {image imageSize}, (∀ x, InImage image imageSize x →
      x / 4096 ∉ freeSet bootstrapLimit σ.pmm) → FreshLoad σ₁ page image imageSize := by
  obtain ⟨a, hr⟩ := hpmm.refines
  have hn := addressSpaceCreate_some hr hspace
  have hpmm₁ : PmmReached σ₁.pmm := by
    have heq := addressSpaceCreate_pmm σ cr3
    rw [hspace] at heq
    exact heq ▸ hpmm.allocPage
  have hzero : 0 ∉ a.free := fun hzero => by
    refine hn.notNull (BitVec.eq_of_toNat_eq ?_)
    have hpage := hn.lowest 0 hzero
    have halign := hn.aligned
    rw [show (0 : U64).toNat = 0 from rfl]
    omega
  have hsub : (a.take (page.toNat / 4096)).free ⊆ a.free := by
    rw [PageSets.free_take]
    exact Finset.erase_subset ..
  rw [hr.freeSet_eq, hn.refines.freeSet_eq]
  refine ⟨hzero, fun h0 => hzero (hsub h0), PageSets.card_free_take hn.free,
    fun x hx => hn.other x fun he => hx (he ▸ hn.free), fun hkept => ?_⟩
  refine ⟨hpmm₁, hn.fresh hr, hn.notNull, fun x hx =>
    ⟨fun hfree => hkept x hx ?_, fun he => hkept x hx (he ▸ hn.free)⟩⟩
  rw [hn.refines.freeSet_eq] at hfree
  exact hsub hfree

/-- **Whether a program fits into a new address space**, in terms of the machine before it was
made. -/
theorem fits_create_iff (hpmm : PmmReached σ.pmm)
    (hspace : addressSpaceCreate σ cr3 = (some page, σ₁))
    (hkept : ∀ x, InImage image imageSize x → x / 4096 ∉ freeSet bootstrapLimit σ.pmm) :
    (IsProgram σ₁.mem image imageSize ∧ 0 ∉ freeSet bootstrapLimit σ₁.pmm ∧
      (framePaths (programPages σ₁.mem image)).card ≤ (freeSet bootstrapLimit σ₁.pmm).card) ↔
    IsProgram σ.mem image imageSize ∧
      (framePaths (programPages σ.mem image)).card < (freeSet bootstrapLimit σ.pmm).card := by
  obtain ⟨-, hfree, hcard, hmem, -⟩ := addressSpaceCreate_ready hpmm hspace
  have hsame : SameImage image imageSize σ.mem σ₁.mem := fun x hx => hmem x (hkept x hx)
  constructor
  · rintro ⟨hp, -, henough⟩
    have hold := IsProgram.congr hsame.symm hp
    rw [hsame.programPages_eq (elf64Validate_spec hold.valid)] at henough
    exact ⟨hold, by omega⟩
  · rintro ⟨hp, henough⟩
    refine ⟨IsProgram.congr hsame hp, hfree, ?_⟩
    rw [hsame.programPages_eq (elf64Validate_spec hp.valid)]
    omega

/-- **Preparing a process that has just been created**, in terms of the machine before it was. -/
theorem processCreate_prepare_iff (hpmm : PmmReached K.phys.pmm)
    (hcreate : processCreate K pid = (some i, K₁))
    (hkept : ∀ x, InImage image imageSize x → x / 4096 ∉ freeSet bootstrapLimit K.phys.pmm) :
    (processPrepareElf K₁ (some i) image imageSize (some info)).1 = 0 ↔
      IsProgram K.phys.mem image imageSize ∧
      (framePaths (programPages K.phys.mem image)).card <
        (freeSet bootstrapLimit K.phys.pmm).card := by
  obtain ⟨hspace, -⟩ := processCreate_space hcreate
  obtain ⟨-, -, -, -, hfresh⟩ := addressSpaceCreate_ready hpmm hspace
  rw [processPrepareElf_ok_iff (hfresh hkept)]
  exact fits_create_iff hpmm hspace hkept

end Create

/-! ### The process table -/

/-- From `K` on the process in slot `i` has been created, and it has no thread yet. -/
structure Newborn (K : Kernel) (i : Slot) (K' : Kernel) : Prop where
  others : ∀ j, j ≠ i → K'.processes j = K.processes j
  state : (K'.processes i).state = .created
  threads : (K'.processes i).threadCount = 0
  count : K'.processCount = K.processCount + 1
  room : K.processCount < 32
  unused : (K.processes i).state = .unused

section Table

variable {K K' : Kernel} {e : TableEffect} {i j : Slot} {pid : U64}

/-- A slot after a call. -/
theorem Effects.processes (h : Effects K K' e) (j : Slot) :
    K'.processes j = if e.slot = some j then e.record (K.processes j) else K.processes j := by
  rw [h.1, TableEffect.table_apply]

theorem Effects.of_slot (h : Effects K K' e) (hslot : e.slot = some i) :
    K'.processes i = e.record (K.processes i) ∧ ∀ j, j ≠ i → K'.processes j = K.processes j := by
  refine ⟨by rw [h.processes, if_pos hslot], fun j hj => ?_⟩
  rw [h.processes, hslot, if_neg fun heq => hj (Option.some.inj heq).symm]

/-- `process_create` makes a process, or leaves all live processes as they are. -/
theorem processCreate_cases (K : Kernel) (hpid : pid ≠ 0) :
    (∃ i K', processCreate K pid = (some i, K') ∧ K.canCreate ∧ Newborn K i K') ∨
    ∃ K', processCreate K pid = (none, K') ∧ ¬ K.canCreate ∧ (∀ j, K'.live j ↔ K.live j) ∧
      K'.processCount = K.processCount := by
  have heffects := fun i => processCreate_effects (i := i) K pid
  rcases createEffect_cases K pid with ⟨hno, hcases⟩ | ⟨⟨-, hcan⟩, i, pml4, heq, hunused⟩
  · have hnone : (processCreate K pid).1 = none := by
      rw [Option.eq_none_iff_forall_ne_some]
      intro i hsome
      obtain ⟨pml4, heq⟩ := (heffects i).2.1 hsome
      rcases hcases with h | ⟨_, h, _⟩ <;> exact absurd (h.symm.trans heq) (by simp)
    refine Or.inr ⟨_, Prod.ext hnone rfl, fun hcan => hno ⟨hpid, hcan⟩, fun j => ?_, ?_⟩
    · rcases hcases with h | ⟨i, h, hunused⟩
      · have hsame := (heffects 0).1.processes j
        rw [h, if_neg (by simp [TableEffect.slot])] at hsame
        rw [Kernel.live, Kernel.live, hsame]
      · obtain ⟨hself, hother⟩ := (h ▸ (heffects 0).1).of_slot rfl
        rcases eq_or_ne j i with rfl | hj
        · rw [Kernel.live, Kernel.live, hself, hunused]
          exact Iff.rfl
        · rw [Kernel.live, Kernel.live, hother j hj]
    · rcases hcases with h | ⟨i, h, -⟩ <;> rw [(heffects 0).1.2, h] <;> rfl
  · obtain ⟨hself, hother⟩ := (heq ▸ (heffects i).1).of_slot rfl
    refine Or.inl ⟨i, _, Prod.ext ((heffects i).2.2 ⟨pml4, heq⟩) rfl, hcan, hother, ?_, ?_, ?_,
      hcan.1, hunused⟩
    · rw [hself]
      rfl
    · rw [hself]
      rfl
    · rw [(heffects i).1.2, heq]
      rfl

/-- Loading a program, or failing to, makes no difference here. -/
theorem Newborn.prepare (h : Newborn K i K') (image imageSize : U64) (info : ProcessImage) :
    Newborn K i (processPrepareElf K' (some i) image imageSize (some info)).2.2 := by
  have heffects := processPrepareElf_effects K' (some i) image imageSize (some info)
  have hcount : (processPrepareElf K' (some i) image imageSize (some info)).2.2.processCount =
      K.processCount + 1 := by
    rw [heffects.2, ← h.count]
    rcases prepareEffect_cases K' i image imageSize info with ⟨-, heq | ⟨_, heq⟩⟩ | ⟨-, _, _, heq⟩
      <;> rw [heq] <;> rfl
  rcases prepareEffect_cases K' i image imageSize info with ⟨-, heq | ⟨pml4, heq⟩⟩
    | ⟨-, pml4, entry, heq⟩
  · have hsame : (processPrepareElf K' (some i) image imageSize (some info)).2.2.processes =
        K'.processes := by
      rw [heffects.1, heq]
      rfl
    refine ⟨?_, ?_, ?_, hcount, h.room, h.unused⟩ <;> rw [hsame]
    exacts [h.others, h.state, h.threads]
  · obtain ⟨hself, hother⟩ := (heq ▸ heffects).of_slot rfl
    refine ⟨fun j hj => (hother j hj).trans (h.others j hj), ?_, ?_, hcount, h.room, h.unused⟩ <;>
      rw [hself]
    exacts [h.state, h.threads]
  · obtain ⟨hself, hother⟩ := (heq ▸ heffects).of_slot rfl
    refine ⟨fun j hj => (hother j hj).trans (h.others j hj), ?_, ?_, hcount, h.room, h.unused⟩ <;>
      rw [hself]
    exacts [rfl, h.threads]

/-- The first thread of a new process can be created. -/
theorem Newborn.thread (h : Newborn K i K') {tid : U64} (htid : tid ≠ 0) (priority : U32) :
    ∃ n K'', processCreateThread K' (some i) tid priority = (some n, K'') ∧
      (∀ j, K''.live j ↔ K.live j ∨ i = j) ∧ K''.processCount = K.processCount + 1 := by
  have hlt : (K'.processes i).threadCount.toNat < 16 := by
    rw [h.threads]
    decide
  have hargs : ¬ (tid = 0 ∨ (K'.processes i).state = .unused ∨
      (K'.processes i).state = .exited) := by
    rw [h.state, or_iff_left (by simp)]
    exact htid
  rw [processCreateThread]
  dsimp only
  rw [dif_pos hlt, if_neg hargs]
  refine ⟨_, _, rfl, fun j => ?_, h.count⟩
  rcases eq_or_ne i j with rfl | hj
  · refine iff_of_true ?_ (Or.inr rfl)
    rw [Kernel.live, setProcess_self]
    simp [h.state]
  · rw [Kernel.live, setProcess_of_ne K' hj.symm, h.others j hj.symm, Kernel.live, or_iff_left hj]

/-- Destroying it leaves no trace among the live processes. -/
theorem Newborn.destroy (h : Newborn K i K') :
    (∀ j, (processDestroy K' (some i)).live j ↔ K.live j) ∧
    (processDestroy K' (some i)).processCount = K.processCount := by
  have heffects := processDestroy_effects K' (some i)
  have heq : destroyEffect K' (some i) = .destroy i := by
    rw [destroyEffect, if_neg (by rw [h.state]; simp)]
  obtain ⟨hself, hother⟩ := (heq ▸ heffects).of_slot rfl
  constructor
  · intro j
    rcases eq_or_ne j i with rfl | hj
    · rw [Kernel.live, Kernel.live, hself, h.unused]
      exact Iff.rfl
    · rw [Kernel.live, Kernel.live, hother j hj, h.others j hj]
  · have hroom := h.room
    rw [heffects.2, heq, h.count]
    change (if 0 < K.processCount + 1 then K.processCount + 1 - 1 else K.processCount + 1) =
      K.processCount
    rw [if_pos (by bv_omega)]
    bv_omega

end Table

/-! ### `prepare_init_process` -/

section Init

variable {K K₁ : Kernel} {i : Slot} {fuel : ℕ} {multibootInfo moduleName : U64}
    {tags : List Boot.Tag}
  {info : ProcessImage}

/-- A module that is found is not empty. -/
theorem initModule_lt {start stop : U64} (h : initModule tags = some (start, stop)) :
    start < stop := by
  obtain ⟨tag, -, hrange⟩ := List.exists_of_findSome?_eq_some h
  cases tag with
  | other => exact absurd hrange (by simp [Boot.Tag.range?])
  | module start' stop' cmdline =>
    rw [Boot.Tag.range?] at hrange
    split_ifs at hrange with hlt
    obtain ⟨rfl, rfl⟩ := Prod.mk.inj (Option.some.inj hrange)
    have := hlt.1
    bv_omega

/-- The module is found in the memory that `process_create` has left. -/
theorem InitReady.prepareBootModule (h : InitReady K multibootInfo moduleName tags)
    (hfuel : (read32 K.phys.mem multibootInfo.toNat).toNat + tags.length < fuel)
    (hcreate : processCreate K 1 = (some i, K₁)) :
    processPrepareBootModule K₁ fuel (some i) multibootInfo moduleName (some info) =
      some (match initModule tags with
        | none => (-1, some info, K₁)
        | some (start, stop) =>
          processPrepareElf K₁ (some i) start (stop - start) (some info)) := by
  obtain ⟨-, -, -, hmem, -⟩ := addressSpaceCreate_ready h.pmm (processCreate_space hcreate).1
  obtain ⟨hblock, htotal⟩ : Boot.InfoBlock K₁.phys.mem multibootInfo tags ∧ _ :=
    h.block.congr fun x hlo hhi => hmem x (h.blockKept x hlo hhi)
  have hname : Boot.NameAt K₁.phys.mem moduleName userHello :=
    ⟨h.name.notNull, h.name.fits, h.name.string.congr fun x hlo hhi =>
      hmem x (h.nameKept x hlo hhi)⟩
  have hfound := Boot.multibootFindModule_eq hblock hname (by rw [htotal]; exact hfuel)
  rw [processPrepareBootModule]
  obtain ⟨r, hr, hrange⟩ := Option.map_eq_some_iff.1 hfound
  change _ = initModule tags at hrange
  rw [hr]
  cases r with
  | none =>
    rw [← hrange]
    rfl
  | some found =>
    have hlt := initModule_lt hrange.symm
    rw [← hrange]
    dsimp only [Option.map_some]
    rw [if_neg (BitVec.not_le.2 hlt)]

/-- What `prepare_init_process` needs: a slot of the table, page 0 not free, a module whose whole
command line is `user-hello` and which holds a program, and frames for its pages and tables and for
the PML4. -/
def InitPossible (K : Kernel) (tags : List Boot.Tag) : Prop :=
  K.processCount < 32 ∧ (∃ i, ¬ K.live i) ∧ 0 ∉ freeSet bootstrapLimit K.phys.pmm ∧
    ∃ start stop, initModule tags = some (start, stop) ∧ IsProgram K.phys.mem start (stop - start) ∧
      (framePaths (programPages K.phys.mem start)).card < (freeSet bootstrapLimit K.phys.pmm).card

/-- The steps of `prepare_init_process` where all of them succeed. -/
theorem InitReady.prepared (h : InitReady K multibootInfo moduleName tags)
    (hfuel : (read32 K.phys.mem multibootInfo.toNat).toNat + tags.length < fuel)
    (hcan : InitPossible K tags) (info : ProcessImage) :
    ∃ start stop i K₁ info' K₂ n K₃, initModule tags = some (start, stop) ∧
      processCreate K 1 = (some i, K₁) ∧ Newborn K i K₁ ∧
      processPrepareElf K₁ (some i) start (stop - start) (some info) = (0, info', K₂) ∧
      processCreateThread K₂ (some i) 10001 128 = (some n, K₃) ∧
      (∀ j, K₃.live j ↔ K.live j ∨ i = j) ∧ K₃.processCount = K.processCount + 1 ∧
      prepareInitProcess K fuel multibootInfo moduleName (some info) =
        some (some i, info', K₃) := by
  obtain ⟨a, hr⟩ := h.pmm.refines
  obtain ⟨hroom, ⟨j, hj⟩, hzero, start, stop, hmodule, hp, hcard⟩ := hcan
  rcases processCreate_cases K (show (1 : U64) ≠ 0 by decide) with
    ⟨i, K₁, hcreate, -, hborn⟩ | ⟨K₁, -, hno, -⟩
  · have hrc : (processPrepareElf K₁ (some i) start (stop - start) (some info)).1 = 0 :=
      (processCreate_prepare_iff h.pmm hcreate (h.moduleKept start stop hmodule)).2 ⟨hp, hcard⟩
    have hborn₂ := hborn.prepare start (stop - start) info
    obtain ⟨n, K₃, hthread, hlive, hcount⟩ := hborn₂.thread (show (10001 : U64) ≠ 0 by decide) 128
    refine ⟨start, stop, i, K₁, _, _, n, K₃, hmodule, hcreate, hborn, Prod.ext hrc rfl, hthread,
      hlive, hcount, ?_⟩
    rw [prepareInitProcess, if_neg (by simp), hcreate]
    dsimp only
    rw [h.prepareBootModule hfuel hcreate, hmodule]
    dsimp only
    rw [if_neg (not_not.2 hrc), hthread]
  · rw [hr.freeSet_eq] at hzero hcard
    exact absurd ⟨hroom, ⟨j, not_not.1 hj⟩, hr.allocPage_ne_zero_iff.2 ⟨hzero, by omega⟩⟩ hno

/-- Where one of them fails no process is left behind. -/
theorem InitReady.refused (h : InitReady K multibootInfo moduleName tags)
    (hfuel : (read32 K.phys.mem multibootInfo.toNat).toNat + tags.length < fuel)
    (hno : ¬ InitPossible K tags) (info : ProcessImage) : ∃ info' K',
      prepareInitProcess K fuel multibootInfo moduleName (some info) = some (none, info', K') ∧
      (∀ j, K'.live j ↔ K.live j) ∧ K'.processCount = K.processCount := by
  obtain ⟨a, hr⟩ := h.pmm.refines
  rw [prepareInitProcess, if_neg (by simp)]
  rcases processCreate_cases K (show (1 : U64) ≠ 0 by decide) with
    ⟨i, K₁, hcreate, hcan, hborn⟩ | ⟨K₁, hcreate, -, hlive, hcount⟩
  · have hzero := (hr.allocPage_ne_zero_iff.1 hcan.2.2).1
    rw [← hr.freeSet_eq] at hzero
    rw [hcreate]
    dsimp only
    rw [h.prepareBootModule hfuel hcreate]
    cases hmodule : initModule tags with
    | none =>
      dsimp only
      rw [if_pos (by decide)]
      exact ⟨_, _, rfl, hborn.destroy⟩
    | some range =>
      obtain ⟨start, stop⟩ := range
      have hrc : (processPrepareElf K₁ (some i) start (stop - start) (some info)).1 ≠
          0 := fun hrc =>
        hno ⟨hcan.1, ⟨i, fun hi => hi hborn.unused⟩, hzero, start, stop, hmodule,
          (processCreate_prepare_iff h.pmm hcreate (h.moduleKept start stop hmodule)).1 hrc⟩
      dsimp only
      rw [if_pos hrc]
      exact ⟨_, _, rfl, (hborn.prepare start (stop - start) info).destroy⟩
  · rw [hcreate]
    exact ⟨_, K₁, rfl, hlive, hcount⟩

/-- **The first process.**  The information block is well formed, and the block, the name and the
module are not in free memory (`InitReady`).  Then `prepare_init_process` comes to an end, and
returns a process exactly when there is one to be had.  The live processes are those there were
before, and the one it returns. -/
theorem init_process_iff (h : InitReady K multibootInfo moduleName tags)
    (hfuel : (read32 K.phys.mem multibootInfo.toNat).toNat + tags.length < fuel)
    (info : ProcessImage) :
    ∃ process info' K', prepareInitProcess K fuel multibootInfo moduleName (some info) =
      some (process, info', K') ∧
      (process.isSome ↔ InitPossible K tags) ∧ (∀ j, K'.live j ↔ K.live j ∨ process = some j) ∧
      K'.processCount = K.processCount + if process.isSome then 1 else 0 := by
  by_cases hcan : InitPossible K tags
  · obtain ⟨start, stop, i, K₁, info', K₂, n, K₃, -, -, -, -, -, hlive, hcount, heq⟩ :=
      h.prepared hfuel hcan info
    refine ⟨some i, info', K₃, heq, iff_of_true rfl hcan, fun j => ?_, by simpa using hcount⟩
    rw [hlive j, Option.some.injEq]
  · obtain ⟨info', K', heq, hlive, hcount⟩ := h.refused hfuel hcan info
    exact ⟨none, info', K', heq, iff_of_false (by simp) hcan, fun j =>
      by simp [hlive j], by simp [hcount]⟩

end Init

/-! ### A machine with one module -/

/-- The frames that `bootedPmm` can hand out. -/
theorem mem_bootedPmm_free {p : ℕ} :
    p ∈ freeSet bootstrapLimit bootedPmm ↔ 512 ≤ p ∧ p < 65536 := by
  rw [bootedPmm_refines.freeSet_eq, mem_bootedPages_free]

/-- The image of the samples is a program, and there is room for it. -/
theorem sampleImage_isProgram : IsProgram (imageMem sampleImage) 0x100000 124 ∧
    (framePaths (programPages (imageMem sampleImage) 0x100000)).card <
      (freeSet bootstrapLimit bootedPmm).card := by
  have hfresh : FreshLoad (imageProcess sampleImage).phys
      ((imageProcess sampleImage).processes 0).pml4Physical
      0x100000 124 := imagePhys_freshLoad sampleImage_length (by decide)
  obtain ⟨hp, -, henough⟩ := (processPrepareElf_ok_iff hfresh).1 (sampleImage_prepared ⟨0, 0, 0⟩)
  rw [show (imageProcess sampleImage).phys = imagePhys sampleImage from rfl] at hp henough
  rw [show (imagePhys sampleImage).mem = imageMem sampleImage from rfl] at hp henough
  refine ⟨hp, Nat.lt_of_le_of_lt henough ?_⟩
  have htake :=
    PageSets.card_free_take (mem_bootedPages_free.2 (by omega : 512 ≤ 512 ∧ 512 < 65536))
  rw [(imagePhys_refines sampleImage).freeSet_eq, bootedPmm_refines.freeSet_eq]
  omega

/-- An information block with one module, and after it the name that is asked for. -/
def initBlock : List U8 :=
  [48, 0, 0, 0, 0, 0, 0, 0,
    3, 0, 0, 0, 27, 0, 0, 0, 0, 0, 16, 0, 124, 0, 16, 0] ++ userHello ++ [0, 0, 0, 0, 0, 0,
    0, 0, 0, 0, 8, 0, 0, 0] ++ userHello ++ [0]

def initMem : Mem :=
  fun x => if x < 0x100000 then bytesAt 0x10000 initBlock x else imageMem sampleImage x

def initKernel : Kernel := { bootedKernel with phys := ⟨initMem, bootedPmm⟩ }

theorem initKernel_ready :
    InitReady initKernel 0x10000 0x10030 [.module 0x100000 0x10007C userHello] where
  pmm := bootedPmm_reached
  block :=
    ⟨by decide, by decide +kernel,
      .module (by decide +kernel) (by decide +kernel) (by decide +kernel) (by decide +kernel)
        (.finish (by decide +kernel) (by decide +kernel))⟩
  name := ⟨by decide, by decide, by decide +kernel⟩
  blockKept x _ hhi hfree := by
    have htotal : (read32 initMem (0x10000 : U64).toNat).toNat = 48 := by decide +kernel
    rw [show initKernel.phys.mem = initMem from rfl, htotal] at hhi
    have := (mem_bootedPmm_free.1 hfree).1
    rw [show (0x10000 : U64).toNat = 0x10000 from rfl] at hhi
    omega
  nameKept x _ hhi hfree := by
    have := (mem_bootedPmm_free.1 hfree).1
    rw [show (0x10030 : U64).toNat = 0x10030 from rfl, show userHello.length = 10 from rfl] at hhi
    omega
  moduleKept start stop hmodule x hx hfree := by
    obtain ⟨rfl, rfl⟩ : (0x100000 : U64) = start ∧ (0x10007C : U64) = stop := by
      simpa [initModule, Boot.Tag.range?] using hmodule
    have := (mem_bootedPmm_free.1 hfree).1
    have hhi := hx.2
    rw [show (0x100000 : U64).toNat = 0x100000 from rfl,
      show ((0x10007C : U64) - 0x100000).toNat = 124 from rfl] at hhi
    omega

/-- On this machine the first process is prepared. -/
theorem initKernel_prepared :
    ∃ i info K', prepareInitProcess initKernel 50 0x10000 0x10030 (some ⟨0, 0, 0⟩) =
    some (some i, info, K') := by
  have hfuel : (read32 initKernel.phys.mem (0x10000 : U64).toNat).toNat + 1 < 50 := by
    decide +kernel
  obtain ⟨process, info, K', heq, hiff, -⟩ := init_process_iff initKernel_ready hfuel ⟨0, 0, 0⟩
  have hsome : process.isSome := by
    obtain ⟨hp, henough⟩ := sampleImage_isProgram
    have hsame : SameImage 0x100000 124 (imageMem sampleImage) initMem := fun x hx => by
      rw [initMem, if_neg (show ¬ x < 0x100000 from Nat.not_lt.2 hx.1)]
    refine hiff.2 ⟨by decide, ⟨0, fun hlive => hlive rfl⟩, fun hzero => ?_, 0x100000,
      0x10007C, by decide, IsProgram.congr hsame hp, ?_⟩
    · exact absurd (mem_bootedPmm_free.1 hzero).1 (by omega)
    · rw [show initKernel.phys.mem = initMem from rfl,
        hsame.programPages_eq (elf64Validate_spec hp.valid)]
      exact henough
  obtain ⟨i, rfl⟩ := Option.isSome_iff_exists.1 hsome
  exact ⟨i, info, K', heq⟩

end Exec
end SuiraBox
