/-
# What ring 3 can reach

The paging unit over the page tables of this kernel, with the control bits that decide on an access.
`boot.S` turns on paging and long mode; `EFER.NXE`, `CR0.WP`, `CR4.SMEP` and `CR4.SMAP` it leaves as
the firmware left them, so they are a parameter (`Controls`).

For a process that `process_create` and `process_prepare_elf` have made:

* ring 3 may access the stack and the pages of the segments, each in the way its program header asks
  for, and nothing else (`ring3_rights`).  With `NXE` off, bit 63 of an entry is reserved, and then
  the stack and all segments without `PF_X` are out of reach;
* however much a program writes, these rights stay, and memory that was in use before the process
  was created stays as it was (`ring3_confined`).

Of the reserved bits only bit 63 is looked at.  The accessed and dirty bits, which the unit sets in
the entries, and its caches are left out.
-/

import SuiraBox.Exec.Rights
import SuiraBox.Library.Protection

namespace SuiraBox.Arch

open ByteMem Protection Mm Exec

/-- The control bits that paging depends on. -/
structure Controls where
  nxe : Bool
  wp : Bool
  smep : Bool
  smap : Bool

/-- Whether an access is granted by entries with these rights. -/
def grants (c : Controls) (acc : Protection.Access) (rights : Mm.Access) : Bool :=
  (c.nxe || !rights.noExec) &&
    match acc.user, acc.kind with
    | true, .read => rights.user
    | true, .write => rights.user && rights.writable
    | true, .fetch => rights.user && !rights.noExec
    | false, .read => !(rights.user && c.smap && !acc.ac)
    | false, .write => (rights.writable || !c.wp) && !(rights.user && c.smap && !acc.ac)
    | false, .fetch => !rights.noExec && !(rights.user && c.smep)

/-- The paging unit with the PML4 of `cr3`. -/
def paging (c : Controls) (cr3 : U64) : Mmu := fun m acc va =>
  if Canonical va then
    ((Mm.access m (tableFromEntry cr3) va).filter (grants c acc)).map fun rights =>
      rights.physical.toNat
  else none

section Paging

variable {c : Controls} {cr3 va : U64} {m m' : Mem} {acc : Protection.Access} {pa : ℕ}

/-- The translation of a canonical address with the rights of its entries. -/
theorem paging_eq_some : paging c cr3 m acc va = some pa ↔ Canonical va ∧ ∃ rights,
    Mm.access m (tableFromEntry cr3) va = some rights ∧ grants c acc rights = true ∧
      rights.physical.toNat = pa := by
  rw [paging]
  split_ifs with hva
  · simp only [Option.map_eq_some_iff, Option.filter_eq_some_iff, and_assoc, hva, true_and]
  · exact iff_of_false (by simp) fun h => hva h.1

/-- The unit looks at the entries only. -/
theorem paging_congr
    (h : Mm.access m' (tableFromEntry cr3) va = Mm.access m (tableFromEntry cr3) va) :
    paging c cr3 m' acc va = paging c cr3 m acc va := by
  rw [paging, paging, h]

/-- A page of ring 3, for ring 3. -/
def GrantsUser (c : Controls) (kind : Kind) (writable noExec : Bool) : Prop :=
  (noExec = true → c.nxe = true ∧ kind ≠ .fetch) ∧ (kind = .write → writable = true)

/-- What ring 3 may do with a page. -/
theorem grants_user_iff {kind : Kind} {ac : Bool} {rights : Mm.Access} :
    grants c ⟨true, kind, ac⟩ rights = true ↔
      rights.user = true ∧ GrantsUser c kind rights.writable rights.noExec := by
  obtain ⟨nxe, wp, smep, smap⟩ := c
  obtain ⟨physical, writable, user, noExec⟩ := rights
  cases kind <;> cases nxe <;> cases writable <;> cases user <;> cases noExec <;>
    simp [grants, GrantsUser]

end Paging

/-- The index of an address the processor can form. -/
theorem pml4Index_of_canonical {va : U64} (hva : Canonical va) (hindex : pml4Index va < 256) :
    va < userLimit := by
  rw [pml4Index, toNat_index] at hindex
  have := va.isLt
  rw [BitVec.lt_def, toNat_userLimit]
  rcases hva with hlow | hhigh
  · exact hlow
  · omega

section Process

variable {K K' : Kernel} {a : PageSets} {image pml4 va : U64} {c : Controls} {m : Mem}
  {acc : Protection.Access} {kind : Kind} {ac : Bool} {pa : ℕ}

/-- An access of ring 3 is granted by the page and its rights. -/
theorem paging_user_iff (h : Prepared K a image pml4 K') (hk : KernelKept K a) :
    (paging c pml4 K'.phys.mem ⟨true, kind, ac⟩ va).isSome = true ↔
      ∃ writable noExec, UserPageIs K'.phys.mem pml4 va writable noExec ∧
        GrantsUser c kind writable noExec := by
  rw [Option.isSome_iff_exists]
  simp only [paging_eq_some, h.tableFromEntry_pml4, grants_user_iff]
  constructor
  · rintro ⟨pa, hva, rights, hsome, ⟨huser, hgrants⟩, -⟩
    obtain ⟨-, htranslate, hleaf⟩ :=
      (h.access_user_iff hk (pml4Index_of_canonical hva) rights).1 ⟨hsome, huser⟩
    exact ⟨_, _, ⟨Option.isSome_iff_exists.2 ⟨_, htranslate⟩, hleaf⟩, hgrants⟩
  · rintro ⟨writable, noExec, ⟨hsome, hleaf⟩, hgrants⟩
    obtain ⟨pa, hpa⟩ := Option.isSome_iff_exists.1 hsome
    obtain ⟨a', calls, hb⟩ := h.built
    obtain ⟨-, hlow, -⟩ :=
      (addressSpaceTranslateUser_iff (k := ()) hb.tables trivial rfl va pa).1 hpa
    have hva : Canonical va := Or.inl hlow
    exact ⟨_, hva, ⟨pa, writable, true, noExec⟩,
      ((h.access_user_iff hk (pml4Index_of_canonical hva) _).2 ⟨rfl, hpa, hleaf⟩).1,
      ⟨rfl, hgrants⟩, rfl⟩

/-- Ring 3 comes to the pages of the process only. -/
theorem paging_inFrames (h : Prepared K a image pml4 K') (hk : KernelKept K a)
    (hacc : acc.user = true) (hpa : paging c pml4 K'.phys.mem acc va = some pa) :
    InFrames K'.phys.mem pml4 pa := by
  obtain ⟨user, kind, ac⟩ := acc
  obtain rfl : user = true := hacc
  obtain ⟨hva, rights, hsome, hgrants, rfl⟩ := paging_eq_some.1 hpa
  rw [h.tableFromEntry_pml4] at hsome
  obtain ⟨-, htranslate, -⟩ :=
    (h.access_user_iff hk (pml4Index_of_canonical hva) rights).1 ⟨hsome,
      (grants_user_iff.1 hgrants).1⟩
  obtain ⟨a', calls, hb⟩ := h.built
  exact hb.translate_inFrames htranslate

/-- Nor does anything change for the unit when these pages are written to. -/
theorem paging_frames_congr (h : Prepared K a image pml4 K') (hk : KernelKept K a)
    (hm : ∀ x, ¬ InFrames K'.phys.mem pml4 x → m x = K'.phys.mem x) (c : Controls)
    (acc : Protection.Access) (va : U64) :
    paging c pml4 m acc va = paging c pml4 K'.phys.mem acc va := by
  obtain ⟨a', calls, hb⟩ := h.built
  refine paging_congr ?_
  rw [h.tableFromEntry_pml4]
  exact access_congr hb.space.tree.aligned (fun p f hf x hx => hm x fun hin =>
    hb.table_ne hk.taken hf hin hx) va

/-! ### Rights -/

/-- What the program headers ask for, as far as the control bits let ring 3 have it: pages that are
not executable can be accessed with `EFER.NXE` only. -/
def ProgramMay (c : Controls) (m : Mem) (image : U64) (kind : Kind) (va : U64) : Prop :=
  (OnStack va ∧ c.nxe = true ∧ kind ≠ .fetch) ∨
  ∃ n, Loadable m image n ∧ OnSegment m image n va ∧
    (kind = .write → (programHeader m image n).flags &&& pfW ≠ 0) ∧
    (kind = .fetch → (programHeader m image n).flags &&& pfX ≠ 0) ∧
    ((programHeader m image n).flags &&& pfX = 0 → c.nxe = true)

/-- What a prepared program may do with an address. -/
theorem programMay_iff (h : Prepared K a image pml4 K') (hk : KernelKept K a) :
    (paging c pml4 K'.phys.mem ⟨true, kind, ac⟩ va).isSome = true ↔
    ProgramMay c K.phys.mem image kind va := by
  rw [paging_user_iff h hk]
  simp only [h.userPageIs_iff]
  constructor
  · rintro ⟨writable, noExec, ⟨hva, rfl, rfl⟩ | ⟨n, hl, hva, rfl, rfl⟩, hx, hw⟩
    · exact Or.inl ⟨hva, hx rfl⟩
    · refine Or.inr ⟨n, hl, hva, fun hkind => of_decide_eq_true (hw hkind), fun hkind hzero => ?_,
        fun hzero => ?_⟩
      · exact (hx (decide_eq_true hzero)).2 hkind
      · exact (hx (decide_eq_true hzero)).1
  · rintro (⟨hva, hnxe, hkind⟩ | ⟨n, hl, hva, hw, hx, hnxe⟩)
    · exact ⟨true, true, Or.inl ⟨hva, rfl, rfl⟩, fun _ => ⟨hnxe, hkind⟩, fun _ => rfl⟩
    · refine ⟨_, _, Or.inr ⟨n, hl, hva, rfl, rfl⟩, fun hzero => ?_, fun hkind =>
        decide_eq_true (hw hkind)⟩
      exact ⟨hnxe (of_decide_eq_true hzero), fun hkind => hx hkind (of_decide_eq_true hzero)⟩

end Process

section Results

variable {K K₁ : Kernel} {a : PageSets} {pid image imageSize : U64} {i : Slot} {info : ProcessImage}

/-- **Rights.**  No table of the kernel and no byte of the image is in a free frame, and slot 0 of
the PML4 is not for ring 3.  After `process_create` and a `process_prepare_elf` that returns 0, ring
3 may access the stack and the pages of the segments in the ways their headers ask for, and nothing
else.  The control bits decide on what is not executable: the stack and the segments without `PF_X`
can be accessed if `EFER.NXE` is on, and not at all if it is off, since bit 63 of their entries is a
reserved bit then. -/
theorem ring3_rights (hk : KernelKept K a) (himage : ∀ x, InImage image imageSize x →
    x / 4096 ∉ a.free) (hcreate : processCreate K pid = (some i, K₁))
    (hok : (processPrepareElf K₁ (some i) image imageSize (some info)).1 = 0) (c : Controls)
    (kind : Kind) (ac : Bool) (va : U64) :
    let K₂ := (processPrepareElf K₁ (some i) image imageSize (some info)).2.2
    (paging c (K₂.processes i).pml4Physical K₂.phys.mem ⟨true, kind, ac⟩ va).isSome = true ↔
      ProgramMay c K.phys.mem image kind va := by
  obtain ⟨h, hpml4, -⟩ := processPrepareElf_prepared hk.refines hk.taken hcreate himage hok
  dsimp only at h hpml4 ⊢
  rw [hpml4]
  exact programMay_iff h hk

/-- A store of one byte by ring 3; one that faults changes nothing. -/
def userStore (mmu : Mmu) (m : Mem) (store : Bool × U64 × U8) : Mem :=
  match mmu m ⟨true, .write, store.1⟩ store.2.1 with
  | some pa => write8 m pa store.2.2
  | none => m

/-- One store stays in the pages of the process. -/
theorem userStore_inFrames {K' : Kernel} {pml4 : U64} {m : Mem} (h : Prepared K a image pml4 K')
    (hk : KernelKept K a) (hm : ∀ x, ¬ InFrames K'.phys.mem pml4 x → m x = K'.phys.mem x)
    (c : Controls) (store : Bool × U64 × U8) {x : ℕ} (hx : ¬ InFrames K'.phys.mem pml4 x) :
    userStore (paging c pml4) m store x = K'.phys.mem x := by
  rw [userStore, paging_frames_congr h hk hm]
  cases hpa : paging c pml4 K'.phys.mem ⟨true, .write, store.1⟩ store.2.1 with
  | none => exact hm x hx
  | some pa =>
    have hin := paging_inFrames h hk rfl hpa
    dsimp only
    rw [write8, if_neg, hm x hx]
    rintro rfl
    exact hx hin

/-- **Confinement.**  No table of the kernel and no byte of the image is in a free frame, and slot 0
of the PML4 is not for ring 3.  After any number of stores by ring 3: memory outside the pages that
were free before the process was created is as it was then, the unit grants what it granted before,
and ring 3 still comes to such pages only. -/
theorem ring3_confined (hk : KernelKept K a) (himage : ∀ x, InImage image imageSize x →
    x / 4096 ∉ a.free) (hcreate : processCreate K pid = (some i, K₁))
    (hok : (processPrepareElf K₁ (some i) image imageSize (some info)).1 = 0) (c : Controls)
    (stores : List (Bool × U64 × U8)) :
    let K₂ := (processPrepareElf K₁ (some i) image imageSize (some info)).2.2
    let mmu := paging c (K₂.processes i).pml4Physical
    let m := stores.foldl (userStore mmu) K₂.phys.mem
    (∀ x, x / 4096 ∉ a.free → m x = K.phys.mem x) ∧
    (∀ acc va, mmu m acc va = mmu K₂.phys.mem acc va) ∧
    ∀ acc va pa, acc.user = true → mmu m acc va = some pa → pa / 4096 ∈ a.free := by
  obtain ⟨h, hpml4, -⟩ := processPrepareElf_prepared hk.refines hk.taken hcreate himage hok
  dsimp only at h hpml4 ⊢
  rw [hpml4]
  generalize (processPrepareElf K₁ (some i) image imageSize (some info)).2.2 = K₂ at h
  generalize (K₁.processes i).pml4Physical = pml4 at h
  -- the invariant of the run
  have hrun : ∀ x, ¬ InFrames K₂.phys.mem pml4 x →
      stores.foldl (userStore (paging c pml4)) K₂.phys.mem x = K₂.phys.mem x := by
    induction stores using List.reverseRecOn with
    | nil => exact fun _ _ => rfl
    | append_singleton stores store ih =>
      intro x hx
      rw [List.foldl_concat]
      exact userStore_inFrames h hk ih c store hx
  have hsame := paging_frames_congr h hk hrun c
  obtain ⟨a', calls, hb⟩ := h.built
  refine ⟨fun x hx => ?_, hsame, fun acc va pa hacc hpa => ?_⟩
  · exact (hrun x fun hin => hx (hb.inFrames_free hin)).trans (hb.mem x hx)
  · rw [hsame] at hpa
    exact hb.inFrames_free (paging_inFrames h hk hacc hpa)

end Results

/-! ### A program of one segment -/

/-- The machine with the sample image keeps its tables. -/
theorem imageKernel_kept : KernelKept (imageKernel sampleImage) bootedPages := by
  have htable : (imageKernel sampleImage).kernelTable = 0x1000 := by decide
  have hslot : ∀ {j}, j < 512 → slot (imageMem sampleImage) 0x1000 j = 0 := fun hj =>
    read64_eq_zero fun x h₁ h₂ => imageMem_zero sampleImage_length (by omega)
  refine ⟨bootedPmm_refines, fun p f hf => ?_, ?_⟩
  · rw [htable] at hf
    have hroot : p = [] ∧ f = 0x1000 := by
      refine Forest.owned_of_leaf ?_ (fun j hj => ?_) hf
      · rfl
      · rw [subTable, show (imageKernel sampleImage).phys.mem = imageMem sampleImage from rfl,
          hslot (allTables.lt (p := []) hj)]
        exact subTarget_of_absent (by simp)
    obtain ⟨-, rfl⟩ := hroot
    rw [mem_bootedPages_free]
    omega
  · change (slot (imageMem sampleImage) _ 0).getLsbD 2 = false
    rw [htable, hslot (by decide)]
    simp

/-- The sample image is in no free page. -/
theorem sampleImage_kept (x : ℕ) (hx : InImage 0x100000 124 x) : x / 4096 ∉ bootedPages.free := by
  obtain ⟨h₁, h₂⟩ : 0x100000 ≤ x ∧ x < 0x100000 + 124 := hx
  rw [mem_bootedPages_free]
  omega

/-- Its program header. -/
theorem sampleImage_programHeader :
    programHeader (imageMem sampleImage) 0x100000 0 = ⟨1, 5, 120, 0x8000000000, 4, 8⟩ := by
  decide +kernel

/-- Its only segment has eight bytes at `SB_USER_BASE`. -/
theorem sampleImage_onSegment {n : ℕ} (va : U64) (hl : Loadable (imageMem sampleImage) 0x100000 n) :
    n = 0 ∧ (OnSegment (imageMem sampleImage) 0x100000 n va ↔ va.toNat / 4096 = 0x8000000) := by
  have hone : (headerAt (imageMem sampleImage) (0x100000 : U64).toNat).phnum.toNat = 1 := by
    decide +kernel
  have hbias : loadBias (imageMem sampleImage) 0x100000 = 0 := by decide +kernel
  have hn := hl.1
  obtain rfl : n = 0 := by omega
  refine ⟨rfl, ?_⟩
  rw [OnSegment, sampleImage_programHeader]
  have haddress : ∀ k < 8, (segmentAddress (imageMem sampleImage) 0x100000 0 k).toNat =
      0x8000000000 + k := by
    intro k hk
    rw [segmentAddress, sampleImage_programHeader, hbias, BitVec.toNat_add, BitVec.toNat_ofNat]
    change (0x8000000000 + k % 2 ^ 64) % 2 ^ 64 = _
    omega
  constructor
  · rintro ⟨k, hk, hva⟩
    rw [haddress k hk] at hva
    have : k < 8 := hk
    omega
  · intro hva
    refine ⟨0, by decide, ?_⟩
    rw [haddress 0 (by decide)]
    omega

/-- The code of the sample can be executed and not written, and the stack is out of reach when `NXE`
is off. -/
theorem sampleImage_rights :
    let K :=
  (processPrepareElf (imageProcess sampleImage) (some 0) 0x100000 124 (some ⟨0, 0, 0⟩)).2.2
    let mmu := fun c => paging c (K.processes 0).pml4Physical K.phys.mem
    (mmu ⟨true, true, false, false⟩ ⟨true, .fetch, false⟩ 0x8000000000).isSome = true ∧
    (mmu ⟨true, true, false, false⟩ ⟨true, .write, false⟩ 0x8000000000).isSome = false ∧
    (mmu ⟨true, true, false, false⟩ ⟨true, .write, false⟩ 0x80000FFFF8).isSome = true ∧
    (mmu ⟨false, true, false, false⟩ ⟨true, .write, false⟩ 0x80000FFFF8).isSome = false := by
  have hrights := fun c kind va => ring3_rights imageKernel_kept sampleImage_kept
    (imageKernel_create sampleImage_length) (sampleImage_prepared ⟨0, 0, 0⟩) c kind false va
  have hl := sampleImage_segment.1
  have hno : ∀ {va : U64}, ¬ OnStack va ↔ ¬ (0x80000FC000 ≤ va.toNat ∧ va.toNat < 0x8000100000) :=
    Iff.rfl
  refine ⟨(hrights _ _ _).2 (Or.inr ⟨0, hl, ?_, ?_⟩), Bool.eq_false_iff.2 fun hsome => ?_,
    (hrights _ _ _).2 (Or.inl ⟨⟨by decide, by decide⟩, rfl, by simp⟩), Bool.eq_false_iff.2
    fun hsome => ?_⟩
  · exact (sampleImage_onSegment _ hl).2.2 (by decide)
  · rw [show (imageKernel sampleImage).phys.mem = imageMem sampleImage from rfl,
      sampleImage_programHeader]
    exact ⟨by simp, fun _ => by decide, fun h => absurd h (by decide)⟩
  · rcases (hrights _ _ _).1 hsome with ⟨hstack, -⟩ | ⟨n, hl', -, hw, -⟩
    · exact hno.2 (by decide) hstack
    · rw [(sampleImage_onSegment 0 hl').1,
        show (imageKernel sampleImage).phys.mem = imageMem sampleImage
        from rfl, sampleImage_programHeader] at hw
      exact hw rfl (by decide)
  · rcases (hrights _ _ _).1 hsome with ⟨-, hnxe, -⟩ | ⟨n, hl', hseg, -⟩
    · exact absurd hnxe (by simp)
    · exact absurd ((sampleImage_onSegment _ hl').2.1 hseg) (by decide)

/-- A program that writes to its stack, to its code and to the kernel leaves the image in memory as
it is. -/
theorem sampleImage_confined :
    let K :=
  (processPrepareElf (imageProcess sampleImage) (some 0) 0x100000 124 (some ⟨0, 0, 0⟩)).2.2
    let mmu := paging ⟨true, true, false, false⟩ (K.processes 0).pml4Physical
    let m :=
      [(false, 0x80000FFFF8, 1), (false, 0x8000000000, 2), (false, 0x100000, 3)].foldl
        (userStore mmu)
      K.phys.mem
    ∀ x, 0x100000 ≤ x → x < 0x100000 + 124 → m x = imageMem sampleImage x := by
  have hconfined :=
    ring3_confined imageKernel_kept sampleImage_kept (imageKernel_create sampleImage_length)
    (sampleImage_prepared ⟨0, 0, 0⟩) ⟨true, true, false, false⟩
    [(false, 0x80000FFFF8, 1), (false, 0x8000000000, 2), (false, 0x100000, 3)]
  dsimp only at hconfined ⊢
  rw [show (imageKernel sampleImage).phys.mem = imageMem sampleImage from rfl] at hconfined
  intro x h₁ h₂
  exact hconfined.1 x (sampleImage_kept x ⟨h₁, h₂⟩)

end SuiraBox.Arch
