/-
# What a load leaves behind

`process_prepare_elf` takes its first page when it comes to the first segment of
the image.  From there on nothing is undone: `elf64_load_image` and
`map_user_stack` give back the page they are working on, and neither the pages
nor the tables made before; `process_destroy` gives back the PML4 alone.

So one condition on the state before the call decides whether a load leaves
everything as it was, and whether a process leaves no page behind when it is
destroyed: `LoadTakes`, a page can be had for the first segment.  A load that
fails is undone if this does not hold, and the other loads that have the choice
are those that succeed (`prepareElf_atomic_iff`).
-/

import SuiraBox.Exec.Preparation

namespace SuiraBox.Exec

open ByteMem Forest Mm

/-! ### The first segment -/

/-- `seg` is the first segment that loading the image comes to. -/
def FirstSegment (m : Mem) (image imageSize : U64) (seg : Segment) : Prop :=
  elf64Validate m image imageSize = true ∧ ∃ i, Loadable m image i ∧
    (∀ j < i, ¬ Loadable m image j) ∧
    segmentOf (loadBias m image) (programHeader m image i) = some seg

variable {image imageSize : U64} {K : Kernel} {i : Slot} {a : PageSets}

/-- There is only one first segment. -/
theorem FirstSegment.unique {m : Mem} {seg seg' : Segment}
    (h : FirstSegment m image imageSize seg) (h' : FirstSegment m image imageSize seg') :
    seg = seg' := by
  obtain ⟨-, i, hi, hmin, hseg⟩ := h
  obtain ⟨-, j, hj, hmin', hseg'⟩ := h'
  obtain rfl : i = j := le_antisymm (Nat.not_lt.1 fun hlt => hmin j hlt hj)
    (Nat.not_lt.1 fun hlt => hmin' i hlt hi)
  exact Option.some.inj (hseg.symm.trans hseg')

/-- The first page of the first segment, as far as it is fixed by the range check. -/
theorem FirstSegment.userPage_iff {m : Mem} {seg : Segment}
    (h : FirstSegment m image imageSize seg) :
    seg.mapStart < userLimit ∧
    (UserPage seg.mapStart ↔ pml4Index seg.mapStart = userPml4Index) := by
  obtain ⟨-, i, -, -, hseg⟩ := h
  obtain ⟨-, -, -, hupper, hnonempty, hmapStart, -, -⟩ := segmentOf_spec hseg
  have hbelow : seg.mapStart < userLimit := by
    rw [BitVec.lt_def]
    omega
  exact ⟨hbelow, fun hpage => hpage.index, fun hindex =>
    ⟨(and_pageMask_eq_zero_iff _).2 (by omega), hindex, hbelow⟩⟩

/-- Clearing a page only lowers bytes, so a header that is cleared in part says
less than before, and the page can be filled. -/
theorem ValidImage.fills {m : Mem} {bias va : U64} {seg : Segment} {i : ℕ}
    (hv : ValidImage m image imageSize) (hl : Loadable m image i)
    (hseg : segmentOf bias (programHeader m image i) = some seg)
    (hva : va.toNat < seg.mapEnd.toNat) (free : Finset ℕ) :
    Fills (fillPage image imageSize (programHeaderAddress m image i) seg va) m free := by
  intro page _ _
  have hlow : ∀ a, (read64 (zeroBytes m page.toNat 4096) a).toNat ≤ (read64 m a).toNat := by
    intro a
    rw [toNat_read64, toNat_read64]
    refine readLE_mono fun x _ _ => ?_
    rw [zeroBytes_apply]
    split_ifs
    · exact Nat.zero_le _
    · exact le_rfl
  obtain ⟨hfile, hend⟩ := hv.segment i hl.1 hl.2.1
  obtain ⟨-, hstop, -, hupper, -, -, hmapEnd, -⟩ := segmentOf_spec hseg
  have hlimit : userLimit.toNat = 2 ^ 47 := rfl
  have hoffset := hlow (programHeaderAddress m image i + 8)
  have hsize := hlow (programHeaderAddress m image i + 32)
  rw [fillPage_eq rfl]
  · simp
  · exact (Nat.add_le_add hoffset hsize).trans hend
  · rw [hstop]
    exact Nat.add_le_add_left (hsize.trans hfile) _
  · omega

/-- Headers with nothing to load are passed over. -/
theorem loadHeaders_skip {σ : Phys} {pml4 bias : U64} {entryMapped : Bool}
    {n i d : ℕ} (hskip : ∀ j, i ≤ j → j < i + d → ¬ Loadable σ.mem image j)
    (hin : i + d ≤ (headerAt σ.mem image.toNat).phnum.toNat) :
    loadHeaders pml4 image imageSize bias (n + d) i entryMapped σ =
      loadHeaders pml4 image imageSize bias n (i + d) entryMapped σ := by
  induction d generalizing i with
  | zero => rfl
  | succ d ih =>
    have hi : i < (headerAt σ.mem image.toNat).phnum.toNat := by omega
    have hno : (programHeader σ.mem image i).type ≠ elfPtLoad ∨
        (programHeader σ.mem image i).memorySize = 0 := by
      have := hskip i le_rfl (by omega)
      rw [Loadable, and_iff_right hi, not_and_or, not_ne_iff] at this
      exact this
    rw [← Nat.add_assoc, loadHeaders, if_neg (by omega)]
    dsimp only
    rw [if_pos hno, ih (fun j h₁ h₂ => hskip j (by omega) (by omega)) (by omega)]
    congr 1
    omega

/-- Without a first segment nothing is done. -/
theorem elf64LoadImage_idle {σ : Phys} {pml4 : U64}
    (hno : ∀ seg, ¬ FirstSegment σ.mem image imageSize seg) :
    elf64LoadImage σ pml4 image imageSize = (none, σ) := by
  rw [elf64LoadImage]
  rcases Bool.eq_false_or_eq_true (elf64Validate σ.mem image imageSize) with hvalid | hvalid
  swap
  · rw [hvalid, if_pos (by decide)]
  rw [hvalid, if_neg (by decide)]
  dsimp only
  have hphnum := (headerAt σ.mem image.toNat).phnum.isLt
  by_cases hl : ∃ i, Loadable σ.mem image i
  · obtain ⟨i, hi, hmin⟩ : ∃ i, Loadable σ.mem image i ∧ ∀ j < i, ¬ Loadable σ.mem image j := by
      classical exact ⟨Nat.find hl, Nat.find_spec hl, fun j hj => Nat.find_min hl hj⟩
    obtain ⟨n, hn⟩ : ∃ n, 2 ^ 16 = n + 1 + i := ⟨2 ^ 16 - 1 - i, by have := hi.1; omega⟩
    rw [hn, loadHeaders_skip (fun j _ hj => hmin j (by omega)) (by have := hi.1; omega),
      Nat.zero_add, loadHeaders_load hi]
    cases hseg : segmentOf (loadBias σ.mem image) (programHeader σ.mem image i) with
    | none => rfl
    | some seg => exact absurd ⟨hvalid, i, hi, hmin, hseg⟩ (hno seg)
  · obtain ⟨n, hn⟩ : ∃ n, 2 ^ 16 = n + 1 + (headerAt σ.mem image.toNat).phnum.toNat :=
      ⟨2 ^ 16 - 1 - (headerAt σ.mem image.toNat).phnum.toNat, by omega⟩
    rw [hn, loadHeaders_skip (fun j _ _ hj => hl ⟨j, hj⟩) (Nat.zero_add _).le, Nat.zero_add,
      loadHeaders, if_pos le_rfl]
    rfl

/-! ### The account of a load -/

section Account

variable {κ : Type*} {user : κ → Prop} {root : κ → Option ℕ} {k : κ} {σ σ' : Phys} {a : PageSets}
  {pml4 image imageSize : U64} {seg : Segment}

/-- What a load has done to the pages: exactly when `P` holds, pages are gone for
good; otherwise all is as before. -/
def Accounts (user : κ → Prop) (root : κ → Option ℕ) (k : κ) (σ : Phys) (a : PageSets) (P : Prop)
    (σ' : Phys) : Prop :=
  ∃ a', Tables user root σ' a' ∧ Grows user root k (fun _ _ => True) σ a σ' a' ∧
    (P → a'.free.card < a.free.card) ∧
    (¬ P → a'.free = a.free ∧ ∀ p f, Owns user σ'.mem root k p f ↔ Owns user σ.mem root k p f)

/-- A step that takes no pages. -/
theorem Accounts.idle {P : Prop} (h : Tables user root σ a) (hP : ¬ P) :
    Accounts user root k σ a P σ :=
  ⟨a, h, (Grows.refl σ a).mono fun _ _ _ => trivial, fun hp => absurd hp hP,
    fun _ => ⟨rfl, fun _ _ => Iff.rfl⟩⟩

/-- Once pages are gone they stay so. -/
theorem Accounts.after {P : Prop} (hP : P) (h : Accounts user root k σ a P σ')
    {σ'' : Phys} (hg : ∀ a', Tables user root σ' a' → Grown user root k σ' a' σ'') :
    Accounts user root k σ a P σ'' := by
  obtain ⟨a', h', hgrows, hlt, -⟩ := h
  obtain ⟨a'', h'', hgrows'⟩ := hg a' h'
  exact ⟨a'', h'', (hgrows.trans hgrows').mono fun _ _ _ => trivial,
    fun _ => (Finset.card_le_card hgrows'.free_subset).trans_lt (hlt hP), fun hno => absurd hP hno⟩

/-- One round of a page loop that can fill its page. -/
theorem mapFreshPage_accounts {fill : Mem → U64 → Option Mem} (h : Tables user root σ a)
    (hk : user k) (hroot : root k = some pml4.toNat)
    (hnz : ∀ {p f}, Owns user σ.mem root k p f → f ≠ 0) (va flags : U64)
    (hfill : FillsInside fill)
    (hfills : Fills fill σ.mem a.free) :
    (∃ σ', mapFreshPage fill pml4 va flags σ = .error σ' ∧
      Accounts user root k σ a (Takes user root k σ a va) σ') ∨
    ∃ σ', mapFreshPage fill pml4 va flags σ = .ok σ' ∧ Takes user root k σ a va ∧
      Accounts user root k σ a (Takes user root k σ a va) σ' := by
  rcases mapFreshPage_spec h hk hroot va flags hfill with
    ⟨σ', a', heq, h', hg, -, hexact⟩ | ⟨σ', a', page, m', heq, -, -, -, hmaps, -, hlt, htakes⟩
  · have hexact := hexact hnz hfills
    refine Or.inl ⟨σ', heq, a', h', hg.mono fun _ _ _ => trivial, hexact.2, fun hno => ?_⟩
    have hfree : a'.free = a.free := Finset.eq_of_subset_of_card_le hg.free_subset
      (Nat.not_lt.1 fun hlt => hno (hexact.1 hlt))
    exact ⟨hfree, fun p f => hg.owns_iff h' hfree⟩
  · exact Or.inr ⟨σ', heq, htakes, a', hmaps.tables, hmaps.grows.mono fun _ _ _ => trivial,
      fun _ => hlt, fun hno => absurd htakes hno⟩

/-- **Loading, to the page.**  `elf64_load_image` takes pages for good exactly
when one can be had for the first segment; otherwise it fails and leaves the
address space as it was. -/
theorem elf64LoadImage_accounts (h : Tables user root σ a) (hk : user k)
    (hroot : root k = some pml4.toNat) (hnz : ∀ {p f}, Owns user σ.mem root k p f → f ≠ 0)
    (hfirst : FirstSegment σ.mem image imageSize seg) :
    Accounts user root k σ a (Takes user root k σ a seg.mapStart)
      (elf64LoadImage σ pml4 image imageSize).2 ∧
    (¬ Takes user root k σ a seg.mapStart → (elf64LoadImage σ pml4 image imageSize).1 = none) := by
  obtain ⟨hvalid, i, hi, hmin, hseg⟩ := hfirst
  have hrange := segmentOf_spec hseg
  obtain ⟨n, hn⟩ : ∃ n, 2 ^ 16 = n + 1 + i :=
    ⟨2 ^ 16 - 1 - i, by have := hi.1; have := (headerAt σ.mem image.toNat).phnum.isLt; omega⟩
  obtain ⟨d, hd⟩ : ∃ d, seg.pages = d + 1 := by
    refine ⟨seg.pages - 1, ?_⟩
    have := hrange.pages_le.2
    have := hrange.mapStart
    have := hrange.mapEnd
    have := hrange.nonempty
    omega
  have hinside : seg.mapStart.toNat < seg.mapEnd.toNat := by
    have := hrange.pages_le.2
    omega
  -- the loop on headers comes to the first page of the segment
  have hheaders : loadHeaders pml4 image imageSize (loadBias σ.mem image) (2 ^ 16) 0 false σ =
      loadHeaders pml4 image imageSize (loadBias σ.mem image) (n + 1) i false σ := by
    rw [hn, loadHeaders_skip (fun j _ hj => hmin j (by omega)) (by have := hi.1; omega),
      Nat.zero_add]
  rw [loadHeaders_load hi, hseg] at hheaders
  dsimp only at hheaders
  rw [hd, loadPages] at hheaders
  rcases mapFreshPage_accounts h hk hroot hnz seg.mapStart seg.flags
      fillPage_inside
      ((elf64Validate_spec hvalid).fills hi hseg hinside a.free) with
    ⟨σ₁, heq, hacc⟩ | ⟨σ₁, heq, htakes, hacc⟩
  · rw [heq] at hheaders
    refine ⟨?_, fun _ => ?_⟩
    · rw [elf64LoadImage_snd hvalid, hheaders]
      exact hacc
    · rw [elf64LoadImage, hvalid, if_neg (by decide)]
      dsimp only
      rw [hheaders]
  · rw [heq] at hheaders
    dsimp only at hheaders
    refine ⟨hacc.after htakes fun a₁ h₁ => ?_, fun hno => absurd htakes hno⟩
    rw [elf64LoadImage_snd hvalid, hheaders]
    have hkept := keptByPages_grown (σ := σ₁) (a := a₁) hk hroot
    refine Ends.final ?_
    have hloop : Ends Prod.snd _ _ (loadPages pml4 image imageSize (loadBias σ.mem image)
        (programHeaderAddress σ.mem image i) seg d (seg.mapStart + 4096)
        (false || entryInPage σ₁.mem image (loadBias σ.mem image) seg.mapStart) σ₁) :=
      loadPages_ends hkept (Grown.refl h₁)
    split
    · rename_i hload
      exact hload ▸ hloop
    · rename_i hload
      rw [hload] at hloop
      exact loadHeaders_ends hkept id hloop

end Account

/-! ### Processes -/

/-- A page can be had for the first segment of the image: page 0 is free (and
will be lost), or the segment starts in the user's part on a page that is not
mapped, and there are a page for it and one for the first missing table. -/
def LoadTakes (K : Kernel) (i : Slot) (image imageSize : U64) : Prop :=
  image ≠ 0 ∧ imageSize ≠ 0 ∧ ∃ seg, FirstSegment K.phys.mem image imageSize seg ∧
    (0 ∈ freeSet bootstrapLimit K.phys.pmm ∨
      pml4Index seg.mapStart = userPml4Index ∧
      addressSpaceTranslateUser K.phys.mem (K.processes i).pml4Physical seg.mapStart = none ∧
      (userLeaf K.phys.mem (K.processes i).pml4Physical seg.mapStart ≠ none ∧
          1 ≤ (pmmFreePages K.phys.pmm).toNat ∨
        2 ≤ (pmmFreePages K.phys.pmm).toNat))

/-- The process has an address space: a tree of frames that are allocated, each
reached once, and none of them frame 0. -/
structure LiveSpace (K : Kernel) (i : Slot) (a : PageSets) : Prop where
  tables : Tables single (singleRoot (K.processes i).pml4Physical) K.phys a
  nonzero : ∀ {p f}, Owns single K.phys.mem (singleRoot (K.processes i).pml4Physical) () p f → f ≠ 0

section Processes

variable {K : Kernel} {i : Slot} {a : PageSets} {image imageSize : U64} {seg : Segment}

/-- A live process has a space. -/
theorem LiveSpace.pml4_ne (h : LiveSpace K i a) : (K.processes i).pml4Physical ≠ 0 := fun hzero =>
  h.nonzero (owned_nil.2 rfl) (congrArg BitVec.toNat hzero)

/-- The last table of an address is there when its leaf entry is. -/
theorem userLeaf_ne_none {σ : Phys} {pml4 va : U64} (h : Tables single (singleRoot pml4) σ a)
    (hva : pml4Index va = userPml4Index) :
    userLeaf σ.mem pml4 va ≠ none ↔ ∃ t, Owns single σ.mem (singleRoot pml4) ()
    (tablePathOf va) t := by
  have hpath : UserPath (tablePathOf va) := (userPath_pathOf hva).above (p := [ptIndex va])
  rw [userLeaf, ne_eq, Option.map_eq_none_iff, ← ne_eq, Option.ne_none_iff_exists']
  refine exists_congr fun t => ?_
  rw [← h.owned_nextUser]
  constructor
  · exact fun hwalk => ⟨Or.inr ⟨trivial, hpath⟩, _, rfl, hwalk⟩
  · rintro ⟨-, r, hr, hwalk⟩
    obtain rfl := Option.some.inj hr
    exact hwalk

/-- `LoadTakes`, as said about the tree. -/
theorem LiveSpace.takes_iff (h : LiveSpace K i a)
    (hfirst : FirstSegment K.phys.mem image imageSize seg) (himage : image ≠ 0)
    (hsize : imageSize ≠ 0) :
    LoadTakes K i image imageSize ↔
      Takes single (singleRoot (K.processes i).pml4Physical) () K.phys a seg.mapStart := by
  obtain ⟨hbelow, huser⟩ := hfirst.userPage_iff
  have hfree : 0 ∈ freeSet bootstrapLimit K.phys.pmm ↔ 0 ∈ a.free := by
    rw [h.tables.refines.freeSet_eq]
  have hcount : (pmmFreePages K.phys.pmm).toNat = a.free.card := h.tables.refines.freeCount
  have hmapped : pml4Index seg.mapStart = userPml4Index →
      (addressSpaceTranslateUser K.phys.mem (K.processes i).pml4Physical seg.mapStart = none ↔
        ∀ f, ¬ Owns single K.phys.mem (singleRoot (K.processes i).pml4Physical) ()
          (pathOf seg.mapStart) f) := by
    intro hindex
    rw [Option.eq_none_iff_forall_ne_some]
    constructor
    · intro hnone f ho
      exact hnone _ ((addressSpaceTranslateUser_iff h.tables trivial rfl _ _).2
        ⟨hindex, hbelow, f, ho, rfl⟩)
    · intro hno pa hpa
      obtain ⟨-, -, f, ho, -⟩ := (addressSpaceTranslateUser_iff h.tables trivial rfl _ _).1 hpa
      exact hno f ho
  rw [LoadTakes, and_iff_right himage, and_iff_right hsize, Takes, huser, ← hcount, ← hfree]
  constructor
  · rintro ⟨seg', hfirst', hcond⟩
    obtain rfl := hfirst.unique hfirst'
    refine hcond.imp_right fun hroom => ⟨hroom.1, (hmapped hroom.1).1 hroom.2.1, ?_⟩
    have hleaf := hroom.2.2
    rwa [userLeaf_ne_none h.tables hroom.1] at hleaf
  · intro hcond
    refine ⟨seg, hfirst, hcond.imp_right fun hroom =>
      ⟨hroom.1, (hmapped hroom.1).2 hroom.2.1, ?_⟩⟩
    rw [userLeaf_ne_none h.tables hroom.1]
    exact hroom.2.2

/-- What `process_prepare_elf` leaves of the process record. -/
theorem prepareImage_process (info : ProcessImage) :
    let K' := (prepareImage K i image imageSize info).2.2
    (K'.processes i).pml4Physical = (K.processes i).pml4Physical ∧
    ((K.processes i).state ≠ .unused → (K'.processes i).state ≠ .unused) := by
  unfold prepareImage
  dsimp only
  rcases elf64LoadImage K.phys (K.processes i).pml4Physical image imageSize with ⟨_ | e, σ₁⟩
  · exact ⟨rfl, id⟩
  · dsimp only
    cases mapUserStack σ₁ (K.processes i).pml4Physical userStackBottom userStackTop with
    | error σ₂ => exact ⟨rfl, id⟩
    | ok σ₂ =>
      rw [setProcess_self]
      exact ⟨rfl, fun _ => by simp⟩

/-- `LoadTakes` needs a first segment. -/
theorem LoadTakes.first (h : LoadTakes K i image imageSize) :
    ∃ seg, FirstSegment K.phys.mem image imageSize seg := by
  obtain ⟨-, -, seg, hfirst, -⟩ := h
  exact ⟨seg, hfirst⟩

/-- The two parts of `process_prepare_elf`, to the page. -/
theorem LiveSpace.prepareImage_accounts (h : LiveSpace K i a) (info : ProcessImage)
    (himage : image ≠ 0) (hsize : imageSize ≠ 0) :
    Accounts single (singleRoot (K.processes i).pml4Physical) () K.phys a
      (LoadTakes K i image imageSize) (prepareImage K i image imageSize info).2.2.phys := by
  rcases Classical.em (∃ seg, FirstSegment K.phys.mem image imageSize seg) with ⟨seg, hfirst⟩ | hno
  · rw [h.takes_iff hfirst himage hsize]
    obtain ⟨hacc, hfail⟩ := elf64LoadImage_accounts h.tables trivial rfl h.nonzero hfirst
    unfold prepareImage
    dsimp only
    generalize elf64LoadImage K.phys (K.processes i).pml4Physical image imageSize = r
      at hacc hfail ⊢
    obtain ⟨_ | e, σ₁⟩ := r
    · exact hacc
    · have htakes := Classical.not_not.1 fun hno => Option.some_ne_none e (hfail hno)
      dsimp only
      have hgrown := fun a₁ (h₁ : Tables single (singleRoot (K.processes i).pml4Physical) σ₁ a₁) =>
        mapUserStack_grown (k := ()) trivial rfl userStackBottom userStackTop (Grown.refl h₁)
      generalize mapUserStack σ₁ (K.processes i).pml4Physical userStackBottom userStackTop = stack
        at hgrown ⊢
      cases stack with
      | error σ₂ => exact hacc.after htakes hgrown
      | ok σ₂ => exact hacc.after htakes hgrown
  · have hidle : elf64LoadImage K.phys (K.processes i).pml4Physical image imageSize =
        (none, K.phys) :=
      elf64LoadImage_idle fun seg hseg => hno ⟨seg, hseg⟩
    rw [prepareImage, hidle]
    exact Accounts.idle h.tables fun htakes => hno htakes.first

/-- **`process_prepare_elf`, to the page.**  On a process with an address space,
pages are gone after the call exactly when one could be had for the first
segment; otherwise the allocator and the address space are as before. -/
theorem LiveSpace.prepareElf_accounts (h : LiveSpace K i a) (image imageSize : U64)
    (imageInfo : Option ProcessImage) :
    let K' := (processPrepareElf K (some i) image imageSize imageInfo).2.2
    Accounts single (singleRoot (K.processes i).pml4Physical) () K.phys a
      (imageInfo.isSome ∧ LoadTakes K i image imageSize) K'.phys ∧
    (K'.processes i).pml4Physical = (K.processes i).pml4Physical ∧
    ((K.processes i).state ≠ .unused → (K'.processes i).state ≠ .unused) := by
  cases imageInfo with
  | none => exact ⟨Accounts.idle h.tables fun hP => absurd hP.1 (by simp), rfl, id⟩
  | some info =>
    by_cases hargs : image = 0 ∨ imageSize = 0
    · dsimp only
      rw [processPrepareElf]
      dsimp only
      rw [if_pos hargs]
      refine ⟨Accounts.idle h.tables fun htakes => ?_, rfl, id⟩
      exact hargs.elim htakes.2.1 htakes.2.2.1
    · rw [not_or] at hargs
      rw [processPrepareElf_live hargs.1 hargs.2 h.pml4_ne]
      refine ⟨?_, prepareImage_process info⟩
      rw [show (some info).isSome = true from rfl, and_iff_right rfl]
      exact h.prepareImage_accounts info hargs.1 hargs.2

/-- The two parts of `process_prepare_elf` answer 0 or -1. -/
theorem prepareImage_rc (info : ProcessImage) :
    (prepareImage K i image imageSize info).1 = 0 ∨
    (prepareImage K i image imageSize info).1 = -1 := by
  unfold prepareImage
  dsimp only
  rcases elf64LoadImage K.phys (K.processes i).pml4Physical image imageSize with ⟨_ | e, σ₁⟩
  · exact Or.inr rfl
  · dsimp only
    cases mapUserStack σ₁ (K.processes i).pml4Physical userStackBottom userStackTop with
    | error σ₂ => exact Or.inr rfl
    | ok σ₂ => exact Or.inl rfl

/-- `process_prepare_elf` answers 0 or -1, whatever it is given. -/
theorem processPrepareElf_rc (K : Kernel) (i : Slot) (image imageSize : U64)
    (imageInfo : Option ProcessImage) :
    (processPrepareElf K (some i) image imageSize imageInfo).1 = 0 ∨
      (processPrepareElf K (some i) image imageSize imageInfo).1 = -1 := by
  cases imageInfo with
  | none => exact Or.inr rfl
  | some info =>
    unfold processPrepareElf
    dsimp only
    split_ifs
    · exact Or.inr rfl
    · exact Or.inr rfl
    · exact prepareImage_rc info

end Processes

/-- The call has left every translation of the process and the number of free
pages as they were. -/
def LeavesAlone (K K' : Kernel) (i : Slot) : Prop :=
  (∀ va, addressSpaceTranslateUser K'.phys.mem (K'.processes i).pml4Physical va =
    addressSpaceTranslateUser K.phys.mem (K.processes i).pml4Physical va) ∧
  pmmFreePages K'.phys.pmm = pmmFreePages K.phys.pmm

/-- Lost pages show in the number of free pages. -/
theorem LiveSpace.not_leavesAlone (h : LiveSpace K i a) {imageInfo : Option ProcessImage}
    (htakes : imageInfo.isSome ∧ LoadTakes K i image imageSize) :
    ¬ LeavesAlone K (processPrepareElf K (some i) image imageSize imageInfo).2.2 i := by
  obtain ⟨⟨a', h', -, hlost, -⟩, -⟩ := h.prepareElf_accounts image imageSize imageInfo
  rintro ⟨-, hsame⟩
  have hcount : (pmmFreePages K.phys.pmm).toNat = a.free.card := h.tables.refines.freeCount
  have hcount' : (pmmFreePages _).toNat = a'.free.card := h'.refines.freeCount
  have := hlost htakes
  rw [hsame] at hcount'
  omega

/-- **A load is undone exactly when it could not take its first page.**  Whether
it fails or not, `process_prepare_elf` leaves the translations and the number of
free pages as they were if and only if no page could be had for the first segment. -/
theorem prepareElf_leavesAlone_iff (K : Kernel) (i : Slot) (image imageSize : U64)
    (imageInfo : Option ProcessImage) (hlive : ∃ a, LiveSpace K i a) :
    LeavesAlone K (processPrepareElf K (some i) image imageSize imageInfo).2.2 i ↔
      ¬ (imageInfo.isSome ∧ LoadTakes K i image imageSize) := by
  obtain ⟨a, h⟩ := hlive
  constructor
  · exact fun hsame htakes => h.not_leavesAlone htakes hsame
  · intro hno
    obtain ⟨⟨a', h', -, -, hkept⟩, hpml4, -⟩ := h.prepareElf_accounts image imageSize imageInfo
    obtain ⟨hfree, howns⟩ := hkept hno
    refine ⟨fun va => ?_, BitVec.eq_of_toNat_eq ?_⟩
    · rw [hpml4]
      exact addressSpaceTranslateUser_congr h.tables h' trivial rfl rfl howns va
    · exact h'.refines.freeCount.trans (hfree ▸ h.tables.refines.freeCount.symm)

/-- The image is not in free memory, nor in a table of the process: loading it does not
write over it. -/
def ImageSafe (K : Kernel) (i : Slot) (a : PageSets) (image imageSize : U64) : Prop :=
  Apart single (singleRoot (K.processes i).pml4Physical) () K.phys a (InImage image imageSize)

/-- The image is a program and there is room for its pages and its stack: they are not
mapped yet, and there are frames for them and for the missing tables. -/
structure LoadFits (K : Kernel) (i : Slot) (a : PageSets) (image imageSize : U64) : Prop where
  program : IsProgram K.phys.mem image imageSize
  room : Room single (singleRoot (K.processes i).pml4Physical) () K.phys a
    (programPages K.phys.mem image)

/-- **Which loads succeed**, in an address space that may have mappings already. -/
theorem LiveSpace.prepareElf_ok_iff (h : LiveSpace K i a) (imageInfo : Option ProcessImage)
    (hapart : ImageSafe K i a image imageSize) :
    (processPrepareElf K (some i) image imageSize imageInfo).1 = 0 ↔
      imageInfo.isSome ∧ LoadFits K i a image imageSize := by
  cases imageInfo with
  | none => exact iff_of_false (by decide : (-1 : ℤ) ≠ 0) fun h => by simp at h
  | some info =>
    rw [show (some info).isSome = true from rfl, and_iff_right rfl]
    by_cases hargs : image = 0 ∨ imageSize = 0
    · rw [processPrepareElf, if_pos hargs]
      exact iff_of_false (by decide : (-1 : ℤ) ≠ 0) fun hfits => hfits.program.args hargs
    · rw [not_or] at hargs
      rw [processPrepareElf_live_rc hargs.1 hargs.2 h.pml4_ne,
        prepareImage_ok_iff_room h.tables h.nonzero ⟨fun _ _ => rfl, hapart⟩]
      exact ⟨fun hok => ⟨hok.1, hok.2⟩, fun hfits => ⟨hfits.program, hfits.room⟩⟩

/-- **A failed load is undone** exactly when no page could be had for the first segment: the load
of an image that stays as it is keeps its promise if and only if it takes nothing or succeeds, and
it succeeds for programs that there is room for.  For an image that loading writes over, success
is left as what the call returns. -/
theorem prepareElf_atomic_iff (K : Kernel) (i : Slot) (image imageSize : U64)
    (imageInfo : Option ProcessImage) {a : PageSets} (hlive : LiveSpace K i a) :
    let r := processPrepareElf K (some i) image imageSize imageInfo
    let takes := imageInfo.isSome ∧ LoadTakes K i image imageSize
    (ImageSafe K i a image imageSize →
      ((r.1 = -1 → LeavesAlone K r.2.2 i) ↔
        ¬ takes ∨ imageInfo.isSome ∧ LoadFits K i a image imageSize)) ∧
    ((r.1 = -1 → LeavesAlone K r.2.2 i) ↔ ¬ takes ∨ r.1 = 0) := by
  dsimp only
  have hiff := prepareElf_leavesAlone_iff K i image imageSize imageInfo ⟨a, hlive⟩
  have hgeneral : ((processPrepareElf K (some i) image imageSize imageInfo).1 = -1 →
      LeavesAlone K (processPrepareElf K (some i) image imageSize imageInfo).2.2 i) ↔
      ¬ (imageInfo.isSome ∧ LoadTakes K i image imageSize) ∨
        (processPrepareElf K (some i) image imageSize imageInfo).1 = 0 := by
    rw [hiff]
    constructor
    · intro hatomic
      rcases processPrepareElf_rc K i image imageSize imageInfo with hok | hfail
      · exact Or.inr hok
      · exact Or.inl (hatomic hfail)
    · rintro (hno | hok) hfail
      · exact hno
      · exact absurd (hok.symm.trans hfail) (by decide)
  refine ⟨fun hapart => ?_, hgeneral⟩
  rw [hgeneral, hlive.prepareElf_ok_iff imageInfo hapart]

section Sample

variable {bytes : List U8} (hlen : bytes.length ≤ 4096)
include hlen

/-- A new process has an address space of one frame. -/
theorem imageProcess_live : LiveSpace (imageProcess bytes) 0 (bootedPages.take 512) := by
  obtain ⟨htables, hself⟩ := (imagePhys_fresh hlen).tables (imagePhys_refines bytes)
  refine ⟨htables, fun ho => ?_⟩
  rw [(hself ho).2]
  decide

/-- In a new process with free pages around, the first page can be had. -/
theorem imageProcess_takes {seg : Segment} (hsize : imageSize ≠ 0)
    (hfirst : FirstSegment (imageMem bytes) 0x100000 imageSize seg)
    (hindex : pml4Index seg.mapStart = userPml4Index) :
    LoadTakes (imageProcess bytes) 0 0x100000 imageSize := by
  obtain ⟨-, hself⟩ := (imagePhys_fresh hlen).tables (imagePhys_refines bytes)
  refine ((imageProcess_live hlen).takes_iff hfirst (by decide) hsize).2
    (Or.inr ⟨hfirst.userPage_iff.2.2 hindex, fun f ho => absurd (hself ho).1 (by simp [pathOf]),
      Or.inr ?_⟩)
  have := bootedPages_room.2
  omega

end Sample

/-- The image from before with its program header twice. -/
def overlapImage : List U8 :=
  [0x7F, 0x45, 0x4C, 0x46, 2, 1, 1, 0, 0, 0, 0, 0, 0, 0, 0, 0, 2, 0, 62, 0, 1, 0, 0, 0,
    0, 0, 0, 0, 0x80, 0, 0, 0, 64, 0, 0, 0, 0, 0, 0, 0, 0, 0, 0, 0, 0, 0, 0, 0,
    0, 0, 0, 0, 64, 0, 56, 0, 2, 0, 0, 0, 0, 0, 0, 0] ++
  [1, 0, 0, 0, 5, 0, 0, 0, 176, 0, 0, 0, 0, 0, 0, 0, 0, 0, 0, 0, 0x80, 0, 0, 0,
    0, 0, 0, 0, 0, 0, 0, 0, 4, 0, 0, 0, 0, 0, 0, 0, 8, 0, 0, 0, 0, 0, 0, 0,
    0, 0, 0, 0, 0, 0, 0, 0] ++
  [1, 0, 0, 0, 5, 0, 0, 0, 176, 0, 0, 0, 0, 0, 0, 0, 0, 0, 0, 0, 0x80, 0, 0, 0,
    0, 0, 0, 0, 0, 0, 0, 0, 4, 0, 0, 0, 0, 0, 0, 0, 8, 0, 0, 0, 0, 0, 0, 0,
    0, 0, 0, 0, 0, 0, 0, 0] ++ [0x90, 0x90, 0xEB, 0xFE]

theorem overlapImage_length : overlapImage.length ≤ 4096 := by
  rw [show overlapImage.length = 180 from rfl]
  omega

/-- The two program headers of the image are the same. -/
theorem overlapImage_header {n : ℕ} (hn : n < 2) :
    Loadable (imageMem overlapImage) 0x100000 n ∧
      programHeader (imageMem overlapImage) 0x100000 n = ⟨1, 5, 176, 0x8000000000, 4, 8⟩ := by
  have h : ∀ n : Fin 2, Loadable (imageMem overlapImage) 0x100000 n ∧
      programHeader (imageMem overlapImage) 0x100000 n = ⟨1, 5, 176, 0x8000000000, 4, 8⟩ := by
    unfold Loadable
    decide +kernel
  exact h ⟨n, hn⟩

/-- The first segment gets its pages. -/
theorem overlapImage_first :
    FirstSegment (imageMem overlapImage) 0x100000 180 sampleSegment := by
  obtain ⟨hl, hheader⟩ := overlapImage_header (n := 0) (by decide)
  refine ⟨by decide +kernel, 0, hl, fun j hj => absurd hj (Nat.not_lt_zero j), ?_⟩
  rw [hheader, show loadBias (imageMem overlapImage) 0x100000 = 0 by decide +kernel]
  rfl

/-- The second header asks for the page of the first: loading fails. -/
theorem overlapImage_fails (info : ProcessImage) :
    (processPrepareElf (imageProcess overlapImage) (some 0) 0x100000 180 (some info)).1 = -1 := by
  obtain ⟨htables, -⟩ :=
    (imagePhys_fresh overlapImage_length).tables (imagePhys_refines overlapImage)
  rw [processPrepareElf_live_rc (by decide) (by decide) (by decide)]
  refine (prepareImage_rc info).resolve_left fun hok => ?_
  have hphys : (imageProcess overlapImage).phys = imagePhys overlapImage := rfl
  have hpml4 : ((imageProcess overlapImage).processes 0).pml4Physical = 0x200000 := rfl
  generalize imageProcess overlapImage = K at hok hphys hpml4
  obtain ⟨e, σ₁, -, hload, -⟩ := prepareImage_ok hok
  rw [hphys, hpml4] at hload
  obtain ⟨-, ⟨a₁, hmaps, -⟩, -⟩ := elf64LoadImage_maps htables trivial rfl
    (imagePhys_sees overlapImage_length (by decide)) hload
  have hbias : loadBias (imageMem overlapImage) 0x100000 = 0 := by decide +kernel
  have hpage : ∀ n < 2, ∃ pg ∈ headerPages (imageMem overlapImage) 0x100000 0 n,
      pg.va = sampleSegment.mapStart := by
    intro n hn
    obtain ⟨hl, hheader⟩ := overlapImage_header hn
    refine ⟨_, (mem_headerPages hl.1).2 ⟨hl, sampleSegment, ?_, 0, by decide, rfl⟩, ?_⟩
    · rw [hheader]
      rfl
    · rfl
  have hdistinct := hmaps.distinct
  rw [hbias, show (headerAt (imageMem overlapImage) (0x100000 : U64).toNat).phnum.toNat - 0 = 2 by
    decide +kernel, show List.range' 0 2 = [0, 1] from rfl, List.flatMap_cons, List.flatMap_cons]
    at hdistinct
  obtain ⟨pg, hpg, hva⟩ := hpage 0 (by decide)
  obtain ⟨pg', hpg', hva'⟩ := hpage 1 (by decide)
  refine (List.pairwise_append.1 hdistinct).2.2 pg hpg pg' ?_ (by rw [hva, hva'])
  exact List.mem_append_left _ hpg'

/-- So loading takes pages. -/
theorem overlapImage_takes : LoadTakes (imageProcess overlapImage) 0 0x100000 180 :=
  imageProcess_takes overlapImage_length (by decide) overlapImage_first (by decide)

/-- The second segment is refused then, and the pages of the first one stay. -/
theorem overlapImage_not_atomic :
    (processPrepareElf (imageProcess overlapImage) (some 0) 0x100000 180 (some ⟨0, 0, 0⟩)).1 = -1 ∧
    ¬ LeavesAlone (imageProcess overlapImage)
      (processPrepareElf (imageProcess overlapImage) (some 0)
      0x100000 180 (some ⟨0, 0, 0⟩)).2.2 0 :=
  ⟨overlapImage_fails _, (imageProcess_live overlapImage_length).not_leavesAlone ⟨rfl,
    overlapImage_takes⟩⟩

/-- The image from before, with the end of its program header cut off: no page is taken for it. -/
theorem cutImage_takes : ¬ LoadTakes (imageProcess sampleImage) 0 0x100000 100 := by
  rintro ⟨-, -, seg, ⟨hvalid, -⟩, -⟩
  rw [show (imageProcess sampleImage).phys.mem = imageMem sampleImage from rfl] at hvalid
  exact absurd hvalid (by decide +kernel)

/-- It is refused, and all is as before. -/
theorem cutImage_atomic :
    (processPrepareElf (imageProcess sampleImage) (some 0) 0x100000 100 (some ⟨0, 0, 0⟩)).1 = -1 ∧
    LeavesAlone (imageProcess sampleImage) (processPrepareElf (imageProcess sampleImage) (some 0)
      0x100000 100 (some ⟨0, 0, 0⟩)).2.2 0 := by
  have hlive := imageProcess_live sampleImage_length
  have hrc : (processPrepareElf (imageProcess sampleImage) (some 0) 0x100000 100
      (some ⟨0, 0, 0⟩)).1 = -1 := by
    refine (processPrepareElf_rc ..).resolve_left fun hok => cutImage_takes ?_
    have hapart : ImageSafe (imageProcess sampleImage) 0 (bootedPages.take 512) 0x100000 100 :=
      (imagePhys_sees sampleImage_length (by decide : (100 : U64).toNat ≤ 4096)).apart
    have hvalid := ((hlive.prepareElf_ok_iff _ hapart).1 hok).2.program.valid
    rw [show (imageProcess sampleImage).phys.mem = imageMem sampleImage from rfl] at hvalid
    exact absurd hvalid (by decide +kernel)
  exact ⟨hrc, (prepareElf_atomic_iff (imageProcess sampleImage) 0 0x100000 100 (some ⟨0, 0, 0⟩)
    hlive).2.2 (Or.inl fun htakes => cutImage_takes htakes.2) hrc⟩

/-! ### From creation to destruction -/

/-- The allocator has the same free pages, and counts the same number of them. -/
def SameFree (s s' : Pmm) : Prop :=
  freeSet bootstrapLimit s' = freeSet bootstrapLimit s ∧ pmmFreePages s' = pmmFreePages s

/-- Allocators with the same free pages have equally many. -/
theorem SameFree.card_eq {s s' : Pmm} {a' : PageSets} (h : SameFree s s')
    (hr : Refines bootstrapLimit s a) (hr' : Refines bootstrapLimit s' a') :
    a'.free.card = a.free.card := by
  rw [← hr.freeSet_eq, ← hr'.freeSet_eq, h.1]

/-- What `process_create` has made: a process with an address space, for one page. -/
theorem processCreate_live {K₁ : Kernel} {pid : U64}
    (hr : Refines bootstrapLimit K.phys.pmm a) (hcreate : processCreate K pid = (some i, K₁)) :
    ∃ c ∈ a.free, LiveSpace K₁ i (a.take c) ∧ (K₁.processes i).pml4Physical.toNat = 4096 * c ∧
      (K₁.processes i).state ≠ .unused := by
  obtain ⟨hspace, hstate⟩ := processCreate_space hcreate
  have hn := addressSpaceCreate_some hr hspace
  obtain ⟨htables, hself⟩ := (hn.fresh hr).tables hn.refines
  refine ⟨_, hn.free, ⟨htables, fun ho => ?_⟩,
    (Nat.mul_div_cancel' (Nat.dvd_of_mod_eq_zero hn.aligned)).symm, hstate⟩
  rw [(hself ho).2]
  exact fun hzero => hn.notNull (BitVec.eq_of_toNat_eq hzero)

/-- `process_destroy` gives back the PML4, and nothing else. -/
theorem processDestroy_pmm (hstate : (K.processes i).state ≠ .unused)
    (hpml4 : (K.processes i).pml4Physical ≠ 0) :
    (processDestroy K (some i)).phys.pmm =
      pmmFreePage bootstrapLimit K.phys.pmm (K.processes i).pml4Physical := by
  rw [processDestroy, if_neg hstate, addressSpaceDestroy, if_neg hpml4]
  rfl

/-- A life of a process: the account at its end.  `c` is the page of the PML4. -/
theorem lifetime_accounts {K₁ : Kernel} {pid : U64}
    (hr : Refines bootstrapLimit K.phys.pmm a) (hcreate : processCreate K pid = (some i, K₁))
    (image imageSize : U64) (imageInfo : Option ProcessImage) :
    ∃ a', Refines bootstrapLimit (processDestroy (processPrepareElf K₁ (some i) image imageSize
        imageInfo).2.2 (some i)).phys.pmm a' ∧
      ((imageInfo.isSome ∧ LoadTakes K₁ i image imageSize) → a'.free.card < a.free.card) ∧
      (¬ (imageInfo.isSome ∧ LoadTakes K₁ i image imageSize) → a'.free = a.free) := by
  obtain ⟨c, hc, hlive, hpml4, hstate⟩ := processCreate_live hr hcreate
  obtain ⟨⟨a₂, h₂, hg, hlost, hkept⟩, hsame, hstate₂⟩ :=
    hlive.prepareElf_accounts image imageSize imageInfo
  obtain ⟨hu, hres, -⟩ := PageSets.mem_free.1 hc
  have hcard := PageSets.card_free_take hc
  have hmem : c ∈ a₂.allocated := hg.allocated (Finset.mem_insert_self _ _)
  have hback := PageSets.card_free_giveBack (a := a₂) (p := c) (by rw [hg.usable]; exact hu)
    (by rw [hg.reserved]; exact hres) hmem
  refine ⟨a₂.giveBack c, ?_, fun htakes => ?_, fun hno => ?_⟩
  · rw [processDestroy_pmm (hstate₂ hstate) (by rw [hsame]; exact hlive.pml4_ne), hsame]
    exact h₂.refines.freePage hmem hpml4
  · have := hlost htakes
    omega
  · have hfree := (hkept hno).1
    refine Finset.eq_of_subset_of_card_le (fun q hq => ?_) ?_
    · rw [PageSets.mem_free, PageSets.giveBack, Finset.mem_erase] at hq
      rcases eq_or_ne q c with rfl | hne
      · exact hc
      · have : q ∈ a₂.free := PageSets.mem_free.2 ⟨hq.1, hq.2.1, fun h => hq.2.2 ⟨hne, h⟩⟩
        rw [hfree, PageSets.free_take] at this
        exact Finset.mem_of_mem_erase this
    · rw [hback, hfree, hcard]

/-- **A process leaves no page behind exactly when it could not take one.**  From
`process_create` to `process_destroy`, with one `process_prepare_elf` between, the
free pages at the end are those of the beginning if and only if no page could be
had for the first segment of the image. -/
theorem lifetime_sameFree_iff (K K₁ : Kernel) (pid : U64) (i : Slot) (image imageSize : U64)
    (imageInfo : Option ProcessImage) (hpmm : PmmReached K.phys.pmm)
    (hcreate : processCreate K pid = (some i, K₁)) :
    SameFree K.phys.pmm
      (processDestroy (processPrepareElf K₁ (some i) image imageSize imageInfo).2.2
        (some i)).phys.pmm ↔
    ¬ (imageInfo.isSome ∧ LoadTakes K₁ i image imageSize) := by
  obtain ⟨a, hr⟩ := hpmm.refines
  obtain ⟨a', hr', hlost, hkept⟩ := lifetime_accounts hr hcreate image imageSize imageInfo
  constructor
  · exact fun hsame htakes => Nat.ne_of_lt (hlost htakes) (hsame.card_eq hr hr')
  · intro hno
    have hfree := hkept hno
    refine ⟨by rw [hr.freeSet_eq, hr'.freeSet_eq, hfree], BitVec.eq_of_toNat_eq ?_⟩
    exact hr'.freeCount.trans (hfree ▸ hr.freeCount.symm)

/-- A process whose image is refused leaves nothing. -/
theorem cutImage_sameFree :
    processCreate (imageKernel sampleImage) 1 = (some 0, imageProcess sampleImage) ∧
    SameFree (imageKernel sampleImage).phys.pmm (processDestroy (processPrepareElf
      (imageProcess sampleImage) (some 0) 0x100000 100 (some ⟨0, 0, 0⟩)).2.2 (some 0)).phys.pmm :=
  ⟨imageKernel_create sampleImage_length,
    (lifetime_sameFree_iff (imageKernel sampleImage) (imageProcess sampleImage) 1 0 0x100000 100
      (some ⟨0, 0, 0⟩) (imageKernel_pmm sampleImage ▸ bootedPmm_reached)
      (imageKernel_create sampleImage_length)).2 fun htakes => cutImage_takes htakes.2⟩

/-- The sample image gets pages. -/
theorem sampleImage_first :
    FirstSegment (imageMem sampleImage) 0x100000 124 sampleSegment := by
  obtain ⟨hl, hseg⟩ := sampleImage_segment
  refine ⟨by decide +kernel, 0, hl, fun j hj => absurd hj (Nat.not_lt_zero j), ?_⟩
  rw [show loadBias (imageMem sampleImage) 0x100000 = 0 by decide +kernel]
  exact hseg

/-- They are not given back when its process is destroyed. -/
theorem sampleImage_leaks :
    processCreate (imageKernel sampleImage) 1 = (some 0, imageProcess sampleImage) ∧
    ¬ SameFree (imageKernel sampleImage).phys.pmm (processDestroy (processPrepareElf
      (imageProcess sampleImage) (some 0) 0x100000 124 (some ⟨0, 0, 0⟩)).2.2
      (some 0)).phys.pmm := by
  have hcreate := imageKernel_create sampleImage_length
  have hr : Refines bootstrapLimit (imageKernel sampleImage).phys.pmm bootedPages := by
    rw [imageKernel_pmm]
    exact bootedPmm_refines
  obtain ⟨a', hr', hlost, -⟩ := lifetime_accounts hr hcreate 0x100000 124 (some ⟨0, 0, 0⟩)
  have htakes := imageProcess_takes sampleImage_length (by decide) sampleImage_first (by decide)
  exact ⟨hcreate, fun hsame => Nat.ne_of_lt (hlost ⟨rfl, htakes⟩) (hsame.card_eq hr hr')⟩

end SuiraBox.Exec
