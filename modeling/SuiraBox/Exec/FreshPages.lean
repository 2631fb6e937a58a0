/-
# Fresh pages for user space

The body of the page loops of `elf64_load_image` (`kernel/elf_loader.c`) and of
`map_user_stack` (`kernel/process_exec.c`): take a page, clear it byte by byte,
fill it, map it, and give it back if it cannot be mapped.  The loader fills the
page from the image, the stack loop leaves it clear.

A `Mapping` is one page of a user address space as it should be; `Maps` says
that an address space has grown by a list of them and by nothing else.
-/

import SuiraBox.Mm.Ownership

namespace SuiraBox.Exec

open ByteMem Forest Mm

/-- The clearing loop: the first `n` bytes from `a` on. -/
def zeroBytes (m : Mem) (a : ℕ) : ℕ → Mem
  | 0 => m
  | n + 1 => write8 (zeroBytes m a n) (a + n) 0

/-- The copying loop: `n` bytes from `src` to `dst`, upwards. -/
def copyBytes (m : Mem) (dst src : ℕ) : ℕ → Mem
  | 0 => m
  | n + 1 => write8 (copyBytes m dst src n) (dst + n) (copyBytes m dst src n (src + n))

/-- One round of a page loop; `.error` is the way out by `return -1`, with the
state it leaves.  `fill` writes to the cleared page and may give up, without
giving the page back. -/
def mapFreshPage (fill : Mem → U64 → Option Mem) (pml4 va flags : U64) (σ : Phys) :
    Except Phys Phys :=
  let (page, pmm) := pmmAllocPage bootstrapLimit σ.pmm
  if page = 0 then .error { σ with pmm := pmm }
  else
    let m := zeroBytes σ.mem page.toNat 4096
    match fill m page with
    | none => .error ⟨m, pmm⟩
    | some m =>
      let (rc, σ) := addressSpaceMapUser ⟨m, pmm⟩ pml4 va page flags
      if rc ≠ 0 then .error { σ with pmm := pmmFreePage bootstrapLimit σ.pmm page } else .ok σ

variable {va : U64} {fill : Mem → U64 → Option Mem}

theorem zeroBytes_apply (m : Mem) (a n x : ℕ) :
    zeroBytes m a n x = if a ≤ x ∧ x < a + n then 0 else m x := by
  induction n with
  | zero => rw [zeroBytes, if_neg (by omega)]
  | succ n ih =>
    rw [zeroBytes, write8, ih]
    split_ifs <;> first | rfl | omega

/-- Clearing 4096 bytes clears a page. -/
theorem zeroBytes_page {page : ℕ} (halign : page % 4096 = 0) (m : Mem) (x : ℕ) :
    zeroBytes m page 4096 x = if x / 4096 = page / 4096 then 0 else m x := by
  rw [zeroBytes_apply]
  exact if_congr (by omega) rfl rfl

/-- The copy writes to its range only. -/
theorem copyBytes_of_outside (m : Mem) {dst src n x : ℕ} (h : x < dst ∨ dst + n ≤ x) :
    copyBytes m dst src n x = m x := by
  induction n with
  | zero => rfl
  | succ n ih =>
    rw [copyBytes, write8, if_neg (by omega), ih (by omega)]

/-- A copy from elsewhere. -/
theorem copyBytes_apply (m : Mem) {dst src n : ℕ} (hapart : dst + n ≤ src ∨ src + n ≤ dst) {j : ℕ}
    (hj : j < n) : copyBytes m dst src n (dst + j) = m (src + j) := by
  induction n with
  | zero => omega
  | succ n ih =>
    rw [copyBytes, write8]
    split_ifs with heq
    · obtain rfl : j = n := by omega
      exact copyBytes_of_outside m (by omega)
    · exact ih (by omega) (by omega)

/-! ### Address spaces that grow by whole pages -/

/-- A page of a user address space: its address, the flags it is asked for with
and its bytes. -/
structure Mapping where
  va : U64
  flags : U64
  bytes : ℕ → U8

/-- `n` pages from `va` on. -/
def pageRun (page : U64 → Mapping) : ℕ → U64 → List Mapping
  | 0, _ => []
  | n + 1, va => page va :: pageRun page n (va + 4096)

theorem mem_pageRun {page : U64 → Mapping} {n : ℕ} {pg : Mapping} :
    pg ∈ pageRun page n va ↔ ∃ t < n, pg = page (va + BitVec.ofNat 64 (4096 * t)) := by
  induction n generalizing va with
  | zero => exact iff_of_false (by simp [pageRun]) fun ⟨t, ht, _⟩ => by omega
  | succ n ih =>
    have hnext : ∀ t, va + 4096 + BitVec.ofNat 64 (4096 * t) =
        va + BitVec.ofNat 64 (4096 * (t + 1)) := by
      intro t
      rw [BitVec.add_assoc, Nat.mul_succ, BitVec.ofNat_add,
        BitVec.add_comm (BitVec.ofNat 64 (4096 * t))]
      rfl
    rw [pageRun, List.mem_cons, ih]
    constructor
    · rintro (rfl | ⟨t, ht, rfl⟩)
      · exact ⟨0, by omega, by simp⟩
      · exact ⟨t + 1, by omega, by rw [hnext]⟩
    · rintro ⟨t, ht, rfl⟩
      rcases t with _ | t
      · exact Or.inl (by simp)
      · exact Or.inr ⟨t, by omega, by rw [hnext]⟩

/-- The pages of PML4 slot 1. -/
theorem userPage_of_toNat (halign : va.toNat % 4096 = 0) (hlo : 2 ^ 39 ≤ va.toNat)
    (hhi : va.toNat < 2 ^ 40) : UserPage va := by
  refine ⟨(and_pageMask_eq_zero_iff va).2 halign, ?_, ?_⟩
  · rw [pml4Index, toNat_index, userPml4Index]
    omega
  · rw [BitVec.lt_def, show userLimit.toNat = 2 ^ 47 from rfl]
    omega

section Maps

variable {κ : Type*} {user : κ → Prop} {root : κ → Option ℕ} {k : κ} {σ σ' σ₁ σ₂ : Phys}
  {a a' a₁ a₂ : PageSets} {N : List ℕ → ℕ → Prop}

/-- Owner `k` has the page, with its bytes and a leaf entry for its flags. -/
structure Mapped (user : κ → Prop) (root : κ → Option ℕ) (k : κ) (σ : Phys) (pg : Mapping)
    (frame : U64) (pt : ℕ) : Prop where
  page : UserPage pg.va
  owns : Owns user σ.mem root k (pathOf pg.va) frame.toNat
  table : Owns user σ.mem root k (tablePathOf pg.va) pt
  leaf : slot σ.mem pt (ptIndex pg.va) = leafEntry frame pg.flags
  bytes : ∀ j < 4096, σ.mem (frame.toNat + j) = pg.bytes j

/-- Owner `k` has grown by the pages, none of which it had, and by nothing
else. -/
structure Maps (user : κ → Prop) (root : κ → Option ℕ) (k : κ) (pages : List Mapping)
    (σ : Phys) (a : PageSets) (σ' : Phys) (a' : PageSets) : Prop where
  tables : Tables user root σ' a'
  grows : Grows user root k (fun p _ => ∃ pg ∈ pages, p = pathOf pg.va) σ a σ' a'
  mapped : ∀ pg ∈ pages, ∃ frame pt, Mapped user root k σ' pg frame pt
  fresh : ∀ pg ∈ pages, ∀ f, ¬ Owns user σ.mem root k (pathOf pg.va) f
  distinct : pages.Pairwise fun pg pg' => pathOf pg.va ≠ pathOf pg'.va

/-- A mapped page stays as it is while its owner grows. -/
theorem Mapped.grows {pg : Mapping} {frame : U64} {pt : ℕ} (hm : Mapped user root k σ pg frame pt)
    (h : Tables user root σ a) (hg : Grows user root k N σ a σ' a') :
    Mapped user root k σ' pg frame pt := by
  have halign := h.aligned hm.owns
  have hlt : _ < 65536 := h.refines.allocated_lt (h.allocated hm.owns)
  obtain ⟨-, hpresent, -, -, -⟩ := leafEntry_spec pg.flags halign (by omega)
  refine ⟨hm.page, hg.keep hm.owns, hg.keep hm.table, ?_, fun j hj => ?_⟩
  · rw [← hm.leaf]
    refine hg.leaf hm.table rfl (index_lt ..) ?_
    rw [hm.leaf]
    exact hpresent
  · rw [← hm.bytes j hj]
    refine (hg.apart (h.apart_leaf hm.owns rfl)).2 _ ?_
    omega

theorem Maps.nil (h : Tables user root σ a) : Maps user root k [] σ a σ a :=
  ⟨h, (Grows.refl σ a).mono fun _ _ h => h.elim, by simp, by simp, List.Pairwise.nil⟩

/-- Only the bytes of the page count. -/
theorem Maps.congr_bytes {flags : U64} {b b' : ℕ → U8}
    (h : Maps user root k [⟨va, flags, b⟩] σ a σ' a') (hb : ∀ j < 4096, b j = b' j) :
    Maps user root k [⟨va, flags, b'⟩] σ a σ' a' := by
  refine ⟨h.tables, h.grows.mono fun p f hp => ?_, fun pg hpg => ?_, fun pg hpg => ?_,
    List.pairwise_singleton ..⟩
  · obtain ⟨pg, hpg, rfl⟩ := hp
    obtain rfl := List.mem_singleton.1 hpg
    exact ⟨_, List.mem_singleton_self _, rfl⟩
  · obtain rfl := List.mem_singleton.1 hpg
    obtain ⟨frame, pt, hm⟩ := h.mapped _ (List.mem_singleton_self _)
    exact ⟨frame, pt, hm.page, hm.owns, hm.table, hm.leaf, fun j hj =>
      (hm.bytes j hj).trans (hb j hj)⟩
  · obtain rfl := List.mem_singleton.1 hpg
    exact h.fresh ⟨va, flags, b⟩ (List.mem_singleton_self _)

/-- What two steps have mapped. -/
theorem Maps.append {ps qs : List Mapping} (hp : Maps user root k ps σ a σ₁ a₁)
    (hq : Maps user root k qs σ₁ a₁ σ₂ a₂) : Maps user root k (ps ++ qs) σ a σ₂ a₂ := by
  refine ⟨hq.tables, (hp.grows.trans hq.grows).mono ?_, ?_, ?_, ?_⟩
  · rintro p f (⟨pg, hpg, rfl⟩ | ⟨pg, hpg, rfl⟩)
    · exact ⟨pg, List.mem_append_left _ hpg, rfl⟩
    · exact ⟨pg, List.mem_append_right _ hpg, rfl⟩
  · intro pg hpg
    rcases List.mem_append.1 hpg with hpg | hpg
    · obtain ⟨frame, pt, hm⟩ := hp.mapped pg hpg
      exact ⟨frame, pt, hm.grows hp.tables hq.grows⟩
    · exact hq.mapped pg hpg
  · intro pg hpg f ho
    rcases List.mem_append.1 hpg with hpg | hpg
    · exact hp.fresh pg hpg f ho
    · exact hq.fresh pg hpg f (hp.grows.keep ho)
  · refine List.pairwise_append.2 ⟨hp.distinct, hq.distinct, fun pg hpg pg' hpg' heq => ?_⟩
    obtain ⟨frame, pt, hm⟩ := hp.mapped pg hpg
    exact hq.fresh pg' hpg' _ (heq ▸ hm.owns)

/-- A page that was not mapped and is not among the new ones is not mapped. -/
theorem Maps.not_mapped {pages : List Mapping} (hmaps : Maps user root k pages σ a σ' a')
    (hno : ∀ f, ¬ Owns user σ.mem root k (pathOf va) f)
    (hne : ∀ pg ∈ pages, pathOf va ≠ pathOf pg.va)
    (f : ℕ) : ¬ Owns user σ'.mem root k (pathOf va) f := by
  intro ho
  rcases hmaps.grows.fresh ho with hold | ⟨hshort, -⟩ | ⟨-, pg, hpg, hpath⟩
  · exact hno f hold
  · exact absurd hshort (by simp [pathOf])
  · exact hne pg hpg hpath

/-- Owner `k` has grown, by whatever pages. -/
def Grown (user : κ → Prop) (root : κ → Option ℕ) (k : κ) (σ : Phys) (a : PageSets) (σ' : Phys) :
    Prop :=
  ∃ a', Tables user root σ' a' ∧ Grows user root k (fun _ _ => True) σ a σ' a'

/-- A known account of new frames is one. -/
theorem Grown.of_grows (h : Tables user root σ' a') (hg : Grows user root k N σ a σ' a') :
    Grown user root k σ a σ' := ⟨a', h, hg.mono fun _ _ _ => trivial⟩

theorem Grown.refl (h : Tables user root σ a) : Grown user root k σ a σ :=
  .of_grows h (Grows.refl σ a)

/-- What has been made after some known steps. -/
theorem Grown.after (hg : Grows user root k N σ a σ₁ a₁) (h : Grown user root k σ₁ a₁ σ₂) :
    Grown user root k σ a σ₂ := by
  obtain ⟨a₂, h₂, hg₂⟩ := h
  exact .of_grows h₂ (hg.trans hg₂)

/-- A page for `va` can be had: page 0 is there to be taken (and to be lost), or
the page is a user page, not mapped, and there are a page for it and one for the
first missing table. -/
def Takes (user : κ → Prop) (root : κ → Option ℕ) (k : κ) (σ : Phys) (a : PageSets)
    (va : U64) : Prop :=
  0 ∈ a.free ∨ UserPage va ∧ (∀ f, ¬ Owns user σ.mem root k (pathOf va) f) ∧
    ((∃ t, Owns user σ.mem root k (tablePathOf va) t) ∧ 1 ≤ a.free.card ∨ 2 ≤ a.free.card)

/-- The page can be filled, whichever frame it is. -/
def Fills (fill : Mem → U64 → Option Mem) (m : Mem) (free : Finset ℕ) : Prop :=
  ∀ page, page.toNat % 4096 = 0 → page.toNat / 4096 ∈ free →
    fill (zeroBytes m page.toNat 4096) page ≠ none

/-- Filling a page writes to that page only. -/
def FillsInside (fill : Mem → U64 → Option Mem) : Prop :=
  ∀ m page m', page.toNat % 4096 = 0 → fill m page = some m' →
    ∀ x, x / 4096 ≠ page.toNat / 4096 → m' x = m x

/-- Page `c` has been taken, cleared and filled, and belongs to nobody yet. -/
structure Filled (user : κ → Prop) (root : κ → Option ℕ) (k : κ) (fill : Mem → U64 → Option Mem)
    (σ : Phys) (a : PageSets) (c : ℕ) (page : U64) (σ₁ : Phys) : Prop where
  free : c ∈ a.free
  address : page.toNat = 4096 * c
  bytes : fill (zeroBytes σ.mem page.toNat 4096) page = some σ₁.mem
  other : ∀ x, x / 4096 ≠ c → σ₁.mem x = σ.mem x
  tables : Tables user root σ₁ (a.take c)
  owns : ∀ k p f, Owns user σ₁.mem root k p f ↔ Owns user σ.mem root k p f
  grows : Grows user root k (fun _ _ => False) σ a σ₁ (a.take c)

/-- One round of a page loop up to `address_space_map_user`: it stops without a page, with
page 0 or with a page that cannot be filled, or it has filled one. -/
theorem mapFreshPage_start (h : Tables user root σ a) (k : κ)
    (hfill : FillsInside fill) (pml4 va flags : U64) :
    (∃ σ' a', mapFreshPage fill pml4 va flags σ = .error σ' ∧ Tables user root σ' a' ∧
      Grows user root k (fun _ _ => False) σ a σ' a' ∧
      (a.free = ∅ ∧ a' = a ∨ 0 ∈ a.free ∧ a' = a.take 0 ∨ ¬ Fills fill σ.mem a.free)) ∨
    0 ∉ a.free ∧ ∃ c page σ₁, Filled user root k fill σ a c page σ₁ ∧
      mapFreshPage fill pml4 va flags σ =
        let (rc, σ) := addressSpaceMapUser σ₁ pml4 va page flags
        if rc ≠ 0 then .error { σ with pmm := pmmFreePage bootstrapLimit σ.pmm page }
        else .ok σ := by
  unfold mapFreshPage
  dsimp only
  rcases h.refines.allocPage_cases with ⟨hempty, halloc⟩ | ⟨c, hc, hlow, hpage, hr⟩
  · rw [halloc]
    exact Or.inl ⟨σ, a, rfl, h, Grows.refl σ a, Or.inl ⟨hempty, rfl⟩⟩
  generalize pmmAllocPage bootstrapLimit σ.pmm = r at hpage hr ⊢
  obtain ⟨page, pmm⟩ := r
  dsimp only at hpage hr ⊢
  have halign : page.toNat % 4096 = 0 := by omega
  have hdiv : page.toNat / 4096 = c := by omega
  rcases eq_or_ne page 0 with rfl | hne
  · -- page 0 was free: it is taken, and lost
    rw [if_pos rfl]
    obtain ⟨htables, -, hgrows⟩ := h.alloc (k := k) hc hr fun _ _ => rfl
    obtain rfl : c = 0 := hdiv.symm
    exact Or.inl ⟨_, _, rfl, htables, hgrows, Or.inr (Or.inl ⟨hc, rfl⟩)⟩
  have hzero : 0 ∉ a.free := fun hmem => hne <| BitVec.eq_of_toNat_eq <| by
    have := hlow 0 hmem
    rw [show (0 : U64).toNat = 0 from rfl]
    omega
  have hclear : ∀ x, x / 4096 ≠ c → zeroBytes σ.mem page.toNat 4096 x = σ.mem x := by
    intro x hx
    rw [zeroBytes_page halign, if_neg (by rw [hdiv]; exact hx)]
  rw [if_neg hne]
  cases hf : fill (zeroBytes σ.mem page.toNat 4096) page with
  | none =>
    obtain ⟨htables, -, hgrows⟩ := h.alloc (k := k) hc hr hclear
    exact Or.inl ⟨_, _, rfl, htables, hgrows, Or.inr (Or.inr fun hok =>
      hok page halign (hdiv.symm ▸ hc) hf)⟩
  | some m' =>
    have hother : ∀ x, x / 4096 ≠ c → m' x = σ.mem x := fun x hx =>
      (hfill _ _ _ halign hf x (by rw [hdiv]; exact hx)).trans (hclear x hx)
    obtain ⟨h₁, howns, hg₁⟩ := h.alloc (k := k) hc hr hother
    exact Or.inr ⟨hzero, c, page, ⟨m', pmm⟩, ⟨hc, hpage, hf, hother, h₁, howns, hg₁⟩, rfl⟩

/-- A round that has mapped its page has filled one before. -/
theorem mapFreshPage_ok {pml4 flags : U64}
    (h : Tables user root σ a) (k : κ) (hfill : FillsInside fill)
    (hok : mapFreshPage fill pml4 va flags σ = .ok σ') :
    0 ∉ a.free ∧ ∃ c page σ₁, Filled user root k fill σ a c page σ₁ ∧
      addressSpaceMapUser σ₁ pml4 va page flags = (0, σ') := by
  rcases mapFreshPage_start h k hfill pml4 va flags with
    ⟨_, _, heq, -⟩ | ⟨hzero, c, page, σ₁, hf, heq⟩
  · exact absurd (heq.symm.trans hok) (by simp)
  refine ⟨hzero, c, page, σ₁, hf, ?_⟩
  rw [heq] at hok
  generalize addressSpaceMapUser σ₁ pml4 va page flags = r at hok ⊢
  obtain ⟨rc, σ₂⟩ := r
  dsimp only at hok
  split_ifs at hok with hrc
  rw [not_not.1 hrc, Except.ok.inj hok]

/-- A round has stopped with the address space as it was: with four pages to take only
when the page cannot be filled or is mapped already; exactly when a page can be had, one is
taken for good. -/
structure Stopped (user : κ → Prop) (root : κ → Option ℕ) (k : κ) (fill : Mem → U64 → Option Mem)
    (va : U64) (σ : Phys) (a : PageSets) (σ' : Phys) (a' : PageSets) : Prop where
  tables : Tables user root σ' a'
  grows : Grows user root k (fun _ _ => False) σ a σ' a'
  mapped : 0 ∈ a.reserved → 4 ≤ a.free.card → UserPage va → Fills fill σ.mem a.free →
    ∃ f, Owns user σ.mem root k (pathOf va) f
  takes : (∀ {p f}, Owns user σ.mem root k p f → f ≠ 0) → Fills fill σ.mem a.free →
    (a'.free.card < a.free.card ↔ Takes user root k σ a va)

/-- A round that stops before it maps. -/
theorem Stopped.early (h' : Tables user root σ' a')
    (hg : Grows user root k (fun _ _ => False) σ a σ' a')
    (hwhy : a.free = ∅ ∧ a' = a ∨ 0 ∈ a.free ∧ a' = a.take 0 ∨ ¬ Fills fill σ.mem a.free) :
    Stopped user root k fill va σ a σ' a' := by
  refine ⟨h', hg, fun hres hfour _ hok => ?_, fun _ hok => ?_⟩
  · rcases hwhy with ⟨hempty, -⟩ | ⟨hmem, -⟩ | hnot
    · rw [hempty] at hfour
      exact absurd hfour (by simp)
    · exact absurd hres (PageSets.mem_free.1 hmem).2.1
    · exact absurd hok hnot
  · rcases hwhy with ⟨hempty, rfl⟩ | ⟨hmem, rfl⟩ | hnot
    · refine iff_of_false (lt_irrefl _) ?_
      rw [Takes, hempty]
      simp
    · have hcard := PageSets.card_free_take hmem
      exact iff_of_true (by omega) (Or.inl hmem)
    · exact absurd hok hnot

section Filled

variable {c : ℕ} {page pml4 flags : U64} (hf : Filled user root k fill σ a c page σ₁)
  (h : Tables user root σ a) (hk : user k) (hroot : root k = some pml4.toNat)

include hf

theorem Filled.div_eq : page.toNat / 4096 = c := by
  have := hf.address
  omega

include h

/-- Nobody owns the page yet. -/
theorem Filled.not_owns {k' : κ} {p : List ℕ} : ¬ Owns user σ₁.mem root k' p page.toNat := fun ho =>
  h.not_free ((hf.owns _ _ _).1 ho) (hf.div_eq.symm ▸ hf.free)

include hk hroot

/-- A page that has been filled and mapped.  At most four pages have been taken. -/
theorem Filled.maps (hmap : addressSpaceMapUser σ₁ pml4 va page flags = (0, σ₂)) :
    ∃ a', Maps user root k [⟨va, flags, fun j => σ₁.mem (page.toNat + j)⟩] σ a σ₂ a' ∧
      a.free.card ≤ a'.free.card + 4 ∧ a'.free.card < a.free.card ∧ Takes user root k σ a va := by
  have hpage := hf.address
  have hdiv := hf.div_eq
  have hcard := PageSets.card_free_take hf.free
  have hcmem : c ∈ (a.take c).allocated := Finset.mem_insert_self _ _
  obtain ⟨a₂, h₂, hg₂, hok, hcard₂, -⟩ := addressSpaceMapUser_spec hf.tables hk hroot va page flags
    hcmem (PageSets.mem_free.1 hf.free).2.1 hpage (hf.not_owns h)
  rw [hmap] at h₂ hg₂ hok
  have hsub : a₂.free.card ≤ (a.take c).free.card := Finset.card_le_card hg₂.free_subset
  obtain ⟨hva, hnone, hown, pt, hpt, hleaf⟩ := hok rfl
  have hapart := (hg₂.apart (X := fun x => x / 4096 = c) fun x hx =>
    ⟨fun hfree => (PageSets.mem_free.1 hfree).2.2 (hx ▸ hcmem),
      fun p f ho _ he => h.not_free ((hf.owns _ _ _).1 ho) (he ▸ hx.symm ▸ hf.free)⟩).2
  have hnone : ∀ f, ¬ Owns user σ.mem root k (pathOf va) f := fun f ho =>
    hnone f ((hf.owns _ _ _).2 ho)
  -- the last table was there before, or a page was left for it
  have htable : (∃ t, Owns user σ.mem root k (tablePathOf va) t) ∨ 0 < (a.take c).free.card := by
    rcases hg₂.fresh hpt with hold | ⟨-, hfree⟩ | ⟨hlen, -⟩
    · exact Or.inl ⟨pt, (hf.owns _ _ _).1 hold⟩
    · exact Or.inr (Finset.card_pos.2 ⟨_, hfree⟩)
    · exact absurd hlen (by simp [tablePathOf])
  refine ⟨a₂, ⟨h₂, (hf.grows.trans hg₂).mono ?_, ?_, ?_, List.pairwise_singleton ..⟩, by omega,
    by omega, Or.inr ⟨hva, hnone, htable.imp (fun ht => ⟨ht, by omega⟩) fun hpos => by omega⟩⟩
  · rintro p f (hfalse | ⟨-, rfl, -⟩)
    · exact hfalse.elim
    · exact ⟨_, List.mem_singleton_self _, rfl⟩
  · intro pg hpg
    obtain rfl := List.mem_singleton.1 hpg
    exact ⟨page, pt, hva, hown, hpt, hleaf, fun j hj => hapart _ (by omega)⟩
  · intro pg hpg f ho
    obtain rfl := List.mem_singleton.1 hpg
    exact hnone f ho

/-- A page that has been filled and cannot be mapped is given back. -/
theorem Filled.stopped {rc : ℤ} (hzero : 0 ∉ a.free) (hrc : rc ≠ 0)
    (hmap : addressSpaceMapUser σ₁ pml4 va page flags = (rc, σ₂)) :
    ∃ a', Stopped user root k fill va σ a
      { σ₂ with pmm := pmmFreePage bootstrapLimit σ₂.pmm page } a' := by
  have hpage := hf.address
  have hdiv := hf.div_eq
  have hcard := PageSets.card_free_take hf.free
  have hcmem : c ∈ (a.take c).allocated := Finset.mem_insert_self _ _
  obtain ⟨hcu, hcr, -⟩ := PageSets.mem_free.1 hf.free
  obtain ⟨a₂, h₂, hg₂, -, -, hexact, hroom⟩ :=
    addressSpaceMapUser_spec hf.tables hk hroot va page flags hcmem hcr hpage (hf.not_owns h)
  rw [hmap] at h₂ hg₂ hroom
  simp only [hf.owns] at hexact hroom
  have hN : ∀ p f, rc = 0 ∧ p = pathOf va ∧ f = page.toNat → False := fun _ _ hn => hrc hn.1
  have hback := h₂.refines.freePage (hg₂.allocated hcmem) hpage
  have hback' := PageSets.card_free_giveBack (a := a₂) (p := c) (by rw [hg₂.usable]; exact hcu)
    (by rw [hg₂.reserved]; exact hcr) (hg₂.allocated hcmem)
  refine ⟨_, h₂.giveBack hback ?_, (hf.grows.trans_tables (hg₂.mono hN)).giveBack hf.free,
    fun hres hfour hva _ => ?_, fun hnz _ => ?_⟩
  · intro k' p f ho he
    obtain rfl : f = page.toNat := by
      have := h₂.aligned ho
      omega
    refine hg₂.unowned hf.tables ?_ (fun p hn => hrc hn.1) (hf.not_owns h) ho
    rw [hdiv, PageSets.mem_free]
    exact fun hfree => hfree.2.2 hcmem
  · by_contra hnot
    exact hrc (hroom hva (Or.inl ⟨hres, by omega⟩) fun f ho => hnot ⟨f, ho⟩)
  · have hexact := hexact hnz
    constructor
    · intro hlt
      obtain ⟨hva, hno, hpos⟩ := hexact.1 (by omega)
      exact Or.inr ⟨hva, fun f ho => (Owned.above (pathOf_eq va ▸ ho)).elim hno,
        Or.inr (by omega)⟩
    · rintro (hmem | ⟨hva, hno, henough⟩)
      · exact absurd hmem hzero
      · have hmissing : ∀ t, ¬ Owns user σ.mem root k (tablePathOf va) t := fun t ht =>
          hrc (hroom hva (Or.inr ⟨hnz, t, ht⟩) hno)
        rcases henough with ⟨⟨t, ht⟩, -⟩ | htwo
        · exact absurd ht (hmissing t)
        · have := hexact.2 ⟨hva, hmissing, by omega⟩
          omega

end Filled

/-- One round of a page loop: it stops, or it has mapped the page as filled. -/
theorem mapFreshPage_spec (h : Tables user root σ a) (hk : user k)
    {pml4 : U64} (hroot : root k = some pml4.toNat) (va flags : U64) (hfill : FillsInside fill) :
    (∃ σ' a', mapFreshPage fill pml4 va flags σ = .error σ' ∧
      Stopped user root k fill va σ a σ' a') ∨
    ∃ σ' a' page m', mapFreshPage fill pml4 va flags σ = .ok σ' ∧
      page.toNat % 4096 = 0 ∧ page.toNat / 4096 ∈ a.free ∧
      fill (zeroBytes σ.mem page.toNat 4096) page = some m' ∧
      Maps user root k [⟨va, flags, fun j => m' (page.toNat + j)⟩] σ a σ' a' ∧
      a.free.card ≤ a'.free.card + 4 ∧ a'.free.card < a.free.card ∧ Takes user root k σ a va := by
  rcases mapFreshPage_start h k hfill pml4 va flags with
    ⟨σ', a', heq, h', hg, hwhy⟩ | ⟨hzero, c, page, σ₁, hf, heq⟩
  · exact Or.inl ⟨σ', a', heq, .early h' hg hwhy⟩
  rw [heq]
  cases hmap : addressSpaceMapUser σ₁ pml4 va page flags with
  | mk rc σ₂ =>
    dsimp only
    rcases eq_or_ne rc 0 with rfl | hrc
    · rw [if_neg (by simp)]
      obtain ⟨a', hmaps⟩ := hf.maps h hk hroot hmap
      have hpage := hf.address
      exact Or.inr ⟨σ₂, a', page, σ₁.mem, rfl, by omega, hf.div_eq ▸ hf.free, hf.bytes, hmaps⟩
    · rw [if_pos hrc]
      obtain ⟨a', hstopped⟩ := hf.stopped h hk hroot hzero hrc hmap
      exact Or.inl ⟨_, a', rfl, hstopped⟩

/-! ### What the loops over pages keep -/

/-- A loop has come to its end with `P`, or has given up with `Q`. -/
def Ends {α : Type*} (state : α → Phys) (P Q : Phys → Prop) : Except Phys α → Prop
  | .error σ => Q σ
  | .ok r => P (state r)

/-- Where it has come to its end, `P` holds. -/
theorem Ends.of_ok {α : Type*} {state : α → Phys} {P Q : Phys → Prop} {x : Except Phys α} {r : α}
    (h : Ends state P Q x) (hok : x = .ok r) : P (state r) := by
  subst hok
  exact h

/-- Each round of a page loop keeps `P`, or gives up with `Q`. -/
def KeptByPages (pml4 : U64) (P Q : Phys → Prop) : Prop :=
  ∀ ⦃fill : Mem → U64 → Option Mem⦄, FillsInside fill → ∀ va flags ⦃σ⦄, P σ →
    Ends id P Q (mapFreshPage fill pml4 va flags σ)

/-- Each round lets the owner grow. -/
theorem keptByPages_grown {pml4 : U64} (hk : user k) (hroot : root k = some pml4.toNat) :
    KeptByPages pml4 (Grown user root k σ a) (Grown user root k σ a) := by
  rintro fill hfill va flags σ₁ ⟨a₁, h₁, hg₁⟩
  rcases mapFreshPage_spec h₁ hk hroot va flags hfill with
    ⟨σ', a', heq, hstop⟩ | ⟨σ', a', page, m', heq, -, -, -, hmaps, -⟩
  · rw [heq]
    exact .of_grows hstop.tables (hg₁.trans hstop.grows)
  · rw [heq]
    exact .of_grows hmaps.tables (hg₁.trans hmaps.grows)

end Maps

end SuiraBox.Exec
