/-
# What a loaded program can reach

`process_create` and a `process_prepare_elf` that returns 0, seen by the paging unit.  `Loading`
says where the program is; here is what the processor makes of the tables: the rights of all entries
on the way to a page together, in PML4 slot 1 as in the other slots, which a process shares with the
kernel.

The loader is a run of `address_space_map_user` calls with fresh pages in between, so the space is a
finite map (`SpaceInv`) and an owner of its frames (`Tables`) at once.  `Built` adds where
everything comes from: tables and pages from the frames that were free before, and the kernel's slot
from the kernel's PML4.
-/

import SuiraBox.Exec.Acceptance
import SuiraBox.Mm.UserMap
import SuiraBox.Mm.VmmStore

namespace SuiraBox
namespace Mm

open ByteMem Forest

section Fresh

variable {root : ℕ} {σ : Phys} {a a' : PageSets} {calls : List (MapCall × ℤ)} {m' : Mem}
    {pmm' : Pmm}
  {p : List ℕ} {f : ℕ}

/-- Of the allocator only the free pages count. -/
theorem SpaceInv.refined (h : SpaceInv root σ a calls) (hr : Refines bootstrapLimit σ.pmm a') :
    SpaceInv root σ a' calls := by
  have hfree : a'.free = a.free := hr.freeSet_eq.symm.trans h.tree.refines.freeSet_eq
  refine ⟨⟨hr, h.tree.aligned, h.tree.separate, fun hf => ?_⟩, fun p f hp hf => ?_, h.upper,
    h.mapped, h.only⟩
  · rw [hfree]
    exact h.tree.notFree hf
  · rw [hfree]
    exact h.kernel p f hp hf

/-- A table is one of the space or one of the kernel's; neither is free. -/
theorem SpaceInv.table_not_free (h : SpaceInv root σ a calls)
    (hf : HasTable allTables root σ.mem p f) : f / 4096 ∉ a.free := by
  rcases eq_or_ne (p.head?) (some userPml4Index) with hhead | hhead
  · refine h.tree.notFree (hf.mono ⟨⟨hf.path.1.trans (by decide), hf.path.2, fun i hi => ?_⟩,
      hf.path.1⟩)
    exact Option.some.inj (hi.symm.trans hhead)
  · rcases eq_or_ne p [] with rfl | hp
    · exact h.tree.notFree (hf.mono userTables.nil)
    · exact (h.kernel p f hp (hf.mono ⟨hf.path, hhead⟩)).1

/-- All tables are page-aligned if the root is. -/
theorem allTables_aligned {m : Mem} (halign : root % 4096 = 0)
    (hf : HasTable allTables root m p f) : f % 4096 = 0 := by
  rcases eq_or_ne p [] with rfl | hp
  · rw [hasTable_nil.1 hf]
    exact halign
  · exact hasTable_aligned hp hf

/-- The tables are where they were when no page of theirs has changed. -/
theorem hasTable_congr {m : Mem} (halign : root % 4096 = 0)
    (h : ∀ p f, HasTable allTables root m p f → ∀ x, x / 4096 = f / 4096 → m' x = m x)
    (p : List ℕ) (f : ℕ) : HasTable allTables root m' p f ↔ HasTable allTables root m p f := by
  refine owned_congr (fun {p f i} hf hp => ?_) p f
  rw [subTable, subTable, slot_congr (allTables_aligned halign hf) (allTables.lt hp) (h p f hf)]

/-- A page is taken from the allocator and written to. -/
theorem SpaceInv.take (h : SpaceInv root σ a calls) {c : ℕ} (hc : c ∈ a.free)
    (hr : Refines bootstrapLimit pmm' (a.take c)) (hmem : ∀ x, x / 4096 ≠ c → m' x = σ.mem x) :
    SpaceInv root ⟨m', pmm'⟩ (a.take c) calls := by
  have hsame : ∀ p f, HasTable allTables root m' p f ↔ HasTable allTables root σ.mem p f :=
    hasTable_congr h.tree.aligned fun p f hf x hx => hmem x fun he =>
      h.table_not_free hf (hx ▸ he ▸ hc)
  have hall : ∀ {p}, userTables.path p → allTables.path p := fun hp => ⟨hp.2, hp.1.2.1⟩
  have hother : Undisturbed root σ ⟨m', pmm'⟩ := by
    refine ⟨fun hf x hx => hmem x fun he => h.tree.notFree hf (hx ▸ he ▸ hc),
      ⟨a.take c, hr, fun p f hf => ?_⟩, fun {p q f g} hp hf hg heq => ?_⟩
    · rw [PageSets.free_take]
      exact fun hmem => h.table_not_free ((hsame p f).1 hf) (Finset.mem_of_mem_erase hmem)
    · have hf' := (hsame p f).1 (hf.mono hf.path.1)
      have hg' := (hsame q g).1 (hg.mono (hall hg.path))
      exact (h.kernel p f hp (hf'.mono hf.path)).2 q g (hg'.mono hg.path) (congrArg (· / 4096) heq)
  obtain ⟨a'', h''⟩ := h.other hother
  exact h''.refined hr

end Fresh

/-- The paging unit looks at the tables only. -/
theorem access_congr {m m' : Mem} {pml4 : U64} (halign : pml4.toNat % 4096 = 0)
    (h : ∀ p f, HasTable allTables pml4.toNat m p f → ∀ x, x / 4096 = f / 4096 → m' x = m x)
    (va : U64) : access m' pml4 va = access m pml4 va := by
  have hroot : HasTable allTables pml4.toNat m [] pml4.toNat := hasTable_nil.2 rfl
  have hpath : allTables.path (tablePathOf va) :=
    ⟨le_rfl, fun i hi => pathOf_lt va i (List.mem_of_mem_dropLast (l := pathOf va) hi)⟩
  rw [access, access, hroot.trail_congr (r := pathOf va) rfl hpath (pathOf_lt va)
      fun {q g j} hg _ hj =>
    slot_congr (allTables_aligned halign hg) hj (h q g hg)]

end Mm

namespace Exec

open ByteMem Forest Mm

/-- The address space at `pml4`, as it has been built since the machine was in state `σ₀` with the
free pages of `a₀`: everything it owns was free then, nothing else has changed, and but for slot 1
its PML4 holds the kernel's entry and zeros. -/
structure Built (σ₀ : Phys) (a₀ : PageSets) (entry pml4 : U64) (σ : Phys) (a : PageSets)
    (calls : List (MapCall × ℤ)) : Prop where
  tables : Tables single (singleRoot pml4) σ a
  space : SpaceInv pml4.toNat σ a calls
  free : a.free ⊆ a₀.free
  owned : ∀ {p f}, Owns single σ.mem (singleRoot pml4) () p f → f / 4096 ∈ a₀.free
  mem : ∀ x, x / 4096 ∉ a₀.free → σ.mem x = σ₀.mem x
  slots : ∀ j < 512, j ≠ userPml4Index → slot σ.mem pml4.toNat j = if j = 0 then entry else 0

section Building

variable {σ₀ σ σ' : Phys} {a₀ a : PageSets} {entry pml4 cr3 : U64} {calls : List (MapCall × ℤ)}

/-- `address_space_create` starts it. -/
theorem Built.create (hr : Refines bootstrapLimit σ.pmm a)
    (htaken : ∀ p f, HasTable allTables (cr3 &&& entryAddrMask).toNat σ.mem p f → f / 4096 ∉ a.free)
    (hmade : addressSpaceCreate σ cr3 = (some pml4, σ')) :
    ∃ a', Built σ a (slot σ.mem (cr3 &&& entryAddrMask).toNat 0) pml4 σ' a' [] := by
  have hn := addressSpaceCreate_some hr hmade
  obtain ⟨htables, hself⟩ := (hn.fresh hr).tables hn.refines
  obtain ⟨a', hspace⟩ := SpaceInv.create htaken hn
  refine ⟨_, htables, hspace.refined hn.refines, ?_, fun ho => ?_, fun x hx => hn.other x ?_,
    fun j hj hne => ?_⟩
  · rw [PageSets.free_take]
    exact Finset.erase_subset _ _
  · rw [(hself ho).2]
    exact hn.free
  · rintro he
    exact hx (he ▸ hn.free)
  · rcases eq_or_ne j 0 with rfl | hj0
    · rw [if_pos rfl]
      exact hn.first fun he => htaken [] _ (hasTable_nil.2 rfl) (he ▸ hn.free)
    · rw [if_neg hj0]
      exact hn.empty j (by omega) hj

/-- **One page more.** -/
theorem Built.freshPage (h : Built σ₀ a₀ entry pml4 σ a calls) {fill : Mem → U64 → Option Mem}
    {va flags : U64} (hfill : FillsInside fill)
    (hok : mapFreshPage fill pml4 va flags σ = .ok σ') :
    ∃ a' page, Built σ₀ a₀ entry pml4 σ' a' ((⟨va, page, flags⟩, 0) :: calls) := by
  obtain ⟨-, c, page, σ₁, hf, hmap⟩ := mapFreshPage_ok h.tables () hfill hok
  have hlt : _ < 65536 := h.tables.refines.free_lt hf.free
  have hpage := hf.address
  have hspace := h.space.take hf.free hf.tables.refines hf.other
  obtain ⟨a₂, h₂, hg₂, -⟩ := addressSpaceMapUser_spec hf.tables (k := ()) trivial rfl va page flags
    (Finset.mem_insert_self c _) (PageSets.mem_free.1 hf.free).2.1 hpage (hf.not_owns h.tables)
  obtain ⟨a₃, h₃⟩ := hspace.map ⟨va, page, flags⟩ (by dsimp only; omega)
  dsimp only at h₃
  rw [hmap] at h₂ hg₂ h₃
  have hg := hf.grows.trans hg₂
  refine ⟨a₂, page, h₂, h₃.refined h₂.refines, hg.free_subset.trans h.free, fun {p f} ho => ?_,
    fun x hx => ?_, fun j hj hne => ?_⟩
  · rcases hg.fresh ho with hold | ⟨-, hfree⟩ | ⟨-, hleaf⟩
    · exact h.owned hold
    · exact h.free hfree
    · obtain ⟨-, -, rfl⟩ := hleaf.resolve_left id
      rw [hf.div_eq]
      exact h.free hf.free
  · refine (hg.mem x (fun hfree => hx (h.free hfree)) fun p f ho _ he => hx ?_).trans (h.mem x hx)
    rw [he]
    exact h.owned ho
  · exact (hg.outside rfl hj hne).trans (h.slots j hj hne)

/-- Each page of the image and of the stack keeps it. -/
theorem keptByPages_built : KeptByPages pml4
    (fun σ => ∃ a calls, Built σ₀ a₀ entry pml4 σ a calls) fun _ => True := by
  rintro fill hfill va flags σ ⟨a, calls, h⟩
  cases hpage : mapFreshPage fill pml4 va flags σ with
  | error σ₁ => trivial
  | ok σ₁ =>
    obtain ⟨a₁, page, h₁⟩ := h.freshPage hfill hpage
    exact ⟨a₁, _, h₁⟩

/-- The stack loop. -/
theorem Built.stack {n : ℕ} {va : U64} (h : Built σ₀ a₀ entry pml4 σ a calls)
    (hok : stackPages pml4 n va σ = .ok σ') : ∃ a' calls', Built σ₀ a₀ entry pml4 σ' a' calls' :=
  Ends.of_ok (stackPages_ends keptByPages_built ⟨a, calls, h⟩) hok

/-- The loader. -/
theorem Built.image {image imageSize e : U64} (h : Built σ₀ a₀ entry pml4 σ a calls)
    (hok : elf64LoadImage σ pml4 image imageSize = (some e, σ')) :
    ∃ a' calls', Built σ₀ a₀ entry pml4 σ' a' calls' := by
  obtain ⟨-, hload, -⟩ := elf64LoadImage_some.1 hok
  exact Ends.of_ok (loadHeaders_ends keptByPages_built (fun _ => trivial) ⟨a, calls, h⟩) hload

end Building

/-! ### The tables of the process -/

/-- The tables of PML4 slot 1 are owned. -/
theorem owns_of_hasTable {m : Mem} {pml4 : U64} {p : List ℕ} {f : ℕ}
    (hf : HasTable userTables pml4.toNat m p f) : Owns single m (singleRoot pml4) () p f := by
  induction p using List.reverseRecOn generalizing f with
  | nil => exact owned_nil.2 (congrArg some (hasTable_nil.1 hf).symm)
  | append_singleton p i ih =>
    obtain ⟨hp, t, ht, hstep⟩ := hasTable_concat.1 hf
    obtain ⟨hpresent, -, htarget⟩ := subTarget_eq_some.1 hstep
    exact owned_concat.2 ⟨path_concat.2 ⟨trivial, hp.1⟩, t, ih ht,
      nextTable_eq_some.2 ⟨hpresent, htarget⟩⟩

/-- A byte of the pages that the process has been given. -/
def InFrames (m : Mem) (pml4 : U64) (x : ℕ) : Prop :=
  ∃ p f, p.length = 4 ∧ Owns single m (singleRoot pml4) () p f ∧ x / 4096 = f / 4096

section Kernel

variable {σ₀ σ : Phys} {a₀ a : PageSets} {pml4 va : U64} {calls : List (MapCall × ℤ)} {root : ℕ}
  {p : List ℕ} {f i : ℕ}

/-- Outside of slots 0 and 1 there is nothing. -/
theorem Built.trail_none {entry : U64} (h : Built σ₀ a₀ entry pml4 σ a calls)
    (hzero : pml4Index va ≠ 0) (hone : pml4Index va ≠ userPml4Index) :
    trail σ.mem pml4.toNat (pathOf va) = none := by
  have hlt : pml4Index va < 512 := index_lt ..
  rw [pathOf, trail_cons, h.slots _ hlt hone, if_neg hzero]
  exact trailStep_absent (by simp) _ _

/-- The pages of the process were free. -/
theorem Built.inFrames_free {entry : U64} (h : Built σ₀ a₀ entry pml4 σ a calls) {x : ℕ}
    (hx : InFrames σ.mem pml4 x) : x / 4096 ∈ a₀.free := by
  obtain ⟨p, f, -, ho, heq⟩ := hx
  rw [heq]
  exact h.owned ho

section Apart

variable (h : Built σ₀ a₀ (slot σ₀.mem root 0) pml4 σ a calls)
  (htaken : ∀ p f, HasTable allTables root σ₀.mem p f → f / 4096 ∉ a₀.free)

include h htaken

/-- Tables that were not free are as they were. -/
theorem Built.slot_kernel (hf : HasTable allTables root σ₀.mem p f) (hp : p ≠ []) (hi : i < 512) :
    slot σ.mem f i = slot σ₀.mem f i :=
  slot_congr (hasTable_aligned hp hf) hi fun x hx => h.mem x (by rw [hx]; exact htaken p f hf)

/-- A table of the process is one of its own or one of the kernel's. -/
theorem Built.table_cases (hf : HasTable allTables pml4.toNat σ.mem p f) :
    HasTable userTables pml4.toNat σ.mem p f ∨ p ≠ [] ∧ HasTable allTables root σ₀.mem p f := by
  induction p using List.reverseRecOn generalizing f with
  | nil => exact Or.inl (hf.mono userTables.nil)
  | append_singleton p i ih =>
    obtain ⟨hp, t, ht, hstep⟩ := hasTable_concat.1 hf
    rcases eq_or_ne p [] with rfl | hne
    · -- in the PML4 the slot decides
      rcases eq_or_ne i userPml4Index with rfl | hi
      · refine Or.inl (hf.mono ⟨⟨by simp, hp.2, fun j hj => ?_⟩, hp.1⟩)
        exact (Option.some.inj hj).symm
      · rw [hasTable_nil.1 ht, subTable, h.slots i (allTables.lt hp) hi] at hstep
        split_ifs at hstep with hzero
        · obtain rfl := hzero
          obtain ⟨hpresent, -, htarget⟩ := subTarget_eq_some.1 hstep
          exact Or.inr ⟨by simp, hasTable_concat.2 ⟨hp, root, hasTable_nil.2 rfl,
            subTarget_eq_some.2 ⟨hpresent, Or.inl rfl, htarget⟩⟩⟩
        · rw [subTarget_of_absent (by simp)] at hstep
          exact absurd hstep (by simp)
    · rcases ih ht with huser | ⟨-, hkernel⟩
      · obtain ⟨j, q, rfl⟩ := List.exists_cons_of_ne_nil hne
        have hhead : j = userPml4Index := huser.path.1.2.2 j rfl
        refine Or.inl (hf.mono ⟨⟨hp.1.trans (by decide), hp.2, fun k hk => ?_⟩, hp.1⟩)
        exact (Option.some.inj hk).symm.trans hhead
      · refine Or.inr ⟨by simp, hasTable_concat.2 ⟨hp, t, hkernel, ?_⟩⟩
        rw [subTable, h.slot_kernel htaken hkernel hne (allTables.lt hp)] at hstep
        obtain ⟨hpresent, hsmall, htarget⟩ := subTarget_eq_some.1 hstep
        refine subTarget_eq_some.2 ⟨hpresent, Or.inr (hsmall.resolve_left ?_), htarget⟩
        rintro rfl
        exact htaken _ _ hkernel (h.owned (owned_nil.2 rfl))

/-- The kernel's part of the space is the kernel's. -/
theorem Built.trail_kernel (hva : pml4Index va = 0) :
    trail σ.mem pml4.toNat (pathOf va) = trail σ₀.mem root (pathOf va) := by
  have hroot : HasTable allTables root σ₀.mem [] root := hasTable_nil.2 rfl
  have hpath : allTables.path [0, pdptIndex va, pdIndex va] := by
    refine ⟨le_rfl, fun i hi => pathOf_lt va i ?_⟩
    rw [pathOf, hva]
    exact List.mem_of_mem_dropLast (l := [0, pdptIndex va, pdIndex va, ptIndex va]) hi
  rw [pathOf, hva, trail_cons σ.mem, trail_cons σ₀.mem, h.slots 0 (by decide) (by decide),
    if_pos rfl]
  refine trailStep_congr fun hpresent hsmall => ?_
  have hg := hroot.step (r := [pdptIndex va, pdIndex va, ptIndex va]) rfl (by simp)
    (allTables.above (q := [pdptIndex va, pdIndex va]) hpath) hpresent hsmall
  refine hg.trail_congr (r := [pdptIndex va, pdIndex va, ptIndex va]) rfl hpath
    (fun i hi => pathOf_lt va i (List.mem_cons_of_mem _ hi)) fun hq hpre hj =>
      h.slot_kernel htaken hq (fun hnil => ?_) hj
  rw [hnil] at hpre
  exact absurd (List.prefix_nil.1 hpre) (by simp)

/-- No table is one of the pages of the process. -/
theorem Built.table_ne (hf : HasTable allTables pml4.toNat σ.mem p f) {x : ℕ}
    (hx : InFrames σ.mem pml4 x) : x / 4096 ≠ f / 4096 := by
  intro heq
  rcases h.table_cases htaken hf with huser | ⟨-, hkernel⟩
  · obtain ⟨q, g, hlen, ho, hg⟩ := hx
    obtain ⟨-, rfl⟩ := h.tables.page_unique (owns_of_hasTable huser) ho (heq.symm.trans hg)
    have := huser.path.2
    omega
  · exact htaken p f hkernel (heq ▸ h.inFrames_free hx)

/-- Nor is a page that was in use for something else. -/
theorem Built.table_ne_used (hf : HasTable allTables pml4.toNat σ.mem p f) {x : ℕ}
    (hx : x / 4096 ∉ a₀.free)
    (hkernel : ∀ p f, HasTable allTables root σ₀.mem p f → x / 4096 ≠ f / 4096) :
    x / 4096 ≠ f / 4096 := by
  rcases h.table_cases htaken hf with huser | ⟨-, hold⟩
  · exact fun heq => hx (heq ▸ h.owned (owns_of_hasTable huser))
  · exact hkernel p f hold

end Apart

/-- What `address_space_translate_user` comes to is in one of the pages. -/
theorem Built.translate_inFrames {entry : U64} (h : Built σ₀ a₀ entry pml4 σ a calls) {pa : U64}
    (hpa : addressSpaceTranslateUser σ.mem pml4 va = some pa) : InFrames σ.mem pml4 pa.toNat := by
  obtain ⟨-, -, f, ho, rfl⟩ := (addressSpaceTranslateUser_iff h.tables trivial rfl va pa).1 hpa
  have halign := h.tables.aligned ho
  have hlt : _ < 65536 := h.tables.refines.allocated_lt (h.tables.allocated ho)
  refine ⟨_, f, rfl, ho, ?_⟩
  rw [BitVec.toNat_ofNat, Nat.mod_eq_of_lt (by omega)]
  omega

end Kernel

end Exec

namespace Mm

open ByteMem Forest

/-! ### Rights and leaves -/

section Leaf

variable {σ : Phys} {a : PageSets} {calls : List (MapCall × ℤ)} {pml4 va : U64}

/-- The leaf of a page that a call has mapped. -/
theorem SpaceInv.userLeaf_eq (h : SpaceInv pml4.toNat σ a calls) {c : MapCall} (hc : (c, 0) ∈ calls)
    (hva : pathOf va = pathOf c.va) :
    Exec.userLeaf σ.mem pml4 va = some (leafEntry c.pa c.flags) := by
  obtain ⟨hvalid, hbound, hentry, -⟩ := h.mapped hc
  have hpath := userTables_tablePathOf hvalid.1.index
  obtain ⟨-, hpresent, -⟩ :=
    leafEntry_spec c.flags ((and_pageMask_eq_zero_iff c.pa).1 hvalid.2) hbound
  rw [pathOf_eq, pathOf_eq] at hva
  obtain ⟨htables, hlast⟩ := List.append_inj' hva rfl
  obtain ⟨t, ht⟩ : ∃ t, HasTable userTables pml4.toNat σ.mem (tablePathOf c.va) t := by
    by_contra hno
    rw [entries_of_none hpath (not_exists.1 hno)] at hentry
    rw [← hentry] at hpresent
    exact absurd hpresent (by simp)
  rw [Exec.userLeaf, htables, (h.walk_iff hpath).2 ht, Option.map_some, List.singleton_inj.1 hlast,
    ← ht.entries_eq, hentry]

/-- **In PML4 slot 1 the leaf decides**: what the paging unit finds is what
`address_space_translate_user` finds, for ring 3, with the rights of the leaf. -/
theorem SpaceInv.access_iff (h : SpaceInv pml4.toNat σ a calls) (hva : pml4Index va = userPml4Index)
    (hlow : va < userLimit) (A : Access) : access σ.mem pml4 va = some A ↔ A.user = true ∧
      addressSpaceTranslateUser σ.mem pml4 va = some A.physical ∧
      Exec.LeafIs σ.mem pml4 va A.writable A.noExec := by
  -- one call has mapped the page, or there is no page
  rcases Classical.em (Taken calls va) with ⟨c, hc, hpath⟩ | hno
  · obtain ⟨hvalid, hbound, -⟩ := h.mapped hc
    obtain ⟨htarget, -, huser, hwritable, hnx⟩ :=
      leafEntry_spec c.flags ((and_pageMask_eq_zero_iff c.pa).1 hvalid.2) hbound
    have hleaf := h.userLeaf_eq hc hpath.symm
    have htranslate : addressSpaceTranslateUser σ.mem pml4 va =
        some ((leafEntry c.pa c.flags &&& entryAddrMask) ||| (va &&& pageOffsetMask)) := by
      refine (h.translate_iff va _).2 ⟨c, hc, (MapCall.maps_iff hvalid).2 ⟨hlow, hpath.symm⟩, ?_⟩
      rw [toNat_physical, htarget]
    rw [h.access_taken hc hpath.symm, Option.some.injEq, htranslate, Option.some.injEq]
    constructor
    · rintro rfl
      exact ⟨rfl, rfl, _, hleaf, huser, hwritable, hnx⟩
    · rintro ⟨hu, hp, e, he, -, hw, hx⟩
      obtain rfl := Option.some.inj (hleaf.symm.trans he)
      rw [hp, ← hwritable, hw, ← hnx, hx, ← hu]
  · rw [access, h.trail_none hva hno]
    refine iff_of_false (by simp) ?_
    rintro ⟨-, htranslate, -⟩
    refine hno ?_
    obtain ⟨c, hc, hmaps, -⟩ := (h.translate_iff va _).1 htranslate
    exact ⟨c, hc, ((MapCall.maps_iff (h.mapped hc).1).1 hmaps).2.symm⟩

end Leaf

end Mm

namespace Exec

open ByteMem Forest Mm

/-! ### `process_create` and `process_prepare_elf` -/

/-- The kernel `K` has made a process for the image, with the PML4 at `pml4`, and is `K'` now. -/
structure Prepared (K : Kernel) (a : PageSets) (image pml4 : U64) (K' : Kernel) : Prop where
  built : ∃ a' calls, Built K.phys a (slot K.phys.mem K.kernelTable 0) pml4 K'.phys a' calls
  loaded : ProgramLoaded K.phys.mem image K'.phys.mem pml4

section Prepare

variable {K K₁ : Kernel} {a : PageSets} {pid : U64} {i : Slot}

/-- What `process_create` has done when it returns a process. -/
theorem processCreate_space (hcreate : processCreate K pid = (some i, K₁)) :
    addressSpaceCreate K.phys K.cr3 = (some (K₁.processes i).pml4Physical, K₁.phys) ∧
      (K₁.processes i).state ≠ .unused := by
  unfold processCreate at hcreate
  split_ifs at hcreate
  · exact absurd (congrArg Prod.fst hcreate) (by simp)
  · cases hfind : (List.finRange 32).find? fun i => (K.processes i).state = .unused with
    | none =>
      rw [hfind] at hcreate
      exact absurd (congrArg Prod.fst hcreate) (by simp)
    | some j =>
      rw [hfind] at hcreate
      dsimp only [createIn] at hcreate
      rcases hspace : addressSpaceCreate K.phys K.cr3 with ⟨_ | pml4, σ⟩
      · rw [hspace] at hcreate
        exact absurd (congrArg Prod.fst hcreate) (by simp)
      · rw [hspace] at hcreate
        obtain ⟨hj, rfl⟩ := Prod.mk.inj hcreate
        obtain rfl := Option.some.inj hj
        rw [setProcess_self]
        exact ⟨rfl, by simp⟩

/-- **A process that has been created and prepared.** -/
theorem processPrepareElf_prepared (hr : Refines bootstrapLimit K.phys.pmm a)
    (htaken : ∀ p f, HasTable allTables K.kernelTable K.phys.mem p f → f / 4096 ∉ a.free)
    (hcreate : processCreate K pid = (some i, K₁)) {image imageSize : U64} {info : ProcessImage}
    (himage : ∀ x, InImage image imageSize x → x / 4096 ∉ a.free)
    (hok : (processPrepareElf K₁ (some i) image imageSize (some info)).1 = 0) :
    let r := processPrepareElf K₁ (some i) image imageSize (some info)
    Prepared K a image (K₁.processes i).pml4Physical r.2.2 ∧
      (r.2.2.processes i).pml4Physical = (K₁.processes i).pml4Physical ∧
      r.2.1 = some ⟨loadBias K.phys.mem image + (headerAt K.phys.mem image.toNat).entry,
        userStackTop, userStackBottom⟩ ∧
      (loadBias K.phys.mem image + (headerAt K.phys.mem image.toNat).entry).toNat < 2 ^ 40 := by
  obtain ⟨hspace, -⟩ := processCreate_space hcreate
  have hn := addressSpaceCreate_some hr hspace
  obtain ⟨htables, hself⟩ := (hn.fresh hr).tables hn.refines
  obtain ⟨a₁, hbuilt⟩ := Built.create hr htaken hspace
  have hargs : image ≠ 0 ∧ imageSize ≠ 0 := by
    by_contra hno
    rw [← not_or, not_not] at hno
    rw [processPrepareElf, if_pos hno] at hok
    exact absurd hok (by simp)
  rw [processPrepareElf_live hargs.1 hargs.2 hn.notNull] at hok ⊢
  obtain ⟨e, σ₁, σ₂, hload, hstack, heq⟩ := prepareImage_ok hok
  -- the image is where it was
  have hs : Sees single (singleRoot (K₁.processes i).pml4Physical)
      () K.phys.mem image imageSize K₁.phys
      (a.take ((K₁.processes i).pml4Physical.toNat / 4096)) := by
    have hpage : ∀ x, InImage image imageSize x →
        x / 4096 ≠ (K₁.processes i).pml4Physical.toNat / 4096 :=
      fun x hx he => himage x hx (he ▸ hn.free)
    refine ⟨fun x hx => hn.other x (hpage x hx), fun x hx =>
      ⟨fun hfree => himage x hx ?_, fun p f ho _ => ?_⟩⟩
    · rw [PageSets.free_take] at hfree
      exact Finset.mem_of_mem_erase hfree
    · rw [(hself ho).2]
      exact hpage x hx
  obtain ⟨hvalid, ⟨hinside, -, n, hl, hentry⟩, he, -⟩ :=
    elf64LoadImage_placed (k := ()) htables trivial rfl ⟨fun _ _ => rfl, hs.apart⟩ hload
  rw [← he, pageRange, Set.mem_Ico] at hentry
  have hfit := (hinside n hl).2
  have hsize := (elf64Validate_spec hvalid).header
  rw [hs.same.loadBias_eq hsize, (hs.same.header hsize).2.2.2.2] at he
  obtain ⟨-, ⟨a₂, hmaps₁, -⟩, hsegs⟩ := elf64LoadImage_maps htables trivial rfl hs hload
  rw [mapUserStack, if_neg (by decide)] at hstack
  obtain ⟨a₃, hmaps₂⟩ := stackPages_maps hmaps₁.tables trivial rfl hstack
  obtain ⟨a₄, calls₁, hbuilt₁⟩ := hbuilt.image hload
  obtain ⟨a₅, calls₂, hbuilt₂⟩ := hbuilt₁.stack hstack
  rw [heq]
  dsimp only
  rw [setProcess_self]
  exact ⟨⟨⟨a₅, calls₂, hbuilt₂⟩, Maps.programLoaded (hmaps₁.append hmaps₂) trivial rfl (fun ho =>
    (hself ho).1) fun n hl => hsegs n (Nat.zero_le n) hl⟩, rfl, by rw [he], by rw [← he]; omega⟩

end Prepare

/-! ### The pages of the program -/

/-- The address lies in a page of segment `n`. -/
def OnSegment (m : Mem) (image : U64) (n : ℕ) (va : U64) : Prop :=
  ∃ k < (programHeader m image n).memorySize.toNat,
    va.toNat / 4096 = (segmentAddress m image n k).toNat / 4096

/-- The address lies in the stack. -/
def OnStack (va : U64) : Prop := userStackBottom ≤ va ∧ va < userStackTop

/-- A user page with these rights. -/
def UserPageIs (m : Mem) (pml4 va : U64) (writable noExec : Bool) : Prop :=
  (addressSpaceTranslateUser m pml4 va).isSome = true ∧ LeafIs m pml4 va writable noExec

section Pages

variable {K K' : Kernel} {a : PageSets} {image pml4 va va' : U64} {w w' x x' : Bool} {m : Mem}

/-- A page has one leaf. -/
theorem LeafIs.unique (h : LeafIs m pml4 va w x) (h' : LeafIs m pml4 va w' x') :
    w = w' ∧ x = x' := by
  obtain ⟨e, he, -, rfl, rfl⟩ := h
  obtain ⟨e', he', -, rfl, rfl⟩ := h'
  obtain rfl := Option.some.inj (he.symm.trans he')
  exact ⟨rfl, rfl⟩

/-- All addresses of a page are alike. -/
theorem UserPageIs.congr (h : UserPageIs m pml4 va w x)
    (hpage : va'.toNat / 4096 = va.toNat / 4096) : UserPageIs m pml4 va' w x := by
  obtain ⟨hsome, hleaf⟩ := h
  have hva : pml4Index va = userPml4Index ∧ va < userLimit := by
    by_contra hno
    rw [not_and_or, BitVec.not_lt] at hno
    rw [addressSpaceTranslateUser, if_pos hno] at hsome
    exact absurd hsome (by simp)
  have hlow := hva.2
  rw [BitVec.lt_def, toNat_userLimit] at hlow
  have hpath : pathOf va' = pathOf va := (pathOf_eq_iff (by omega) (by omega)).2 hpage
  have hva' : pml4Index va' = userPml4Index ∧ va' < userLimit := by
    refine ⟨(List.cons.inj hpath).1.trans hva.1, ?_⟩
    rw [BitVec.lt_def, toNat_userLimit]
    omega
  rw [UserPageIs, addressSpaceTranslateUser_eq _ _ _ hva', hpath, Option.isSome_map]
  rw [addressSpaceTranslateUser_eq _ _ _ hva, Option.isSome_map] at hsome
  rw [pathOf_eq, pathOf_eq] at hpath
  obtain ⟨htables, hlast⟩ := List.append_inj' hpath rfl
  refine ⟨hsome, ?_⟩
  rw [LeafIs, userLeaf, htables, List.singleton_inj.1 hlast]
  exact hleaf

/-- **The pages of a prepared process**: the stack, writable and not executable, and the pages of
the segments with the rights of their headers. -/
theorem Prepared.userPageIs_iff (h : Prepared K a image pml4 K') :
    UserPageIs K'.phys.mem pml4 va w x ↔ OnStack va ∧ w = true ∧ x = true ∨
      ∃ n, Loadable K.phys.mem image n ∧ OnSegment K.phys.mem image n va ∧
        w = decide ((programHeader K.phys.mem image n).flags &&& pfW ≠ 0) ∧
        x = decide ((programHeader K.phys.mem image n).flags &&& pfX = 0) := by
  have hstack : OnStack va → UserPageIs K'.phys.mem pml4 va true true := fun hva => by
    obtain ⟨⟨pa, hpa, -⟩, hleaf, -⟩ := h.loaded.stack va hva.1 hva.2
    exact ⟨Option.isSome_iff_exists.2 ⟨pa, hpa⟩, hleaf⟩
  have hsegment : ∀ n, Loadable K.phys.mem image n → OnSegment K.phys.mem image n va →
      UserPageIs K'.phys.mem pml4 va (decide ((programHeader K.phys.mem image n).flags &&& pfW ≠ 0))
        (decide ((programHeader K.phys.mem image n).flags &&& pfX = 0)) := by
    rintro n hl ⟨k, hk, hpage⟩
    obtain ⟨⟨pa, hpa, -⟩, hleaf⟩ := h.loaded.segments n hl k hk
    exact UserPageIs.congr ⟨Option.isSome_iff_exists.2 ⟨pa, hpa⟩, hleaf⟩ hpage
  constructor
  · intro hpage
    obtain ⟨pa, hpa⟩ := Option.isSome_iff_exists.1 hpage.1
    rcases h.loaded.nothing va pa hpa with hva | ⟨n, hl, hva⟩
    · exact Or.inl ⟨hva, hpage.2.unique (hstack hva).2⟩
    · exact Or.inr ⟨n, hl, hva, hpage.2.unique (hsegment n hl hva).2⟩
  · rintro (⟨hva, rfl, rfl⟩ | ⟨n, hl, hva, rfl, rfl⟩)
    · exact hstack hva
    · exact hsegment n hl hva

/-- A page of the process, byte by byte. -/
theorem Prepared.access_page (h : Prepared K a image pml4 K')
    (hpage : UserPageIs K'.phys.mem pml4 va w x) (halign : va.toNat % 4096 = 0) :
    ∃ f, f + 4096 ≤ 2 ^ 28 ∧ (∀ k < 4096, InFrames K'.phys.mem pml4 (f + k)) ∧
      ∀ k < 4096, access K'.phys.mem pml4 (BitVec.ofNat 64 (va.toNat + k)) =
        some ⟨BitVec.ofNat 64 (f + k), w, true, x⟩ := by
  obtain ⟨a', calls, hb⟩ := h.built
  obtain ⟨pa, hpa⟩ := Option.isSome_iff_exists.1 hpage.1
  obtain ⟨hindex, hlow, f, ho, -⟩ :=
    (addressSpaceTranslateUser_iff (k := ()) hb.tables trivial rfl va pa).1 hpa
  have hf := hb.tables.aligned ho
  have hlt : _ < 65536 := hb.tables.refines.allocated_lt (hb.tables.allocated ho)
  rw [BitVec.lt_def, toNat_userLimit] at hlow
  refine ⟨f, by omega, fun k hk => ⟨_, f, rfl, ho, by omega⟩, fun k hk => ?_⟩
  have hvalue : (BitVec.ofNat 64 (va.toNat + k)).toNat = va.toNat + k := by
    rw [BitVec.toNat_ofNat]
    omega
  have hpath : pathOf (BitVec.ofNat 64 (va.toNat + k)) = pathOf va :=
    (pathOf_eq_iff (by omega) (by omega)).2 (by omega)
  have hsame : (BitVec.ofNat 64 (va.toNat + k)).toNat / 4096 = va.toNat / 4096 := by omega
  have hindex' : pml4Index (BitVec.ofNat 64 (va.toNat + k)) = userPml4Index :=
    (List.cons.inj hpath).1.trans hindex
  have hlow' : BitVec.ofNat 64 (va.toNat + k) < userLimit := by
    rw [BitVec.lt_def, toNat_userLimit]
    omega
  refine (hb.space.access_iff hindex' hlow' _).2 ⟨rfl, ?_, (hpage.congr hsame).2⟩
  refine (addressSpaceTranslateUser_iff (k := ()) hb.tables trivial rfl _ _).2 ⟨hindex', hlow',
    f, ?_, ?_⟩
  · rw [hpath]
    exact ho
  · rw [show (BitVec.ofNat 64 (va.toNat + k)).toNat % 4096 = k by omega]

/-- The PML4 has an address that `cr3` can hold. -/
theorem Prepared.tableFromEntry_pml4 (h : Prepared K a image pml4 K') :
    tableFromEntry pml4 = pml4 := by
  obtain ⟨a', calls, hb⟩ := h.built
  have ho : Owns single K'.phys.mem (singleRoot pml4) () [] pml4.toNat := owned_nil.2 rfl
  have halign := hb.tables.aligned ho
  have hlt : _ < 65536 := hb.tables.refines.allocated_lt (hb.tables.allocated ho)
  refine BitVec.eq_of_toNat_eq ?_
  rw [toNat_tableFromEntry]
  omega

/-- What the kernel takes care of before it makes a process: no table that is in use can be handed
out, and the first slot of its PML4 is not for ring 3. -/
structure KernelKept (K : Kernel) (a : PageSets) : Prop where
  refines : Refines bootstrapLimit K.phys.pmm a
  taken : ∀ p f, HasTable allTables K.kernelTable K.phys.mem p f → f / 4096 ∉ a.free
  supervisor : (slot K.phys.mem K.kernelTable 0).getLsbD 2 = false

/-- **The entries for ring 3** are those of the program. -/
theorem Prepared.access_user_iff (h : Prepared K a image pml4 K') (hk : KernelKept K a)
    (hva : pml4Index va < 256 → va < userLimit) (rights : Access) :
    (access K'.phys.mem pml4 va = some rights ∧ rights.user = true) ↔
      rights.user = true ∧ addressSpaceTranslateUser K'.phys.mem pml4 va = some rights.physical ∧
        LeafIs K'.phys.mem pml4 va rights.writable rights.noExec := by
  obtain ⟨a', calls, hb⟩ := h.built
  rcases eq_or_ne (pml4Index va) userPml4Index with hone | hone
  · have hlow := hva (by rw [hone]; decide)
    rw [hb.space.access_iff hone hlow]
    tauto
  · -- in the kernel's slot the first entry is not for ring 3, in the others there is none
    refine iff_of_false (fun ⟨hsome, huser⟩ => ?_) fun ⟨_, htranslate, _⟩ => hone ?_
    · rw [access, Option.map_eq_some_iff] at hsome
      obtain ⟨l, hl, rfl⟩ := hsome
      rcases eq_or_ne (pml4Index va) 0 with hzero | hzero
      · rw [hb.trail_kernel hk.taken hzero] at hl
        rw [pathOf, hzero] at hl
        have hhead := trail_head hl
        cases l with
        | nil =>
          rw [List.headD_nil] at hhead
          rw [trail_cons, ← hhead, trailStep_absent (by simp)] at hl
          exact absurd hl (by simp)
        | cons e l =>
          rw [List.headD_cons] at hhead
          dsimp only at huser
          rw [List.all_cons, hhead, hk.supervisor, Bool.false_and] at huser
          exact absurd huser (by simp)
      · rw [hb.trail_none hzero hone] at hl
        exact absurd hl (by simp)
    · exact ((addressSpaceTranslateUser_iff (k := ()) hb.tables trivial rfl va _).1 htranslate).1

end Pages

end Exec
end SuiraBox
