/-
# A user address space is a finite map

`address_space_create` and any number of `address_space_map_user` calls on one
space, with the rest of the kernel running in between.  The space is then the
finite map that the successful calls describe: a page translates to the physical
page of the call that mapped it, and the hardware grants what that call asked
for.

Here the mapped frames are arbitrary, so nothing is known about who owns them;
only the tables must not be handed out again.  The hard part is permissions: the
tables are shared by pages mapped with different flags, and calls that fail have
raised entries on their way.  `SpaceInv` relates every upper entry to the leaves
beneath it: upper entries are user entries without NX, and writable above a
writable leaf, so the leaf decides.
-/

import SuiraBox.Mm.Ownership
import SuiraBox.Mm.PageTree

namespace SuiraBox.Mm

open ByteMem Forest

/-- The tables of PML4 slot 1. -/
def userTables : TablePaths where
  path p := UserPath p ∧ p.length ≤ 3
  nil := ⟨userPath_nil, Nat.zero_le _⟩
  closed h := ⟨h.1.closed, (List.sublist_append_left ..).length_le.trans h.2⟩
  lt h := h.1.lt
  short h := h.2

/-- The tables of the other slots. -/
def kernelTables : TablePaths where
  path p := allTables.path p ∧ p.head? ≠ some userPml4Index
  nil := ⟨allTables.nil, by simp⟩
  closed :=
    fun {p i} h => ⟨allTables.closed h.1, fun hp => h.2 (by rw [List.head?_append, hp]; rfl)⟩
  lt h := allTables.lt h.1
  short h := h.1.1

/-- What the hardware makes of a virtual address: the physical address, and the
permissions of all the entries on the way together. -/
structure Access where
  physical : U64
  writable : Bool
  user : Bool
  noExec : Bool

/-- The access that the tables under a PML4 give to a virtual address. -/
def access (m : Mem) (pml4 va : U64) : Option Access :=
  (trail m pml4.toNat (pathOf va)).map fun l =>
    ⟨physicalOf va l, l.all (·.getLsbD 1), l.all (·.getLsbD 2), l.any (·.getLsbD 63)⟩

/-- The arguments of `address_space_map_user`. -/
structure MapCall where
  va : U64
  pa : U64
  flags : U64

/-- Arguments that pass the checks. -/
def MapCall.Valid (c : MapCall) : Prop := UserPage c.va ∧ c.pa &&& pageOffsetMask = 0

/-- The page of the call. -/
def MapCall.Maps (c : MapCall) (va : U64) : Prop := va.toNat / 4096 = c.va.toNat / 4096

/-- What the rest of the kernel may do: it writes to no table of the space, and
the allocator has no frame to hand out that is in use as a table. -/
structure Undisturbed (root : ℕ) (σ σ' : Phys) : Prop where
  own : ∀ {p f}, HasTable userTables root σ.mem p f →
    ∀ x, x / 4096 = f / 4096 → σ'.mem x = σ.mem x
  taken : ∃ a, Refines bootstrapLimit σ'.pmm a ∧
    ∀ p f, HasTable allTables root σ'.mem p f → f / 4096 ∉ a.free
  apart : ∀ {p q f g}, p ≠ [] → HasTable kernelTables root σ'.mem p f →
    HasTable userTables root σ'.mem q g → f ≠ g

/-- The states of a space that `address_space_create` has made, with the calls on
it and what they returned, the last call first. -/
inductive SpaceRun (cr3 pml4 : U64) : Phys → List (MapCall × ℤ) → Prop
  | create {σ : Phys} {a : PageSets} : Refines bootstrapLimit σ.pmm a →
      (∀ p f, HasTable allTables (cr3 &&& entryAddrMask).toNat σ.mem p f → f / 4096 ∉ a.free) →
      (addressSpaceCreate σ cr3).1 = some pml4 → SpaceRun cr3 pml4 (addressSpaceCreate σ cr3).2 []
  | map {σ : Phys} {calls : List (MapCall × ℤ)} (c : MapCall) : SpaceRun cr3 pml4 σ calls →
      c.pa.toNat < 2 ^ 52 → SpaceRun cr3 pml4 (addressSpaceMapUser σ pml4 c.va c.pa c.flags).2
        ((c, (addressSpaceMapUser σ pml4 c.va c.pa c.flags).1) :: calls)
  | other {σ σ' : Phys} {calls : List (MapCall × ℤ)} : SpaceRun cr3 pml4 σ calls →
      Undisturbed pml4.toNat σ σ' → SpaceRun cr3 pml4 σ' calls

/-- The tables of the other slots are neither free nor tables of the space. -/
def KernelApart (root : ℕ) (m : Mem) (a : PageSets) : Prop :=
  ∀ p f, p ≠ [] → HasTable kernelTables root m p f →
    f / 4096 ∉ a.free ∧ ∀ q g, HasTable userTables root m q g → f / 4096 ≠ g / 4096

/-- The invariant. -/
structure SpaceInv (root : ℕ) (σ : Phys) (a : PageSets) (calls : List (MapCall × ℤ)) : Prop where
  tree : Tree userTables root σ a
  kernel : KernelApart root σ.mem a
  upper : ∀ {p i}, userTables.path (p ++ [i]) → (entries root σ.mem p i).getLsbD 0 = true →
    (entries root σ.mem p i).getLsbD 2 = true ∧ (entries root σ.mem p i).getLsbD 7 = false ∧
      (entries root σ.mem p i).getLsbD 63 = false ∧ tableFromEntry (entries root σ.mem p i) ≠ 0
  mapped : ∀ {c : MapCall}, (c, 0) ∈ calls → c.Valid ∧ c.pa.toNat < 2 ^ 52 ∧
    entries root σ.mem (tablePathOf c.va) (ptIndex c.va) = leafEntry c.pa c.flags ∧
    ∀ {p j}, OnWay [] (tablePathOf c.va) p j → (entries root σ.mem p j).getLsbD 0 = true ∧
      (c.flags.getLsbD 1 = true → (entries root σ.mem p j).getLsbD 1 = true)
  only : ∀ {p i}, userTables.path p → p.length = 3 → i < 512 →
    (entries root σ.mem p i).getLsbD 0 = true → ∃ c, (c, 0) ∈ calls ∧ pathOf c.va = p ++ [i]

variable {root : ℕ} {σ σ' : Phys} {a a' : PageSets} {p q : List ℕ} {f g t i j : ℕ} {m m' : Mem}
  {flags pml4 cr3 : U64} {calls : List (MapCall × ℤ)}

/-! ### Paths -/

variable {va : U64}

theorem userTables_tablePathOf (h : pml4Index va = userPml4Index) :
    userTables.path (tablePathOf va) :=
  ⟨(userPath_pathOf h).above (p := [ptIndex va]), le_rfl⟩

/-- The pages of valid calls are told by their paths. -/
theorem MapCall.maps_iff {c : MapCall} (hc : c.Valid) :
    c.Maps va ↔ va < userLimit ∧ pathOf va = pathOf c.va := by
  have hlimit : userLimit.toNat = 2 ^ 47 := rfl
  have hbelow := hc.1.below
  rw [BitVec.lt_def, hlimit] at hbelow
  rw [MapCall.Maps, BitVec.lt_def, hlimit]
  constructor
  · intro h
    exact ⟨by omega, (pathOf_eq_iff (by omega) (by omega)).2 h⟩
  · rintro ⟨hva, hpath⟩
    exact (pathOf_eq_iff (by omega) (by omega)).1 hpath

/-! ### What the space does not touch -/

/-- Memory has changed in free pages and in the space's own tables only, and the
other slots of the PML4 are as they were. -/
structure WritesOwn (root : ℕ) (m : Mem) (a : PageSets) (m' : Mem) : Prop where
  mem : ∀ x, x / 4096 ∉ a.free → (∀ p f, HasTable userTables root m p f → x / 4096 ≠ f / 4096) →
    m' x = m x
  slot : ∀ j < 512, j ≠ userPml4Index → slot m' root j = slot m root j

theorem WritesOwn.slot_eq (h : WritesOwn root m a m') (hk : KernelApart root m a)
    (hf : HasTable kernelTables root m p f) (hi : i < 512) (hroot : p = [] → i ≠ userPml4Index) :
    Mm.slot m' f i = Mm.slot m f i := by
  rcases eq_or_ne p [] with rfl | hp
  · rw [hasTable_nil.1 hf]
    exact h.slot i hi (hroot rfl)
  · obtain ⟨hfree, hown⟩ := hk p f hp hf
    refine slot_congr (hasTable_aligned hp hf) hi fun x hx => h.mem x ?_ fun q g hg => ?_
    · rw [hx]
      exact hfree
    · rw [hx]
      exact hown q g hg

theorem WritesOwn.tables_iff (h : WritesOwn root m a m') (hk : KernelApart root m a) (p : List ℕ)
    (f : ℕ) : HasTable kernelTables root m' p f ↔ HasTable kernelTables root m p f := by
  refine owned_congr (fun {p f i} hf hp => ?_) p f
  rw [subTable, subTable, h.slot_eq hk hf (kernelTables.lt hp)]
  rintro rfl rfl
  exact hp.2 rfl

theorem WritesOwn.trail_eq (h : WritesOwn root m a m') (hk : KernelApart root m a)
    (hva : pml4Index va ≠ userPml4Index) :
    trail m' root (pathOf va) = trail m root (pathOf va) := by
  have hroot : HasTable kernelTables root m [] root := hasTable_nil.2 rfl
  have hpath : kernelTables.path [pml4Index va, pdptIndex va, pdIndex va] := by
    refine ⟨⟨le_rfl, fun i hi => pathOf_lt va i ?_⟩, fun h => hva (Option.some.inj h)⟩
    exact List.mem_of_mem_dropLast (l := pathOf va) hi
  have hlt : pml4Index va < 512 := index_lt ..
  rw [pathOf, trail_cons m', trail_cons m root, h.slot_eq hk hroot hlt fun _ => hva]
  refine trailStep_congr fun hpresent hsmall => ?_
  have hg := hroot.step (r := [pdptIndex va, pdIndex va, ptIndex va]) rfl (by simp)
    (kernelTables.above (q := [pdptIndex va, pdIndex va]) hpath) hpresent hsmall
  refine hg.trail_congr (r := [pdptIndex va, pdIndex va, ptIndex va]) rfl hpath
    (fun i hi => pathOf_lt va i (List.mem_cons_of_mem _ hi)) fun hq hpre hj =>
      h.slot_eq hk hq hj fun hnil => ?_
  rw [hnil] at hpre
  exact absurd (List.prefix_nil.1 hpre) (by simp)

theorem KernelApart.congr (hk : KernelApart root m a) (h : WritesOwn root m a m')
    (hfree : a'.free ⊆ a.free)
    (hfresh : ∀ {p f}, HasTable userTables root m' p f →
      HasTable userTables root m p f ∨ f / 4096 ∈ a.free) : KernelApart root m' a' := by
  intro p f hp hf
  obtain ⟨hnot, hown⟩ := hk p f hp ((h.tables_iff hk p f).1 hf)
  refine ⟨fun hmem => hnot (hfree hmem), fun q g hg => ?_⟩
  rcases hfresh hg with hold | hmem
  · exact hown q g hold
  · exact fun he => hnot (he ▸ hmem)

/-! ### The invariant along a call -/

/-- What raising does to the entry of a table. -/
theorem Raised.upper {e e' : U64} (h : Raised flags e e') (hflags : flags.getLsbD 2 = true)
    (he : e.getLsbD 0 = true → e.getLsbD 2 = true ∧ e.getLsbD 7 = false ∧ e.getLsbD 63 = false ∧
      tableFromEntry e ≠ 0) :
    e'.getLsbD 0 = true ∧ e'.getLsbD 2 = true ∧ e'.getLsbD 7 = false ∧ e'.getLsbD 63 = false ∧
      tableFromEntry e' ≠ 0 ∧ (flags.getLsbD 1 = true → e'.getLsbD 1 = true) := by
  cases h with
  | there hpresent hsmall =>
    obtain ⟨htarget, hbits⟩ := raise_bits flags e
    obtain ⟨huser, hsmall, hnx, hzero⟩ := he hpresent
    rw [htarget, hbits, hbits, hbits, hbits, hbits, hpresent, huser, hsmall, hnx]
    simp only [Bool.true_or, Bool.false_or, true_and]
    refine ⟨by simp, by simp, hzero, fun hw => ?_⟩
    simp [hw]
  | new habsent halign hbound hzero =>
    obtain ⟨htarget, hpresent, hsmall, hnx, hwritable, huser⟩ := tableEntry_spec flags halign hbound
    rw [htarget, hwritable, huser]
    exact ⟨hpresent, hflags, hsmall, hnx, hzero, id⟩

theorem Raised.keeps {e e' : U64} (h : Raised flags e e') (hpresent : e.getLsbD 0 = true) :
    e'.getLsbD 0 = true ∧ (e.getLsbD 1 = true → e'.getLsbD 1 = true) := by
  cases h with
  | there _ _ =>
    rw [(raise_bits flags e).2, (raise_bits flags e).2, hpresent]
    exact ⟨by simp, fun h => by simp [h]⟩
  | new habsent => exact absurd (habsent.symm.trans hpresent) (by simp)

/-- The way down of a call stays in the space. -/
theorem Way.writesOwn {r : U64 × Phys} (hva : pml4Index va = userPml4Index)
    (hw : Way userTables root flags σ a [] (tablePathOf va) r a') :
    WritesOwn root σ.mem a r.2.mem := by
  refine ⟨hw.mem, fun j hj hne => ?_⟩
  have hroot : ∀ m, HasTable userTables root m [] root := fun m => hasTable_nil.2 rfl
  rw [← (hroot _).entries_eq, ← (hroot _).entries_eq]
  refine (hw.entry userTables.nil hj).resolve_right fun ⟨hon, _⟩ => ?_
  rcases onWay_tablePathOf.1 hon with ⟨-, hj⟩ | ⟨hp, -⟩ | ⟨hp, -⟩
  · exact hne (hj.trans hva)
  · exact absurd hp (by simp)
  · exact absurd hp (by simp)

/-- **The way down of a call keeps the invariant**, whether it arrives or not. -/
theorem SpaceInv.way (h : SpaceInv root σ a calls) {r : U64 × Phys}
    (hva : pml4Index va = userPml4Index) (hflags : flags.getLsbD 2 = true)
    (hw : Way userTables root flags σ a [] (tablePathOf va) r a') : SpaceInv root r.2 a' calls := by
  -- the last level is not on the way
  have hleaf : ∀ {p i}, userTables.path p → p.length = 3 → i < 512 →
      entries root r.2.mem p i = entries root σ.mem p i := by
    intro p i hp hlen hi
    refine (hw.entry hp hi).resolve_right fun ⟨hon, _⟩ => ?_
    have hshort : p.length < 3 := hon.length.2
    omega
  refine ⟨hw.tree, h.kernel.congr (hw.writesOwn hva) hw.free fun hf =>
    (hw.fresh hf).imp_right And.left, fun {p i} hp hpresent => ?_, fun {c} hc => ?_,
    fun {p i} hp hlen hi hpresent => ?_⟩
  · rcases hw.entry (userTables.closed hp) (userTables.lt hp) with hsame | ⟨-, hraised⟩
    · rw [hsame] at hpresent ⊢
      exact h.upper hp hpresent
    · obtain ⟨-, huser, hsmall, hnx, hzero, -⟩ := hraised.upper hflags (h.upper hp)
      exact ⟨huser, hsmall, hnx, hzero⟩
  · obtain ⟨hvalid, hbound, hentry, hway⟩ := h.mapped hc
    have hpath := userTables_tablePathOf hvalid.1.index
    refine ⟨hvalid, hbound, (hleaf hpath rfl (index_lt ..)).trans hentry, fun {p j} hon => ?_⟩
    obtain ⟨hpresent, hwritable⟩ := hway hon
    have hslot := hon.path (S := userTables) hpath
    rcases hw.entry (userTables.closed hslot) (userTables.lt hslot) with hsame | ⟨-, hraised⟩
    · rw [hsame]
      exact ⟨hpresent, hwritable⟩
    · obtain ⟨hpresent', hkeep⟩ := hraised.keeps hpresent
      exact ⟨hpresent', fun hw => hkeep (hwritable hw)⟩
  · rw [hleaf hp hlen hi] at hpresent
    exact h.only hp hlen hi hpresent

/-- A slot of a last table that is missing is mapped. -/
theorem SpaceInv.set (h : SpaceInv root σ a calls) {c : MapCall} (hc : c.Valid)
    (hbound : c.pa.toNat < 2 ^ 52) (ht : HasTable userTables root σ.mem (tablePathOf c.va) t)
    (hempty : (slot σ.mem t (ptIndex c.va)).getLsbD 0 = false)
    (hway : ∀ {p j}, OnWay [] (tablePathOf c.va) p j → (entries root σ.mem p j).getLsbD 0 = true ∧
      (c.flags.getLsbD 1 = true → (entries root σ.mem p j).getLsbD 1 = true)) :
    SpaceInv root { σ with mem := setSlot σ.mem t (ptIndex c.va) (leafEntry c.pa c.flags) } a
      ((c, 0) :: calls) := by
  have hi : ptIndex c.va < 512 := index_lt ..
  have hlong : ¬ userTables.path (tablePathOf c.va ++ [ptIndex c.va]) :=
    fun hp => absurd (userTables.short hp) (by simp [tablePathOf])
  obtain ⟨htree, hsame, hset⟩ :=
    h.tree.set ht hi (e := leafEntry c.pa c.flags) fun hp => absurd hp hlong
  have hupper : ∀ {p j}, userTables.path (p ++ [j]) →
      entries root (setSlot σ.mem t (ptIndex c.va) (leafEntry c.pa c.flags)) p j =
        entries root σ.mem p j := by
    intro p j hp
    refine (hset (userTables.closed hp) (userTables.lt hp)).2 fun hslot => hlong ?_
    rwa [hslot.1, hslot.2] at hp
  have hwrites : WritesOwn root σ.mem a
      (setSlot σ.mem t (ptIndex c.va) (leafEntry c.pa c.flags)) := by
    refine ⟨fun x _ hx => setSlot_of_ne (h.tree.table_aligned ht) hi (hx _ _ ht), fun j hj _ => ?_⟩
    have hroot : HasTable userTables root σ.mem [] root := hasTable_nil.2 rfl
    refine slot_setSlot_of_ne (h.tree.table_aligned ht) h.tree.aligned hi hj fun heq => ?_
    obtain ⟨hpath, -⟩ := h.tree.page_unique hroot ht (by rw [(Prod.mk.inj heq).1])
    exact absurd hpath (by simp [tablePathOf])
  refine ⟨htree, h.kernel.congr hwrites (Finset.Subset.refl _) fun hf => Or.inl ((hsame _ _).1 hf),
    fun {p i} hp hpresent => ?_, fun {c'} hc' => ?_, fun {p j} hp hlen hj hpresent => ?_⟩
  · dsimp only at hpresent ⊢
    rw [hupper hp] at hpresent ⊢
    exact h.upper hp hpresent
  · rcases List.mem_cons.1 hc' with heq | hold
    · obtain rfl := (Prod.mk.inj heq).1
      refine ⟨hc, hbound, (hset ht.path hi).1 ⟨rfl, rfl⟩, fun {p j} hon => ?_⟩
      dsimp only
      rw [hupper (hon.path (S := userTables) ht.path)]
      exact hway hon
    · obtain ⟨hvalid, hsmall, hentry, hway'⟩ := h.mapped hold
      have hpath := userTables_tablePathOf hvalid.1.index
      refine ⟨hvalid, hsmall, ?_, fun {p j} hon => ?_⟩
      · have hlt : ptIndex c'.va < 512 := index_lt ..
        refine ((hset hpath hlt).2 fun hslot => ?_).trans hentry
        -- the slot that is set was empty, and this one is not
        rw [hslot.1, hslot.2, ht.entries_eq] at hentry
        rw [hentry] at hempty
        have halign := (and_pageMask_eq_zero_iff c'.pa).1 hvalid.2
        exact absurd (hempty.symm.trans (leafEntry_spec c'.flags halign hsmall).2.1) (by simp)
      · dsimp only
        rw [hupper (hon.path (S := userTables) hpath)]
        exact hway' hon
  · rcases Decidable.em (p = tablePathOf c.va ∧ j = ptIndex c.va) with ⟨rfl, rfl⟩ | hne
    · exact ⟨c, List.mem_cons_self .., rfl⟩
    · dsimp only at hpresent
      rw [(hset hp hj).2 hne] at hpresent
      obtain ⟨c', hc', hpath⟩ := h.only hp hlen hj hpresent
      exact ⟨c', List.mem_cons_of_mem _ hc', hpath⟩

/-- A call that failed is nothing to the invariant. -/
theorem SpaceInv.failed (h : SpaceInv root σ a calls) (c : MapCall) {rc : ℤ} (hrc : rc ≠ 0) :
    SpaceInv root σ a ((c, rc) :: calls) := by
  have hmem : ∀ {c'}, (c', 0) ∈ (c, rc) :: calls ↔ (c', (0 : ℤ)) ∈ calls := by
    intro c'
    rw [List.mem_cons]
    exact or_iff_right fun heq => hrc (Prod.mk.inj heq).2.symm
  refine ⟨h.tree, h.kernel, h.upper, fun hc => h.mapped (hmem.1 hc), fun hp hlen hi hpresent => ?_⟩
  obtain ⟨c', hc', hpath⟩ := h.only hp hlen hi hpresent
  exact ⟨c', hmem.2 hc', hpath⟩

/-- The page of a call is mapped. -/
def Taken (calls : List (MapCall × ℤ)) (va : U64) : Prop :=
  ∃ c, (c, 0) ∈ calls ∧ pathOf c.va = pathOf va

theorem SpaceInv.leaf_iff (h : SpaceInv root σ a calls) (hva : pml4Index va = userPml4Index) :
    (entries root σ.mem (tablePathOf va) (ptIndex va)).getLsbD 0 = true ↔ Taken calls va := by
  constructor
  · intro hpresent
    exact h.only (userTables_tablePathOf hva) rfl (index_lt ..) hpresent
  · rintro ⟨c, hc, hpath⟩
    obtain ⟨hvalid, hbound, hentry, -⟩ := h.mapped hc
    rw [pathOf_eq, pathOf_eq] at hpath
    obtain ⟨htables, hlast⟩ := List.append_inj' hpath rfl
    rw [← htables, ← List.singleton_inj.1 hlast, hentry]
    exact (leafEntry_spec c.flags ((and_pageMask_eq_zero_iff c.pa).1 hvalid.2) hbound).2.1

/-- The way to a mapped page is there. -/
theorem SpaceInv.openWay (h : SpaceInv root σ a calls) (hva : Taken calls va) :
    OpenWay root σ.mem [] (tablePathOf va) := by
  obtain ⟨c, hc, hpath⟩ := hva
  obtain ⟨hvalid, -, -, hway⟩ := h.mapped hc
  rw [pathOf_eq, pathOf_eq] at hpath
  rw [← (List.append_inj' hpath rfl).1]
  intro p j hon
  obtain ⟨hpresent, -⟩ := hway hon
  have hslot := hon.path (S := userTables) (userTables_tablePathOf hvalid.1.index)
  obtain ⟨-, hsmall, -, hzero⟩ := h.upper hslot hpresent
  exact ⟨hpresent, hsmall, hzero⟩

/-- **One call**: it goes its way, within the space, and then finds the page taken
or maps it. -/
theorem SpaceInv.call (h : SpaceInv pml4.toNat σ a calls) (c : MapCall) :
    ∃ σ' a', SpaceInv pml4.toNat σ' a' calls ∧ WritesOwn pml4.toNat σ.mem a σ'.mem ∧
      (addressSpaceMapUser σ pml4 c.va c.pa c.flags = (-1, σ') ∧ ¬ (c.Valid ∧ Taken calls c.va) ∨
      addressSpaceMapUser σ pml4 c.va c.pa c.flags = (-2, σ') ∧ c.Valid ∧ Taken calls c.va ∨
      c.Valid ∧ ¬ Taken calls c.va ∧
        ∃ t, HasTable userTables pml4.toNat σ'.mem (tablePathOf c.va) t ∧
        (slot σ'.mem t (ptIndex c.va)).getLsbD 0 = false ∧
        (∀ {p j}, OnWay [] (tablePathOf c.va) p j →
          (entries pml4.toNat σ'.mem p j).getLsbD 0 = true ∧
          (c.flags.getLsbD 1 = true → (entries pml4.toNat σ'.mem p j).getLsbD 1 = true)) ∧
        addressSpaceMapUser σ pml4 c.va c.pa c.flags =
          (0, { σ' with mem := setSlot σ'.mem t (ptIndex c.va) (leafEntry c.pa c.flags) })) := by
  rw [addressSpaceMapUser_eq]
  rcases Classical.em c.Valid with hvalid | hbad
  swap
  · rw [if_pos (badArgs_iff.2 hbad)]
    exact ⟨σ, a, h, ⟨fun _ _ _ => rfl, fun _ _ _ => rfl⟩, Or.inl ⟨rfl, fun htaken => hbad htaken.1⟩⟩
  rw [if_neg fun hbad => badArgs_iff.1 hbad hvalid]
  have hindex := hvalid.1.index
  have huser := getLsbD_or_vmmUser c.flags
  have hwritable : c.flags.getLsbD 1 = true → (c.flags ||| vmmUser).getLsbD 1 = true := fun hw => by
    rw [BitVec.getLsbD_or, hw, Bool.true_or]
  obtain ⟨a', hw⟩ : ∃ a', Way userTables pml4.toNat (c.flags ||| vmmUser) σ a [] (tablePathOf c.va)
      (ensurePath (c.flags ||| vmmUser) (tablePathOf c.va) pml4 σ) a' :=
    ensurePath_way (q := []) h.tree (hasTable_nil.2 rfl) (Or.inl (List.cons_ne_nil _ _))
      (userTables_tablePathOf hindex) _
  generalize ensurePath (c.flags ||| vmmUser) (tablePathOf c.va) pml4 σ = r at hw ⊢
  have h' := h.way hindex huser hw
  refine ⟨r.2, a', h', hw.writesOwn hindex, ?_⟩
  unfold mapLeaf
  split_ifs with hzero hpresent
  · exact Or.inl ⟨rfl, fun ⟨_, htaken⟩ => hw.there (h.openWay htaken) hzero⟩
  · obtain ⟨htable, -⟩ := hw.arrived hzero
    rw [present_iff, ← htable.entries_eq] at hpresent
    exact Or.inr (Or.inl ⟨rfl, hvalid, (h'.leaf_iff hindex).1 hpresent⟩)
  · obtain ⟨htable, hraised⟩ := hw.arrived hzero
    rw [List.nil_append] at htable
    rw [present_iff, Bool.not_eq_true] at hpresent
    refine Or.inr (Or.inr ⟨hvalid, fun htaken => ?_, r.1.toNat, htable, hpresent,
      fun {p j} hon => ?_, rfl⟩)
    · have hleaf := (h'.leaf_iff hindex).2 htaken
      rw [htable.entries_eq, hpresent] at hleaf
      exact absurd hleaf (by simp)
    · have hslot := hon.path (S := userTables) (userTables_tablePathOf hindex)
      obtain ⟨hthere, -, -, -, -, hw⟩ := (hraised hon).upper huser (h.upper hslot)
      exact ⟨hthere, fun h => hw (hwritable h)⟩

/-- A call that is valid maps a page that is not taken, if there are pages for three tables. -/
theorem SpaceInv.map_of_room (h : SpaceInv pml4.toNat σ a calls) {c : MapCall} (hvalid : c.Valid)
    (hnew : ¬ Taken calls c.va) (hzero : 0 ∉ a.free) (hroom : 3 ≤ a.free.card) :
    (addressSpaceMapUser σ pml4 c.va c.pa c.flags).1 = 0 := by
  have hpath := userTables_tablePathOf hvalid.1.index
  rw [addressSpaceMapUser_eq, if_neg fun hbad => badArgs_iff.1 hbad hvalid]
  refine (mapLeaf_eq_zero_iff (q := []) h.tree (hasTable_nil.2 rfl) (Or.inl (List.cons_ne_nil _ _))
    hpath (index_lt ..) _ _).2 ?_
  rw [h.tree.refines.freeSet_eq]
  refine mappable_of_room (q := []) (hasTable_nil.2 rfl) hpath (fun hon hthere => ?_) ?_ hzero hroom
  · obtain ⟨-, hsmall, -, hne⟩ := h.upper (hon.path (S := userTables) hpath) hthere
    exact ⟨hsmall, hne⟩
  · exact Bool.eq_false_iff.2 fun hleaf => hnew ((h.leaf_iff hvalid.1.index).1 hleaf)

/-- The invariant after a call. -/
theorem SpaceInv.map (h : SpaceInv pml4.toNat σ a calls) (c : MapCall)
    (hbound : c.pa.toNat < 2 ^ 52) :
    ∃ a', SpaceInv pml4.toNat (addressSpaceMapUser σ pml4 c.va c.pa c.flags).2 a'
      ((c, (addressSpaceMapUser σ pml4 c.va c.pa c.flags).1) :: calls) := by
  obtain ⟨σ', a', h', -, ⟨heq, -⟩ | ⟨heq, -⟩ | ⟨hvalid, -, t, ht, hempty, hway, heq⟩⟩ := h.call c
  · rw [heq]
    exact ⟨a', h'.failed c (show (-1 : ℤ) ≠ 0 by decide)⟩
  · rw [heq]
    exact ⟨a', h'.failed c (show (-2 : ℤ) ≠ 0 by decide)⟩
  · rw [heq]
    exact ⟨a', h'.set hvalid hbound ht hempty hway⟩

/-! ### What the space is -/

theorem trail_userPath (hva : pml4Index va = userPml4Index) :
    trail m root (pathOf va) = trailOf (entries root m) (pathOf va) :=
  HasTable.trail_eq (S := userTables) (p := [])
    (hasTable_nil.2 rfl) rfl (userTables_tablePathOf hva)

/-- **What the hardware grants is what the call asked for.** -/
theorem SpaceInv.access_taken (h : SpaceInv pml4.toNat σ a calls) {c : MapCall}
    (hc : (c, 0) ∈ calls) (hva : pathOf va = pathOf c.va) :
    access σ.mem pml4 va =
      some ⟨(leafEntry c.pa c.flags &&& entryAddrMask) ||| (va &&& pageOffsetMask),
        c.flags.getLsbD 1, true, c.flags.getLsbD 63⟩ := by
  obtain ⟨hvalid, hbound, hentry, hway⟩ := h.mapped hc
  have hindex := hvalid.1.index
  have hpath := userTables_tablePathOf hindex
  obtain ⟨-, hpresent, huser, hwritable, hnx⟩ :=
    leafEntry_spec c.flags ((and_pageMask_eq_zero_iff c.pa).1 hvalid.2) hbound
  rw [access, hva, trail_userPath hindex]
  -- the entries above the leaf
  have hupper : ∀ {p j}, OnWay [] (tablePathOf c.va) p j → _ := fun {p j} hon =>
    And.intro (hway hon) (h.upper (hon.path (S := userTables) hpath) (hway hon).1)
  obtain ⟨⟨h₄, hw₄⟩, hu₄, -, hn₄, -⟩ := hupper (onWay_tablePathOf.2 (Or.inl ⟨rfl, rfl⟩))
  obtain ⟨⟨h₃, hw₃⟩, hu₃, hs₃, hn₃, -⟩ := hupper (onWay_tablePathOf.2 (Or.inr (Or.inl ⟨rfl, rfl⟩)))
  obtain ⟨⟨h₂, hw₂⟩, hu₂, hs₂, hn₂, -⟩ := hupper (onWay_tablePathOf.2 (Or.inr (Or.inr ⟨rfl, rfl⟩)))
  rw [tablePathOf] at hentry
  rw [pathOf, trailOf_full h₄ h₃ hs₃ h₂ hs₂ (by rw [hentry]; exact hpresent), hentry,
    Option.map_some, physicalOf_page]
  simp only [List.all_cons, List.all_nil, List.any_cons, List.any_nil, hu₄, hu₃, hu₂,
    huser, hn₄, hn₃, hn₂, hnx, hwritable, Bool.and_true, Bool.or_false, Bool.false_or]
  rcases Bool.eq_false_or_eq_true (c.flags.getLsbD 1) with hw | hw
  · rw [hw, hw₄ hw, hw₃ hw, hw₂ hw]
    rfl
  · rw [hw, Bool.and_false, Bool.and_false, Bool.and_false]

/-- A page that no call has mapped is not there. -/
theorem SpaceInv.trail_none (h : SpaceInv root σ a calls)
    (hva : pml4Index va = userPml4Index) (hno : ¬ Taken calls va) :
    trail σ.mem root (pathOf va) = none := by
  have hleaf : (entries root σ.mem (tablePathOf va) (ptIndex va)).getLsbD 0 = false := by
    rw [← Bool.not_eq_true, h.leaf_iff hva]
    exact hno
  have hpath := userTables_tablePathOf hva
  rw [trail_userPath hva, pathOf]
  have hup : ∀ {p j} (n : ℕ) (below : Option (List U64)), OnWay [] (tablePathOf va) p j →
      below = none → trailStep (entries root σ.mem p j) n below = none := by
    intro p j n below hon hbelow
    rcases Bool.eq_false_or_eq_true ((entries root σ.mem p j).getLsbD 0) with hpresent | habsent
    · obtain ⟨-, hsmall, -⟩ := h.upper (hon.path (S := userTables) hpath) hpresent
      rw [trailStep_table hpresent fun hl => absurd (hsmall.symm.trans hl) (by simp), hbelow]
      rfl
    · exact trailStep_absent habsent _ _
  rw [trailOf]
  refine hup _ _ (onWay_tablePathOf.2 (Or.inl ⟨rfl, rfl⟩)) ?_
  rw [trailOf]
  refine hup _ _ (onWay_tablePathOf.2 (Or.inr (Or.inl ⟨rfl, rfl⟩))) ?_
  rw [trailOf]
  refine hup _ _ (onWay_tablePathOf.2 (Or.inr (Or.inr ⟨rfl, rfl⟩))) ?_
  rw [trailOf]
  exact trailStep_absent hleaf _ _

/-- Every entry above a leaf is a user entry, so `address_space_translate_user`
comes by the same tables as the hardware. -/
theorem SpaceInv.walk_iff (h : SpaceInv root σ a calls) (hp : userTables.path p) :
    walk (nextUser σ.mem) root p = some f ↔ HasTable userTables root σ.mem p f := by
  have hnext : ∀ {p f i}, HasTable userTables root σ.mem p f → userTables.path (p ++ [i]) →
      nextUser σ.mem f i = subTable root σ.mem f i := by
    intro p f i hf hp
    have hupper := h.upper hp
    rw [hf.entries_eq] at hupper
    rcases Bool.eq_false_or_eq_true ((slot σ.mem f i).getLsbD 0) with hpresent | habsent
    · obtain ⟨huser, hsmall, -⟩ := hupper hpresent
      rw [nextUser, if_pos ((userEntry_iff _).2 ⟨hpresent, huser⟩)]
      exact (subTarget_eq_some.2 ⟨hpresent, Or.inr hsmall, rfl⟩).symm
    · rw [nextUser, if_neg, subTable, subTarget_of_absent habsent]
      rw [userEntry_iff, habsent]
      exact fun hc => absurd hc.1 (by simp)
  have hsame : Owned userTables.shape (nextUser σ.mem) (fun _ => some root) () p f ↔
      HasTable userTables root σ.mem p f := owned_congr hnext p f
  rw [← hsame]
  constructor
  · intro hw
    exact ⟨hp, root, rfl, hw⟩
  · rintro ⟨-, r, hr, hw⟩
    rwa [← Option.some.inj hr] at hw

/-- **Translation is the finite map of the calls.** -/
theorem SpaceInv.translate_iff (h : SpaceInv pml4.toNat σ a calls) (va x : U64) :
    addressSpaceTranslateUser σ.mem pml4 va = some x ↔
      ∃ c, (c, 0) ∈ calls ∧ c.Maps va ∧ x.toNat = c.pa.toNat + va.toNat % 4096 := by
  have hphysical : ∀ c : MapCall, c.Valid → c.pa.toNat < 2 ^ 52 →
      (tableFromEntry (leafEntry c.pa c.flags)).toNat = c.pa.toNat := fun c hc hbound => by
    rw [(leafEntry_spec c.flags ((and_pageMask_eq_zero_iff c.pa).1 hc.2) hbound).1]
  by_cases hva : pml4Index va = userPml4Index ∧ va < userLimit
  · have hlast : walk (nextUser σ.mem) pml4.toNat (pathOf va) =
        (walk (nextUser σ.mem) pml4.toNat (tablePathOf va)).bind fun t =>
          nextUser σ.mem t (ptIndex va) := by
      rw [pathOf_eq, walk_append]
      simp only [walk, Option.bind_fun_some]
    have htables := userTables_tablePathOf hva.1
    rw [addressSpaceTranslateUser_eq _ _ _ hva, hlast, Option.map_eq_some_iff]
    constructor
    · rintro ⟨f, hf, rfl⟩
      obtain ⟨t, ht, hf⟩ := Option.bind_eq_some_iff.1 hf
      rw [h.walk_iff htables] at ht
      rw [nextUser] at hf
      split_ifs at hf with huser
      obtain rfl := Option.some.inj hf
      rw [userEntry_iff, ← ht.entries_eq] at huser
      obtain ⟨c, hc, hpath⟩ := (h.leaf_iff hva.1).1 huser.1
      obtain ⟨hvalid, hbound, hentry, -⟩ := h.mapped hc
      rw [pathOf_eq, pathOf_eq] at hpath
      obtain ⟨hsame, hindex⟩ := List.append_inj' hpath rfl
      rw [hsame, List.singleton_inj.1 hindex, ht.entries_eq] at hentry
      refine ⟨c, hc, (MapCall.maps_iff hvalid).2 ⟨hva.2, hpath.symm⟩, ?_⟩
      rw [hentry, hphysical c hvalid hbound, BitVec.toNat_ofNat, Nat.mod_eq_of_lt (by omega)]
    · rintro ⟨c, hc, hmaps, hx⟩
      obtain ⟨hvalid, hbound, hentry, -⟩ := h.mapped hc
      obtain ⟨-, hpath⟩ := (MapCall.maps_iff hvalid).1 hmaps
      obtain ⟨htarget, hpresent, huser, -⟩ :=
        leafEntry_spec c.flags ((and_pageMask_eq_zero_iff c.pa).1 hvalid.2) hbound
      rw [pathOf_eq, pathOf_eq] at hpath
      obtain ⟨hsame, hindex⟩ := List.append_inj' hpath rfl
      rw [← hsame, ← List.singleton_inj.1 hindex] at hentry
      obtain ⟨t, ht⟩ : ∃ t, HasTable userTables pml4.toNat σ.mem (tablePathOf va) t := by
        by_contra hno
        rw [entries_of_none htables (not_exists.1 hno)] at hentry
        rw [← hentry] at hpresent
        exact absurd hpresent (by simp)
      rw [ht.entries_eq] at hentry
      refine ⟨c.pa.toNat, ?_, ?_⟩
      · rw [(h.walk_iff htables).2 ht, Option.bind_some, nextUser, hentry,
          if_pos ((userEntry_iff _).2 ⟨hpresent, huser⟩), htarget]
      · rw [← hx, BitVec.ofNat_toNat, BitVec.setWidth_eq]
  · rw [addressSpaceTranslateUser, if_pos]
    · refine iff_of_false (by simp) ?_
      rintro ⟨c, hc, hmaps, -⟩
      obtain ⟨hvalid, -⟩ := h.mapped hc
      obtain ⟨hlimit, hpath⟩ := (MapCall.maps_iff hvalid).1 hmaps
      refine hva ⟨?_, hlimit⟩
      rw [show pml4Index va = pml4Index c.va from (List.cons.inj hpath).1]
      exact hvalid.1.index
    · rw [not_and_or, BitVec.not_lt] at hva
      exact hva

/-! ### Runs -/

/-- **A new space** is empty: its PML4 shares one slot with the current tables. -/
theorem SpaceInv.create
    (htaken : ∀ p f, HasTable allTables (cr3 &&& entryAddrMask).toNat σ.mem p f → f / 4096 ∉ a.free)
    (hn : NewSpace σ a cr3 pml4 σ') : ∃ a', SpaceInv pml4.toNat σ' a' [] := by
  have hcurrent : (cr3 &&& entryAddrMask).toNat / 4096 ≠ pml4.toNat / 4096 :=
    fun he => htaken [] _ (hasTable_nil.2 rfl) (he ▸ hn.free)
  have hempty : ∀ {j}, j < 512 → j ≠ 0 → slot σ'.mem pml4.toNat j = 0 :=
    fun hj hne => hn.empty _ (Nat.pos_of_ne_zero hne) hj
  have hroot : ∀ {p f}, HasTable userTables pml4.toNat σ'.mem p f → p = [] ∧ f = pml4.toNat := by
    intro p f hf
    refine owned_of_leaf ?_ (fun j hj => ?_) hf
    · rfl
    · have hone : j = userPml4Index := hj.1.2.2 j rfl
      rw [subTable, hempty (userTables.lt (p := []) hj) (by rw [hone]; decide)]
      exact subTarget_of_absent (by simp)
  have hzero : ∀ {p j}, userTables.path p → j < 512 → (p = [] → j ≠ 0) →
      entries pml4.toNat σ'.mem p j = 0 := by
    intro p j hp hj hne
    rcases eq_or_ne p [] with rfl | hnil
    · rw [(hasTable_nil.2 rfl : HasTable userTables pml4.toNat σ'.mem [] _).entries_eq]
      exact hempty hj (hne rfl)
    · exact entries_of_none hp (fun f hf => hnil (hroot hf).1) j
  -- the tables of the other slots are tables of the current space
  have hkernel : ∀ {p f}, p ≠ [] → HasTable kernelTables pml4.toNat σ'.mem p f →
      HasTable allTables (cr3 &&& entryAddrMask).toNat σ.mem p f := by
    intro p
    induction p using List.reverseRecOn with
    | nil => exact fun h => absurd rfl h
    | append_singleton p i ih =>
      intro f _ hf
      obtain ⟨hp, t, ht, hstep⟩ := hasTable_concat.1 hf
      refine hasTable_concat.2 ⟨hp.1, ?_⟩
      rw [subTable] at hstep
      rcases eq_or_ne p [] with rfl | hnil
      · rw [hasTable_nil.1 ht] at hstep
        rcases eq_or_ne i 0 with rfl | hi
        · rw [hn.first hcurrent, subTarget_eq_some] at hstep
          exact ⟨_, hasTable_nil.2 rfl, subTarget_eq_some.2 ⟨hstep.1, Or.inl rfl, hstep.2.2⟩⟩
        · rw [hempty (kernelTables.lt hp) hi, subTarget_of_absent (by simp)] at hstep
          exact absurd hstep (by simp)
      · have hold := ih hnil ht
        have hne : t / 4096 ≠ pml4.toNat / 4096 := fun he => htaken p t hold (he ▸ hn.free)
        rw [slot_congr (hasTable_aligned hnil ht) (kernelTables.lt hp)
          fun x hx => hn.other x (by rw [hx]; exact hne), subTarget_eq_some] at hstep
        refine ⟨t, hold, subTarget_eq_some.2 ⟨hstep.1, Or.inr (hstep.2.1.resolve_left ?_),
          hstep.2.2⟩⟩
        rintro rfl
        exact hne rfl
  refine ⟨_, ⟨hn.refines, hn.aligned, fun hf hg => ?_, fun hf => ?_⟩, fun p f hp hf => ?_,
    fun {p i} hp hpresent => ?_, fun hc' => absurd hc' (by simp), fun {p i} hp hlen hi hpresent =>
    ?_⟩
  · exact ⟨rfl, (hroot hf).1.trans (hroot hg).1.symm⟩
  · rw [(hroot hf).2, PageSets.free_take]
    exact Finset.notMem_erase _ a.free
  · have hnot := htaken p f (hkernel hp hf)
    refine ⟨fun hmem => hnot ?_, fun q g hg => ?_⟩
    · rw [PageSets.free_take] at hmem
      exact Finset.mem_of_mem_erase hmem
    · rw [(hroot hg).2]
      exact fun he => hnot (he ▸ hn.free)
  · rw [hzero (userTables.closed hp) (userTables.lt hp)] at hpresent
    · exact absurd hpresent (by simp)
    · rintro rfl
      rw [hp.1.2.2 i rfl]
      decide
  · rw [hzero hp hi] at hpresent
    · exact absurd hpresent (by simp)
    · rintro rfl
      exact absurd hlen (by simp)

/-- The rest of the kernel keeps the invariant. -/
theorem SpaceInv.other (h : SpaceInv root σ a calls) (hu : Undisturbed root σ σ') :
    ∃ a', SpaceInv root σ' a' calls := by
  obtain ⟨a', hr, htaken⟩ := hu.taken
  have hslot : ∀ {p f i}, HasTable userTables root σ.mem p f → i < 512 →
      slot σ'.mem f i = slot σ.mem f i := fun hf hi =>
    slot_congr (h.tree.table_aligned hf) hi (hu.own hf)
  have hall : ∀ {p}, userTables.path p → allTables.path p := fun hp => ⟨hp.2, hp.1.2.1⟩
  have hsame : ∀ p f, HasTable userTables root σ'.mem p f ↔ HasTable userTables root σ.mem p f :=
    owned_congr fun hf hp => by rw [subTable, subTable, hslot hf (userTables.lt hp)]
  have hentry : ∀ {p i}, userTables.path p → i < 512 →
      entries root σ'.mem p i = entries root σ.mem p i := by
    intro p i hp hi
    rcases Classical.em (∃ f, HasTable userTables root σ.mem p f) with ⟨f, hf⟩ | hno
    · rw [((hsame p f).2 hf).entries_eq, hf.entries_eq, hslot hf hi]
    · rw [entries_of_none hp fun f hf => hno ⟨f, (hsame p f).1 hf⟩,
        entries_of_none hp fun f hf => hno ⟨f, hf⟩]
  obtain ⟨htree, -⟩ := h.tree.congr σ'.mem hr
    (fun {p f} hf => htaken p f (((hsame p f).2 hf).mono (hall hf.path)))
    fun hf hp => by rw [subTable, subTable, hslot hf (userTables.lt hp)]
  refine ⟨a', htree, fun p f hp hf => ⟨htaken p f (hf.mono hf.path.1), fun q g hg hpage => ?_⟩,
    fun {p i} hp => ?_, fun {c} hc => ?_, fun {p i} hp hlen hi => ?_⟩
  · have h₁ := hasTable_aligned hp hf
    have h₂ := htree.table_aligned hg
    exact hu.apart hp hf hg (by omega)
  · rw [hentry (userTables.closed hp) (userTables.lt hp)]
    exact h.upper hp
  · obtain ⟨hvalid, hbound, hleaf, hway⟩ := h.mapped hc
    have hpath := userTables_tablePathOf hvalid.1.index
    refine ⟨hvalid, hbound, (hentry hpath (index_lt ..)).trans hleaf, fun {p j} hon => ?_⟩
    have hslot := hon.path (S := userTables) hpath
    rw [hentry (userTables.closed hslot) (userTables.lt hslot)]
    exact hway hon
  · rw [hentry hp hi]
    exact h.only hp hlen hi

theorem SpaceRun.inv (h : SpaceRun cr3 pml4 σ calls) : ∃ a, SpaceInv pml4.toNat σ a calls := by
  induction h with
  | create hr htaken hmade =>
    exact SpaceInv.create htaken (addressSpaceCreate_some hr (Prod.ext hmade rfl))
  | map c _ hbound ih =>
    obtain ⟨a, h⟩ := ih
    exact h.map c hbound
  | other _ hu ih =>
    obtain ⟨a, h⟩ := ih
    exact h.other hu

/-- Two states of a space with the same mappings give the same access to every
address. -/
theorem SpaceInv.access_eq (h : SpaceInv pml4.toNat σ a calls)
    (h' : SpaceInv pml4.toNat σ' a' calls) (hw : WritesOwn pml4.toNat σ.mem a σ'.mem) (va : U64) :
    access σ'.mem pml4 va = access σ.mem pml4 va := by
  rcases eq_or_ne (pml4Index va) userPml4Index with hva | hva
  · rcases Classical.em (Taken calls va) with ⟨c, hc, hpath⟩ | hno
    · rw [h.access_taken hc hpath.symm, h'.access_taken hc hpath.symm]
    · rw [access, access, h.trail_none hva hno, h'.trail_none hva hno]
  · rw [access, access, hw.trail_eq h.kernel hva]

/-- **A user address space behaves as a finite map with the requested
permissions.**  After any calls on it, an address translates if and only if a call
has mapped its page, and to the physical page of that call; the hardware grants
user access to it, writable and executable as the call asked for.  The next call
finds its page taken exactly when it is, and a call that fails changes neither
the translation nor the permissions of any address. -/
theorem user_space_is_finite_map (h : SpaceRun cr3 pml4 σ calls) :
    (∀ va x, addressSpaceTranslateUser σ.mem pml4 va = some x ↔
      ∃ c, (c, 0) ∈ calls ∧ c.Maps va ∧ x.toNat = c.pa.toNat + va.toNat % 4096) ∧
    (∀ c, (c, 0) ∈ calls → ∀ va, c.Maps va → ∃ acc, access σ.mem pml4 va = some acc ∧
      acc.user = true ∧ (acc.writable = true ↔ c.flags &&& vmmWritable ≠ 0) ∧
      (acc.noExec = true ↔ c.flags &&& vmmNx ≠ 0)) ∧
    ∀ c : MapCall,
      ((addressSpaceMapUser σ pml4 c.va c.pa c.flags).1 = -2 ↔
        c.Valid ∧ ∃ c', (c', 0) ∈ calls ∧ c'.Maps c.va) ∧
      ((addressSpaceMapUser σ pml4 c.va c.pa c.flags).1 ≠ 0 → ∀ va,
        addressSpaceTranslateUser (addressSpaceMapUser σ pml4 c.va c.pa c.flags).2.mem pml4 va =
          addressSpaceTranslateUser σ.mem pml4 va ∧
        access (addressSpaceMapUser σ pml4 c.va c.pa c.flags).2.mem pml4 va =
          access σ.mem pml4 va) := by
  obtain ⟨a, hinv⟩ := h.inv
  refine ⟨hinv.translate_iff, fun c hc va hva => ?_, fun c => ?_⟩
  · obtain ⟨hvalid, -⟩ := hinv.mapped hc
    refine ⟨_, hinv.access_taken hc ((MapCall.maps_iff hvalid).1 hva).2, rfl, ?_, ?_⟩
    · exact (Words.and_one_shiftLeft_ne_zero_iff (by decide) c.flags).symm
    · exact (Words.and_one_shiftLeft_ne_zero_iff (by decide) c.flags).symm
  have htaken : c.Valid → (Taken calls c.va ↔ ∃ c', (c', 0) ∈ calls ∧ c'.Maps c.va) := by
    intro hc
    refine exists_congr fun c' => and_congr_right fun hc' => ?_
    rw [MapCall.maps_iff (hinv.mapped hc').1, and_iff_right hc.1.below]
    exact eq_comm
  have hsame : ∀ {σ' a'}, SpaceInv pml4.toNat σ' a' calls → WritesOwn pml4.toNat σ.mem a σ'.mem →
      ∀ va, addressSpaceTranslateUser σ'.mem pml4 va = addressSpaceTranslateUser σ.mem pml4 va ∧
        access σ'.mem pml4 va = access σ.mem pml4 va := by
    intro σ' a' hinv' hw va
    refine ⟨Option.ext fun x => ?_, hinv.access_eq hinv' hw va⟩
    rw [hinv.translate_iff, hinv'.translate_iff]
  obtain ⟨σ', a', hinv', hw, ⟨heq, hno⟩ | ⟨heq, hvalid, htake⟩ | ⟨hvalid, hno, t, -, -, -, heq⟩⟩ :=
    hinv.call c
  · rw [heq]
    exact ⟨iff_of_false (show ¬ (-1 : ℤ) = -2 by decide) fun hc => hno ⟨hc.1, (htaken hc.1).2 hc.2⟩,
      fun _ => hsame hinv' hw⟩
  · rw [heq]
    exact ⟨iff_of_true rfl ⟨hvalid, (htaken hvalid).1 htake⟩, fun _ => hsame hinv' hw⟩
  · rw [heq]
    exact ⟨iff_of_false (show ¬ (0 : ℤ) = -2 by decide) fun hc => hno ((htaken hvalid).2 hc.2),
      fun h0 => absurd rfl h0⟩

theorem addressSpaceCreate_fst {page : U64} (h : (pmmAllocPage bootstrapLimit σ.pmm).1 = page)
    (hne : page ≠ 0) : (addressSpaceCreate σ cr3).1 = some page := by
  rw [addressSpaceCreate_fst_eq, h, if_neg hne]

theorem addressSpaceCreate_pmm (σ : Phys) (cr3 : U64) :
    (addressSpaceCreate σ cr3).2.pmm = (pmmAllocPage bootstrapLimit σ.pmm).2 := by
  rw [addressSpaceCreate]
  dsimp only
  split_ifs
  · rfl
  · rfl

/-- The pages that are left after an address space has been made in page 512. -/
theorem emptySpace_free :
    freeSet bootstrapLimit (addressSpaceCreate emptyPhys 0x1000).2.pmm =
      highPages.free.erase 512 := by
  have hr := (highPmm_refines.allocPage_eq (mem_highPages_free.2 (by omega))
    fun _ hq => (mem_highPages_free.1 hq).1).2
  rw [addressSpaceCreate_pmm, show emptyPhys.pmm = highPmm from rfl, hr.freeSet_eq]
  exact PageSets.free_take highPages 512

theorem emptySpace_run : SpaceRun 0x1000 0x200000 (addressSpaceCreate emptyPhys 0x1000).2 [] := by
  refine SpaceRun.create highPmm_refines (fun p f hf => ?_)
    (addressSpaceCreate_fst highPmm_alloc (by decide))
  rw [(emptyPhys_tables hf).2, mem_highPages_free]
  decide

/-- Page 300000h at the start of the user part, writable and not executable. -/
def sampleCall : MapCall := ⟨0x8000000000, 0x300000, vmmWritable ||| vmmNx⟩

/-- The page is mapped, and found taken by a second call. -/
theorem emptySpace_is_finite_map :
    let σ := (addressSpaceCreate emptyPhys 0x1000).2
    let r := addressSpaceMapUser σ 0x200000 sampleCall.va sampleCall.pa sampleCall.flags
    SpaceRun 0x1000 0x200000 r.2 [(sampleCall, r.1)] ∧ r.1 = 0 ∧
      addressSpaceTranslateUser r.2.mem 0x200000 0x8000000123 = some 0x300123 ∧
      (addressSpaceMapUser r.2 0x200000 0x8000000000 0x400000 0).1 = -2 := by
  have hvalid : sampleCall.Valid := ⟨⟨by decide, by decide, by decide⟩, by decide⟩
  have hok : (addressSpaceMapUser (addressSpaceCreate emptyPhys 0x1000).2 0x200000 sampleCall.va
      sampleCall.pa sampleCall.flags).1 = 0 := by
    obtain ⟨a, hinv⟩ := emptySpace_run.inv
    have hfree := hinv.tree.refines.freeSet_eq.symm.trans emptySpace_free
    refine hinv.map_of_room hvalid (fun htaken => ?_) ?_ ?_
    · obtain ⟨c, hc, -⟩ := htaken
      exact absurd hc (by simp)
    · rw [hfree, Finset.mem_erase, mem_highPages_free]
      omega
    · rw [hfree]
      calc 3 = ({513, 514, 515} : Finset ℕ).card := rfl
        _ ≤ _ := Finset.card_le_card fun c hc => by
          simp only [Finset.mem_insert, Finset.mem_singleton] at hc
          rw [Finset.mem_erase, mem_highPages_free]
          omega
  have hrun := SpaceRun.map sampleCall emptySpace_run (by decide)
  obtain ⟨htranslate, -, hcalls⟩ := user_space_is_finite_map hrun
  have hmem : (sampleCall, (0 : ℤ)) ∈ [(sampleCall, (addressSpaceMapUser
      (addressSpaceCreate emptyPhys 0x1000).2 0x200000 sampleCall.va sampleCall.pa
      sampleCall.flags).1)] := by
    rw [hok]
    exact List.mem_singleton_self _
  exact ⟨hrun, hok, (htranslate _ _).2 ⟨sampleCall, hmem, rfl, rfl⟩,
    (hcalls ⟨0x8000000000, 0x400000, 0⟩).1.2
      ⟨⟨⟨by decide, by decide, by decide⟩, by decide⟩, sampleCall, hmem, rfl⟩⟩

end SuiraBox.Mm
