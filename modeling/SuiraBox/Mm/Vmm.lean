/-
# The kernel's own mappings

`kernel/mm/vmm.c`: `vmm_map_page`, `vmm_unmap_page` and `vmm_translate` on the
static PML4.  `ensure_table` and the index helpers are, statement for statement,
those of `kernel/mm/address_space.c`, so their models are shared; the serial
output on the way is left out.

On tables that form a tree the three functions agree with each other: a page that
has been mapped translates to its frame, every other address translates as
before, unmapping gives the frame back and undoes the mapping, and a call that
fails has changed no translation, even when it has made tables.  Calls keep the
tree, so this holds along every run.
-/

import SuiraBox.Library.Runs
import SuiraBox.Mm.PageTree

namespace SuiraBox.Mm

open ByteMem Forest Runs

/-- `PAGE_MASK`. -/
def vmmPageMask : U64 := ~~~(4096 - 1)

/-- `vmm_map_page`, with its return value. -/
def vmmMapPage (σ : Phys) (pml4 va pa flags : U64) : ℤ × Phys :=
  if va &&& ~~~vmmPageMask ≠ 0 ∨ pa &&& ~~~vmmPageMask ≠ 0 then (-1, σ)
  else
    let (pdptTable, σ) := ensureTable σ pml4 (pml4Index va) flags
    if pdptTable = 0 then (-1, σ)
    else
      let (pdTable, σ) := ensureTable σ pdptTable (pdptIndex va) flags
      if pdTable = 0 then (-1, σ)
      else
        let (ptTable, σ) := ensureTable σ pdTable (pdIndex va) flags
        if ptTable = 0 then (-1, σ)
        else if slot σ.mem ptTable.toNat (ptIndex va) &&& vmmPresent ≠ 0 then (-2, σ)
        else (0, { σ with
          mem := setSlot σ.mem ptTable.toNat (ptIndex va)
            ((pa &&& entryAddrMask) ||| vmmPresent |||
              (flags &&& (vmmWritable ||| vmmUser ||| vmmNx))) })

/-- `vmm_unmap_page`: what it stores through `physical_address` when it returns
`0`, and `none` for `-1`. -/
def vmmUnmapPage (σ : Phys) (pml4 va : U64) : Option U64 × Phys :=
  if va &&& ~~~vmmPageMask ≠ 0 then (none, σ)
  else
    let e4 := slot σ.mem pml4.toNat (pml4Index va)
    if e4 &&& vmmPresent = 0 ∨ e4 &&& entryLarge ≠ 0 then (none, σ)
    else
      let pdptTable := tableFromEntry e4
      let e3 := slot σ.mem pdptTable.toNat (pdptIndex va)
      if e3 &&& vmmPresent = 0 ∨ e3 &&& entryLarge ≠ 0 then (none, σ)
      else
        let pdTable := tableFromEntry e3
        let e2 := slot σ.mem pdTable.toNat (pdIndex va)
        if e2 &&& vmmPresent = 0 ∨ e2 &&& entryLarge ≠ 0 then (none, σ)
        else
          let ptTable := tableFromEntry e2
          let entry := slot σ.mem ptTable.toNat (ptIndex va)
          if entry &&& vmmPresent = 0 then (none, σ)
          else (some (entry &&& entryAddrMask),
            { σ with mem := setSlot σ.mem ptTable.toNat (ptIndex va) 0 })

/-- `vmm_translate`: `0` when the address is not mapped. -/
def vmmTranslate (m : Mem) (pml4 va : U64) : U64 :=
  let e4 := slot m pml4.toNat (pml4Index va)
  if e4 &&& vmmPresent = 0 then 0
  else
    let e3 := slot m (tableFromEntry e4).toNat (pdptIndex va)
    if e3 &&& vmmPresent = 0 then 0
    else if e3 &&& entryLarge ≠ 0 then (e3 &&& 0x000FFFFFC0000000) ||| (va &&& 0x3FFFFFFF)
    else
      let e2 := slot m (tableFromEntry e3).toNat (pdIndex va)
      if e2 &&& vmmPresent = 0 then 0
      else if e2 &&& entryLarge ≠ 0 then (e2 &&& 0x000FFFFFFFE00000) ||| (va &&& 0x1FFFFF)
      else
        let e1 := slot m (tableFromEntry e2).toNat (ptIndex va)
        if e1 &&& vmmPresent = 0 then 0
        else (e1 &&& entryAddrMask) ||| (va &&& 0xFFF)

/-- A call that changes the kernel's tables. -/
inductive VmmCall
  | map (va pa flags : U64)
  | unmap (va : U64)

/-- One call, with the value that `vmm_map_page` returns or the frame that
`vmm_unmap_page` gives back. -/
def vmmStep (pml4 : U64) (σ : Phys) : VmmCall → (ℤ ⊕ Option U64) × Phys
  | .map va pa flags => ((vmmMapPage σ pml4 va pa flags).map Sum.inl id)
  | .unmap va => ((vmmUnmapPage σ pml4 va).map Sum.inr id)

/-- The kernel's tables form a tree, and none of them is a free page. -/
def KernelTree (pml4 : U64) (σ : Phys) : Prop := ∃ a, Tree allTables pml4.toNat σ a

variable {S : TablePaths} {σ σ' : Phys} {a a' : PageSets} {p q : List ℕ} {t i : ℕ} {m m' : Mem}
  {pml4 va pa flags : U64}

/-! ### The functions on their tables -/

/-- The leaf entry of `vmm_map_page`. -/
def vmmLeaf (pa flags : U64) : U64 :=
  (pa &&& entryAddrMask) ||| vmmPresent ||| (flags &&& (vmmWritable ||| vmmUser ||| vmmNx))

/-- The leaf entry leads to its page and is present. -/
theorem vmmLeaf_spec (flags : U64) (halign : pa.toNat % 4096 = 0) (hsmall : pa.toNat < 2 ^ 52) :
    tableFromEntry (vmmLeaf pa flags) = pa ∧ (vmmLeaf pa flags).getLsbD 0 = true := by
  obtain ⟨htarget, hbits⟩ :=
    entry_spec pa flags vmmPresent (vmmWritable ||| vmmUser ||| vmmNx) halign
    hsmall (by decide) (by decide)
  refine ⟨htarget, (hbits 0 (by decide)).trans ?_⟩
  rw [show vmmPresent.getLsbD 0 = true from by decide, Bool.true_or]

/-- The alignment test. -/
theorem and_not_pageMask_iff (x : U64) : x &&& ~~~vmmPageMask = 0 ↔ x.toNat % 4096 = 0 := by
  rw [show ~~~vmmPageMask = 4095#64 from by decide]
  exact and_pageMask_eq_zero_iff x

/-- `vmm_map_page` is a way down and a slot, behind the alignment test. -/
theorem vmmMapPage_eq (σ : Phys) (pml4 va pa flags : U64) :
    vmmMapPage σ pml4 va pa flags =
      if va &&& ~~~vmmPageMask ≠ 0 ∨ pa &&& ~~~vmmPageMask ≠ 0 then (-1, σ)
      else mapLeaf (ptIndex va) (vmmLeaf pa flags) (ensurePath flags (tablePathOf va) pml4 σ) := by
  rw [tablePathOf, ← mapLeaf_ensurePath]
  rfl

/-- `vmm_translate` reads the physical address off the trail. -/
theorem vmmTranslate_eq (m : Mem) (pml4 va : U64) :
    vmmTranslate m pml4 va = (trail m pml4.toNat (pathOf va)).elim 0 (physicalOf va) := by
  rw [vmmTranslate, pathOf, trail_four]
  dsimp only
  generalize slot m pml4.toNat (pml4Index va) = e4
  rcases entry_cases e4 3 with h₄ | ⟨-, -, hn⟩ | ⟨h₄, hs₄⟩
  · rw [trailStep_absent h₄, if_pos ((absent_iff e4).2 h₄)]
    rfl
  · exact absurd hn (by decide)
  rw [trailStep_table h₄ hs₄, if_neg ((present_iff e4).2 h₄)]
  generalize slot m (tableFromEntry e4).toNat (pdptIndex va) = e3
  rcases entry_cases e3 2 with h₃ | ⟨h₃, hl₃, hn⟩ | ⟨h₃, hs₃⟩
  · rw [trailStep_absent h₃, if_pos ((absent_iff e3).2 h₃)]
    rfl
  · rw [trailStep_large h₃ hl₃ hn, if_neg ((present_iff e3).2 h₃), if_pos ((large_iff e3).2 hl₃)]
    rfl
  have hs₃ : e3.getLsbD 7 = false := Bool.eq_false_iff.2 fun hl => hs₃ hl (Or.inr rfl)
  rw [trailStep_table h₃ fun hl => absurd (hs₃.symm.trans hl) (by simp),
    if_neg ((present_iff e3).2 h₃), if_neg (not_not.2 ((small_iff e3).2 hs₃))]
  generalize slot m (tableFromEntry e3).toNat (pdIndex va) = e2
  rcases entry_cases e2 1 with h₂ | ⟨h₂, hl₂, hn⟩ | ⟨h₂, hs₂⟩
  · rw [trailStep_absent h₂, if_pos ((absent_iff e2).2 h₂)]
    rfl
  · rw [trailStep_large h₂ hl₂ hn, if_neg ((present_iff e2).2 h₂), if_pos ((large_iff e2).2 hl₂)]
    rfl
  have hs₂ : e2.getLsbD 7 = false := Bool.eq_false_iff.2 fun hl => hs₂ hl (Or.inl rfl)
  rw [trailStep_table h₂ fun hl => absurd (hs₂.symm.trans hl) (by simp),
    if_neg ((present_iff e2).2 h₂), if_neg (not_not.2 ((small_iff e2).2 hs₂))]
  generalize slot m (tableFromEntry e2).toNat (ptIndex va) = e1
  rcases entry_cases e1 0 with h₁ | ⟨-, -, hn⟩ | ⟨h₁, hs₁⟩
  · rw [trailStep_absent h₁, if_pos ((absent_iff e1).2 h₁)]
    rfl
  · exact absurd hn (by decide)
  · rw [trailStep_table h₁ hs₁, if_neg ((present_iff e1).2 h₁)]
    rfl

/-- The table below an entry that is present and no large page. -/
def smallTable (m : Mem) (t i : ℕ) : Option ℕ :=
  if slot m t i &&& vmmPresent = 0 ∨ slot m t i &&& entryLarge ≠ 0 then none
  else some (tableFromEntry (slot m t i)).toNat

theorem smallTable_eq_some {f : ℕ} : smallTable m t i = some f ↔
    (slot m t i).getLsbD 0 = true ∧ (slot m t i).getLsbD 7 = false ∧
      (tableFromEntry (slot m t i)).toNat = f := by
  rw [smallTable, ← small_iff, ← present_iff]
  split_ifs with h
  · refine iff_of_false (by simp) fun hc => ?_
    exact h.elim hc.1 fun hl => hl hc.2.1
  · rw [not_or, not_not] at h
    rw [Option.some.injEq]
    exact ⟨fun hf => ⟨h.1, h.2, hf⟩, fun hf => hf.2.2⟩

/-- `vmm_unmap_page` goes down to the last table and clears the leaf. -/
theorem vmmUnmapPage_eq (σ : Phys) (pml4 va : U64) :
    vmmUnmapPage σ pml4 va =
      if va &&& ~~~vmmPageMask ≠ 0 then (none, σ)
      else match walk (smallTable σ.mem) pml4.toNat (tablePathOf va) with
        | none => (none, σ)
        | some t =>
          if slot σ.mem t (ptIndex va) &&& vmmPresent = 0 then (none, σ)
          else (some (slot σ.mem t (ptIndex va) &&& entryAddrMask),
            { σ with mem := setSlot σ.mem t (ptIndex va) 0 }) := by
  rw [vmmUnmapPage]
  refine if_congr Iff.rfl rfl ?_
  dsimp only
  rw [tablePathOf, walk, smallTable]
  generalize slot σ.mem pml4.toNat (pml4Index va) = e4
  by_cases h₄ : e4 &&& vmmPresent = 0 ∨ e4 &&& entryLarge ≠ 0
  · rw [if_pos h₄, if_pos h₄]
    rfl
  rw [if_neg h₄, if_neg h₄, Option.bind_some, walk, smallTable]
  generalize slot σ.mem (tableFromEntry e4).toNat (pdptIndex va) = e3
  by_cases h₃ : e3 &&& vmmPresent = 0 ∨ e3 &&& entryLarge ≠ 0
  · rw [if_pos h₃, if_pos h₃]
    rfl
  rw [if_neg h₃, if_neg h₃, Option.bind_some, walk, smallTable]
  generalize slot σ.mem (tableFromEntry e3).toNat (pdIndex va) = e2
  by_cases h₂ : e2 &&& vmmPresent = 0 ∨ e2 &&& entryLarge ≠ 0
  · rw [if_pos h₂, if_pos h₂]
    rfl
  rw [if_neg h₂, if_neg h₂]
  rfl

/-- The entries on the way are there, and none is a large page. -/
def SmallWay (root : ℕ) (m : Mem) (path : List ℕ) : Prop :=
  ∀ p j, OnWay [] path p j →
    (entries root m p j).getLsbD 0 = true ∧ (entries root m p j).getLsbD 7 = false

/-- That is the way of `vmm_unmap_page`. -/
theorem walk_smallTable_iff {root f : ℕ} (hp : S.path p) :
    walk (smallTable m) root p = some f ↔ HasTable S root m p f ∧ SmallWay root m p := by
  induction p using List.reverseRecOn generalizing f with
  | nil =>
    rw [hasTable_nil, walk, Option.some.injEq]
    exact ⟨fun h => ⟨h.symm, fun _ _ hon => hon.elim⟩, fun h => h.1.symm⟩
  | append_singleton p j ih =>
    have hstep : walk (smallTable m) root (p ++ [j]) = some f ↔
        ∃ t, walk (smallTable m) root p = some t ∧ smallTable m t j = some f := by
      rw [walk_append, Option.bind_eq_some_iff]
      simp only [walk, Option.bind_fun_some]
    rw [hstep, hasTable_concat]
    constructor
    · rintro ⟨t, ht, hf⟩
      obtain ⟨htable, hway⟩ := (ih (S.closed hp)).1 ht
      obtain ⟨hpresent, hsmall, htarget⟩ := smallTable_eq_some.1 hf
      refine ⟨⟨hp, t, htable, subTarget_eq_some.2 ⟨hpresent, Or.inr hsmall, htarget⟩⟩,
        fun q k hon => ?_⟩
      rcases onWay_concat.1 hon with hon | ⟨rfl, rfl⟩
      · exact hway q k hon
      · rw [htable.entries_eq]
        exact ⟨hpresent, hsmall⟩
    · rintro ⟨⟨-, t, ht, hf⟩, hway⟩
      refine ⟨t, (ih (S.closed hp)).2 ⟨ht, fun q k hon => hway q k (onWay_concat.2 (Or.inl hon))⟩,
        ?_⟩
      have hlast := hway p j (onWay_concat.2 (Or.inr ⟨rfl, rfl⟩))
      rw [ht.entries_eq] at hlast
      exact smallTable_eq_some.2 ⟨hlast.1, hlast.2, (subTarget_eq_some.1 hf).2.2⟩

/-- The trail of a page whose tables are there ends in its leaf. -/
theorem SmallWay.trail_eq {root : ℕ} (h : SmallWay root m (tablePathOf va))
    (hp : S.path (tablePathOf va)) :
    ((entries root m (tablePathOf va) (ptIndex va)).getLsbD 0 = false →
      trail m root (pathOf va) = none) ∧
    ((entries root m (tablePathOf va) (ptIndex va)).getLsbD 0 = true → ∃ l, l.length = 3 ∧
      trail m root (pathOf va) = some (l ++ [entries root m (tablePathOf va) (ptIndex va)])) := by
  have htrail : trail m root (pathOf va) = trailOf (entries root m) (pathOf va) :=
    HasTable.trail_eq (S := S) (p := []) (hasTable_nil.2 rfl) rfl hp
  obtain ⟨h₄, hs₄⟩ := h _ _ (onWay_tablePathOf.2 (Or.inl ⟨rfl, rfl⟩))
  obtain ⟨h₃, hs₃⟩ := h _ _ (onWay_tablePathOf.2 (Or.inr (Or.inl ⟨rfl, rfl⟩)))
  obtain ⟨h₂, hs₂⟩ := h _ _ (onWay_tablePathOf.2 (Or.inr (Or.inr ⟨rfl, rfl⟩)))
  rw [htrail, pathOf, tablePathOf]
  constructor
  · intro h₁
    rw [trailOf, trailStep_table h₄ fun hl => absurd (hs₄.symm.trans hl) (by simp), trailOf,
      trailStep_table h₃ fun hl => absurd (hs₃.symm.trans hl) (by simp), trailOf,
      trailStep_table h₂ fun hl => absurd (hs₂.symm.trans hl) (by simp), trailOf,
      trailStep_absent h₁]
    rfl
  · intro h₁
    exact ⟨[_, _, _], rfl, trailOf_full h₄ h₃ hs₃ h₂ hs₂ h₁⟩

/-- **Writing a leaf** keeps the tree and its tables, and changes the trail of the
leaf's page only. -/
theorem Tree.setLeaf {root : ℕ} (h : Tree S root σ a)
    (ht : HasTable S root σ.mem (tablePathOf va) t) (hway : SmallWay root σ.mem (tablePathOf va))
    (e : U64) :
    Tree S root { σ with mem := setSlot σ.mem t (ptIndex va) e } a ∧
    HasTable S root (setSlot σ.mem t (ptIndex va) e) (tablePathOf va) t ∧
    SmallWay root (setSlot σ.mem t (ptIndex va) e) (tablePathOf va) ∧
    (∀ x : U64, S.path (tablePathOf x) → pathOf x ≠ pathOf va →
      trail (setSlot σ.mem t (ptIndex va) e) root (pathOf x) = trail σ.mem root (pathOf x)) ∧
    entries root (setSlot σ.mem t (ptIndex va) e) (tablePathOf va) (ptIndex va) = e := by
  have hi : ptIndex va < 512 := index_lt ..
  have hlong : ¬ S.path (tablePathOf va ++ [ptIndex va]) :=
    fun hp => absurd (S.short hp) (by simp [tablePathOf])
  obtain ⟨htree, hsame, hset⟩ := h.set ht hi (e := e) fun hp => absurd hp hlong
  refine ⟨htree, (hsame _ _).2 ht, fun p j hon => ?_, fun x hx hne => ?_,
    (hset ht.path hi).1 ⟨rfl, rfl⟩⟩
  · have hslot := hon.path (S := S) ht.path
    rw [(hset (S.closed hslot) (S.lt hslot)).2]
    · exact hway p j hon
    · rintro ⟨rfl, rfl⟩
      exact hlong hslot
  · exact hset.trail_of_ne rfl hx (pathOf_lt x) rfl hne

/-- An entry that has been raised leads to a table. -/
theorem Raised.small {e e' : U64} (h : Raised flags e e') :
    e'.getLsbD 0 = true ∧ e'.getLsbD 7 = false := by
  cases h with
  | there hpresent hsmall =>
    rw [(raise_bits flags e).2, (raise_bits flags e).2, hpresent, hsmall]
    simp
  | new _ halign hbound _ =>
    obtain ⟨-, hpresent, hsmall, -⟩ := tableEntry_spec flags halign hbound
    exact ⟨hpresent, hsmall⟩

/-- `vmm_map_page` has come to the last table of the page, and finds its slot
empty. -/
structure AtLeaf (S : TablePaths) (root : ℕ) (m : Mem) (va : U64) (t : ℕ) : Prop where
  table : HasTable S root m (tablePathOf va) t
  way : SmallWay root m (tablePathOf va)
  empty : (slot m t (ptIndex va)).getLsbD 0 = false

/-- **`vmm_map_page` on a tree**: it goes its way, which keeps every trail, and then
fails or sets the leaf. -/
theorem vmmMapPage_cases (h : Tree S pml4.toNat σ a) (hp : S.path (tablePathOf va))
    (pa flags : U64) : ∃ σ' a', Tree S pml4.toNat σ' a' ∧ Raises S pml4.toNat flags σ.mem σ'.mem ∧
      ((∃ rc : ℤ, rc ≠ 0 ∧ vmmMapPage σ pml4 va pa flags = (rc, σ')) ∨
      va.toNat % 4096 = 0 ∧ pa.toNat % 4096 = 0 ∧ ∃ t, AtLeaf S pml4.toNat σ'.mem va t ∧
        vmmMapPage σ pml4 va pa flags =
          (0, { σ' with mem := setSlot σ'.mem t (ptIndex va) (vmmLeaf pa flags) })) := by
  rw [vmmMapPage_eq]
  rcases Decidable.em (va &&& ~~~vmmPageMask ≠ 0 ∨ pa &&& ~~~vmmPageMask ≠ 0) with hbad | hok
  · rw [if_pos hbad]
    exact ⟨σ, a, h, Raises.refl .., Or.inl ⟨-1, by decide, rfl⟩⟩
  rw [if_neg hok]
  rw [not_or, not_not, not_not, and_not_pageMask_iff, and_not_pageMask_iff] at hok
  obtain ⟨a', hw⟩ :=
    ensurePath_way (q := []) h (hasTable_nil.2 rfl) (Or.inl (List.cons_ne_nil _ _)) hp
    flags
  change Way S pml4.toNat flags σ a [] (tablePathOf va)
    (ensurePath flags (tablePathOf va) pml4 σ) a' at hw
  generalize ensurePath flags (tablePathOf va) pml4 σ = r at hw ⊢
  refine ⟨r.2, a', hw.tree, hw.raises (S.short hp), ?_⟩
  unfold mapLeaf
  split_ifs with hzero hpresent
  · exact Or.inl ⟨-1, by decide, rfl⟩
  · exact Or.inl ⟨-2, by decide, rfl⟩
  · obtain ⟨htable, hraised⟩ := hw.arrived hzero
    rw [present_iff, Bool.not_eq_true] at hpresent
    exact Or.inr ⟨hok.1, hok.2, r.1.toNat, ⟨htable, fun p j hon => (hraised hon).small, hpresent⟩,
      rfl⟩

/-- `vmm_map_page` can map the page: both addresses are those of pages, and the leaf can be
taken. -/
def CanMap (pml4 : U64) (σ : Phys) (va pa : U64) : Prop :=
  va.toNat % 4096 = 0 ∧ pa.toNat % 4096 = 0 ∧
    Mappable σ.mem (freeSet bootstrapLimit σ.pmm) (ptIndex va) pml4.toNat (tablePathOf va)

/-- The alignment tests in front of the way down. -/
theorem canMap_iff
    (h : (mapLeaf (ptIndex va) (vmmLeaf pa flags) (ensurePath flags (tablePathOf va) pml4 σ)).1 =
      0 ↔ Mappable σ.mem (freeSet bootstrapLimit σ.pmm) (ptIndex va) pml4.toNat (tablePathOf va)) :
    (vmmMapPage σ pml4 va pa flags).1 = 0 ↔ CanMap pml4 σ va pa := by
  rw [vmmMapPage_eq, CanMap, ← h, ← and_not_pageMask_iff va, ← and_not_pageMask_iff pa]
  split_ifs with hbad
  · refine iff_of_false (by decide : (-1 : ℤ) ≠ 0) fun hc => ?_
    exact hbad.elim (fun hva => hva hc.1) fun hpa => hpa hc.2.1
  · rw [not_or, not_not, not_not] at hbad
    rw [and_iff_right hbad.1, and_iff_right hbad.2]

/-- **When `vmm_map_page` succeeds.** -/
theorem vmmMapPage_eq_zero_iff (h : Tree S pml4.toNat σ a) (hp : S.path (tablePathOf va))
    (pa flags : U64) : (vmmMapPage σ pml4 va pa flags).1 = 0 ↔ CanMap pml4 σ va pa :=
  canMap_iff (mapLeaf_eq_zero_iff (q := []) h (hasTable_nil.2 rfl)
    (Or.inl (List.cons_ne_nil _ _)) hp (index_lt ..) flags _)

/-- `vmm_unmap_page` can unmap the page: the address is that of a page, the tables are there and
none of them is a large page, and the leaf is there. -/
def CanUnmap (pml4 : U64) (σ : Phys) (va : U64) : Prop :=
  va.toNat % 4096 = 0 ∧ ∃ t, walk (smallTable σ.mem) pml4.toNat (tablePathOf va) = some t ∧
    slot σ.mem t (ptIndex va) &&& vmmPresent ≠ 0

/-- **When `vmm_unmap_page` succeeds.** -/
theorem vmmUnmapPage_ne_none_iff (σ : Phys) (pml4 va : U64) :
    (vmmUnmapPage σ pml4 va).1 ≠ none ↔ CanUnmap pml4 σ va := by
  rw [vmmUnmapPage_eq, CanUnmap, ← and_not_pageMask_iff]
  split_ifs with hbad
  · exact iff_of_false (fun h => h rfl) fun hc => hbad hc.1
  rw [and_iff_right (not_not.1 hbad)]
  cases walk (smallTable σ.mem) pml4.toNat (tablePathOf va) with
  | none => exact iff_of_false (fun h => h rfl) (by simp)
  | some t =>
    dsimp only
    split_ifs with hpresent
    · refine iff_of_false (fun h => h rfl) ?_
      rintro ⟨t', ht, hthere⟩
      obtain rfl := Option.some.inj ht
      exact hthere hpresent
    · exact iff_of_true (by simp) ⟨t, rfl, hpresent⟩

/-- **`vmm_unmap_page` on a tree**: it does nothing, or clears the leaf of a page
that is mapped. -/
theorem vmmUnmapPage_cases (σ : Phys) (pml4 : U64) (hp : S.path (tablePathOf va)) :
    vmmUnmapPage σ pml4 va = (none, σ) ∨
    va.toNat % 4096 = 0 ∧ ∃ t, HasTable S pml4.toNat σ.mem (tablePathOf va) t ∧
      SmallWay pml4.toNat σ.mem (tablePathOf va) ∧
      (slot σ.mem t (ptIndex va)).getLsbD 0 = true ∧
      vmmUnmapPage σ pml4 va = (some (slot σ.mem t (ptIndex va) &&& entryAddrMask),
        { σ with mem := setSlot σ.mem t (ptIndex va) 0 }) := by
  rw [vmmUnmapPage_eq]
  split_ifs with halign
  · exact Or.inl rfl
  rw [not_not, and_not_pageMask_iff] at halign
  rcases hw : walk (smallTable σ.mem) pml4.toNat (tablePathOf va) with _ | t
  · exact Or.inl rfl
  dsimp only
  obtain ⟨ht, hway⟩ := (walk_smallTable_iff hp).1 hw
  split_ifs with hpresent
  · exact Or.inl rfl
  · rw [absent_iff, Bool.not_eq_false] at hpresent
    exact Or.inr ⟨halign, t, ht, hway, hpresent, rfl⟩

/-- A mapped page is unmapped. -/
theorem vmmUnmapPage_leaf (ht : HasTable S pml4.toNat σ.mem (tablePathOf va) t)
    (hway : SmallWay pml4.toNat σ.mem (tablePathOf va)) (halign : va.toNat % 4096 = 0)
    (hpresent : (slot σ.mem t (ptIndex va)).getLsbD 0 = true) :
    vmmUnmapPage σ pml4 va = (some (tableFromEntry (slot σ.mem t (ptIndex va))),
      { σ with mem := setSlot σ.mem t (ptIndex va) 0 }) := by
  rw [vmmUnmapPage_eq, if_neg (not_not.2 ((and_not_pageMask_iff va).2 halign)),
    (walk_smallTable_iff ht.path).2 ⟨ht, hway⟩]
  exact if_neg ((present_iff _).2 hpresent)

/-! ### Agreement -/

/-- The tables of every address count. -/
theorem allTables_tablePathOf (va : U64) : allTables.path (tablePathOf va) :=
  ⟨le_rfl, fun i hi => pathOf_lt va i (List.mem_append_left _ hi)⟩

/-- Raising keeps every translation. -/
theorem Raises.vmmTranslate_eq (h : Raises S pml4.toNat flags m m') {x : U64}
    (hx : S.path (tablePathOf x)) : vmmTranslate m' pml4 x = vmmTranslate m pml4 x := by
  have hrel : Option.Rel (Raise flags) (trail m pml4.toNat (pathOf x))
      (trail m' pml4.toNat (pathOf x)) := h.trail_rel rfl hx (pathOf_lt x)
  rw [Mm.vmmTranslate_eq, Mm.vmmTranslate_eq]
  generalize trail m pml4.toNat (pathOf x) = o at hrel ⊢
  generalize trail m' pml4.toNat (pathOf x) = o' at hrel ⊢
  cases hrel with
  | none => rfl
  | some h => exact h.physicalOf_eq x

/-- The pages of the 48 bits that are translated. -/
theorem pathOf_eq_iff_bits {va va' : U64} : pathOf va = pathOf va' ↔
    va.toNat / 4096 % 2 ^ 36 = va'.toNat / 4096 % 2 ^ 36 := by
  simp only [pathOf, pml4Index, pdptIndex, pdIndex, ptIndex, toNat_index, List.cons.injEq, and_true]
  omega

/-- The addresses of a page. -/
theorem pathOf_add {k : ℕ} (halign : va.toNat % 4096 = 0) (hk : k < 4096) :
    pathOf (va + BitVec.ofNat 64 k) = pathOf va ∧
      (va + BitVec.ofNat 64 k).toNat % 4096 = k := by
  have hlt := va.isLt
  have hadd : (va + BitVec.ofNat 64 k).toNat = va.toNat + k := by
    rw [BitVec.toNat_add, BitVec.toNat_ofNat]
    omega
  rw [pathOf_eq_iff_bits, hadd]
  omega

/-- The physical address behind a leaf. -/
theorem physicalOf_leaf (va e : U64) {l : List U64} (hl : l.length = 3) :
    physicalOf va (l ++ [e]) = (e &&& entryAddrMask) ||| (va &&& 0xFFF) := by
  obtain ⟨e₄, e₃, e₂, rfl⟩ := List.length_eq_three.1 hl
  rfl

/-- Where `vmm_map_page` finds an empty slot, nothing was mapped. -/
theorem AtLeaf.trail_none {root : ℕ} (h : AtLeaf S root m va t) :
    trail m root (pathOf va) = none := by
  refine (h.way.trail_eq h.table.path).1 ?_
  rw [h.table.entries_eq]
  exact h.empty

/-- **A page that has been mapped** translates to its frame, and no other address
is translated differently; unmapping it gives the frame back, and every address
is translated as before. -/
theorem AtLeaf.mapped (h : Tree S pml4.toNat σ a) (hat : AtLeaf S pml4.toNat σ.mem va t)
    (halign : va.toNat % 4096 = 0) (hpa : pa.toNat % 4096 = 0) (hsmall : pa.toNat < 2 ^ 52)
    (flags : U64) :
    let σ' := { σ with mem := setSlot σ.mem t (ptIndex va) (vmmLeaf pa flags) }
    (∀ k < 4096, vmmTranslate σ'.mem pml4 (va + BitVec.ofNat 64 k) = pa + BitVec.ofNat 64 k) ∧
    (∀ x, S.path (tablePathOf x) → pathOf x ≠ pathOf va →
      vmmTranslate σ'.mem pml4 x = vmmTranslate σ.mem pml4 x) ∧
    (vmmUnmapPage σ' pml4 va).1 = some pa ∧
    ∀ x, S.path (tablePathOf x) →
      vmmTranslate (vmmUnmapPage σ' pml4 va).2.mem pml4 x = vmmTranslate σ.mem pml4 x := by
  intro σ'
  obtain ⟨htarget, hpresent⟩ := vmmLeaf_spec flags hpa hsmall
  obtain ⟨htree, htable, hway, hother, hentry⟩ := h.setLeaf hat.table hat.way (vmmLeaf pa flags)
  obtain ⟨-, -, hway', hother', hentry'⟩ := htree.setLeaf htable hway 0
  have hslot : slot σ'.mem t (ptIndex va) = vmmLeaf pa flags := by rw [← htable.entries_eq, hentry]
  have hunmap : vmmUnmapPage σ' pml4 va =
      (some pa, { σ' with mem := setSlot σ'.mem t (ptIndex va) 0 }) := by
    rw [vmmUnmapPage_leaf (σ := σ') htable hway halign (by rw [hslot]; exact hpresent),
      hslot, htarget]
  rw [hunmap]
  refine ⟨fun k hk => ?_, fun x hx hne => ?_, rfl, fun x hx => ?_⟩
  · obtain ⟨hpath, hlow⟩ := pathOf_add halign hk
    obtain ⟨l, hl, htrail⟩ := (hway.trail_eq htable.path).2 (by rw [hentry]; exact hpresent)
    rw [vmmTranslate_eq, hpath, htrail, hentry]
    refine (physicalOf_leaf _ _ hl).trans (BitVec.eq_of_toNat_eq ?_)
    refine (toNat_physical _ _).trans ?_
    rw [htarget, hlow, BitVec.toNat_add, BitVec.toNat_ofNat]
    omega
  · rw [vmmTranslate_eq, vmmTranslate_eq, hother x hx hne]
  · rw [vmmTranslate_eq, vmmTranslate_eq]
    rcases eq_or_ne (pathOf x) (pathOf va) with heq | hne
    · rw [heq, hat.trail_none, (hway'.trail_eq htable.path).1 (by rw [hentry']; simp)]
    · rw [hother' x hx hne, hother x hx hne]

/-- Every call keeps the tree. -/
theorem vmmStep_tree (σ : Phys) (call : VmmCall) (h : KernelTree pml4 σ) :
    KernelTree pml4 (vmmStep pml4 σ call).2 := by
  obtain ⟨a, h⟩ := h
  cases call with
  | map va pa flags =>
    change KernelTree pml4 (vmmMapPage σ pml4 va pa flags).2
    obtain ⟨σ', a', h', -, ⟨rc, -, heq⟩ | ⟨-, -, t, hat, heq⟩⟩ :=
      vmmMapPage_cases h (allTables_tablePathOf va) pa flags
    · rw [heq]
      exact ⟨a', h'⟩
    · rw [heq]
      exact ⟨a', (h'.setLeaf hat.table hat.way _).1⟩
  | unmap va =>
    change KernelTree pml4 (vmmUnmapPage σ pml4 va).2
    rcases vmmUnmapPage_cases σ pml4 (allTables_tablePathOf va) with
      heq | ⟨-, t, ht, hway, -, heq⟩
    · rw [heq]
      exact ⟨a, h⟩
    · rw [heq]
      exact ⟨a, (h.setLeaf ht hway 0).1⟩

/-- **`vmm_map_page`, `vmm_unmap_page` and `vmm_translate` agree** after any calls on
tables that form a tree. -/
theorem vmm_calls_agree (h : KernelTree pml4 σ) (calls : List VmmCall) :
    let σ' := run (vmmStep pml4) σ calls
    KernelTree pml4 σ' ∧ ∀ va pa flags : U64, va.toNat % 4096 = 0 → pa.toNat % 4096 = 0 →
      pa.toNat < 2 ^ 52 →
      let r := vmmMapPage σ' pml4 va pa flags
      (r.1 = 0 →
        (∀ k < 4096, vmmTranslate r.2.mem pml4 (va + BitVec.ofNat 64 k) = pa + BitVec.ofNat 64 k) ∧
        (∀ x : U64, x.toNat / 4096 % 2 ^ 36 ≠ va.toNat / 4096 % 2 ^ 36 →
          vmmTranslate r.2.mem pml4 x = vmmTranslate σ'.mem pml4 x) ∧
        (vmmUnmapPage r.2 pml4 va).1 = some pa ∧
        ∀ x, vmmTranslate (vmmUnmapPage r.2 pml4 va).2.mem pml4 x = vmmTranslate σ'.mem pml4 x) ∧
      (r.1 ≠ 0 → ∀ x, vmmTranslate r.2.mem pml4 x = vmmTranslate σ'.mem pml4 x) := by
  intro σ'
  have hrun : KernelTree pml4 σ' := run_invariant vmmStep_tree calls h
  refine ⟨hrun, fun va pa flags halign hpa hsmall => ?_⟩
  obtain ⟨a, htree⟩ := hrun
  obtain ⟨σ₁, a₁, h₁, hraises, ⟨rc, hrc, heq⟩ | ⟨-, -, t, hat, heq⟩⟩ :=
    vmmMapPage_cases htree (allTables_tablePathOf va) pa flags
  all_goals
    have hsame : ∀ x, vmmTranslate σ₁.mem pml4 x = vmmTranslate σ'.mem pml4 x :=
      fun x => hraises.vmmTranslate_eq (allTables_tablePathOf x)
  · rw [heq]
    exact ⟨fun h0 => absurd h0 hrc, fun _ => hsame⟩
  · rw [heq]
    refine ⟨fun _ => ?_, fun h0 => absurd rfl h0⟩
    obtain ⟨hmapped, hother, hunmap, hback⟩ := hat.mapped h₁ halign hpa hsmall flags
    refine ⟨hmapped, fun x hx => ?_, hunmap, fun x => ?_⟩
    · refine (hother x (allTables_tablePathOf x) fun hpath => hx ?_).trans (hsame x)
      exact pathOf_eq_iff_bits.1 hpath
    · exact (hback x (allTables_tablePathOf x)).trans (hsame x)

/-- A page that is translated is not mapped again. -/
theorem vmmMapPage_mapped (h : Tree S pml4.toNat σ a) (hp : S.path (tablePathOf va))
    (hmapped : vmmTranslate σ.mem pml4 va ≠ 0) (pa flags : U64) :
    (vmmMapPage σ pml4 va pa flags).1 ≠ 0 := by
  obtain ⟨σ', a', -, hraises, ⟨rc, hrc, heq⟩ | ⟨-, -, t, hat, heq⟩⟩ :=
    vmmMapPage_cases h hp pa flags
  · rw [heq]
    exact hrc
  · rw [← hraises.vmmTranslate_eq hp, vmmTranslate_eq, hat.trail_none] at hmapped
    exact absurd rfl hmapped

/-- In empty tables, with three pages to take, every page can be mapped. -/
theorem emptyPhys_canMap {va pa : U64} (hva : va.toNat % 4096 = 0) (hpa : pa.toNat % 4096 = 0) :
    CanMap 0x1000 emptyPhys va pa := by
  refine ⟨hva, hpa, (mappable_empty (fun _ => read64_eq_zero fun _ _ _ => rfl) (index_lt ..)
    (allTables.lt_of_mem (p := []) (allTables_tablePathOf va))).2 (Or.inr ?_)⟩
  rw [show emptyPhys.pmm = highPmm from rfl, highPmm_refines.freeSet_eq]
  refine ⟨fun hzero => absurd (mem_highPages_free.1 hzero).1 (by decide), ?_⟩
  calc (tablePathOf va).length = ({512, 513, 514} : Finset ℕ).card := rfl
    _ ≤ highPages.free.card := Finset.card_le_card fun c hc => by
      simp only [Finset.mem_insert, Finset.mem_singleton] at hc
      rw [mem_highPages_free]
      omega

/-- A page is mapped, and a second time it is refused. -/
theorem emptyPhys_calls_agree :
    let r := vmmMapPage emptyPhys 0x1000 0x200000 0x6000 3
    let r' := vmmMapPage r.2 0x1000 0x200000 0x7000 3
    KernelTree 0x1000 emptyPhys ∧ r.1 = 0 ∧ vmmTranslate r.2.mem 0x1000 0x200000 = 0x6000 ∧
      (vmmUnmapPage r.2 0x1000 0x200000).1 = some 0x6000 ∧ r'.1 ≠ 0 ∧
      vmmTranslate r'.2.mem 0x1000 0x200000 = 0x6000 := by
  have htree : KernelTree 0x1000 emptyPhys := ⟨highPages, emptyPhys_tree⟩
  have hok := (vmmMapPage_eq_zero_iff emptyPhys_tree (allTables_tablePathOf 0x200000) 0x6000 3).2
    (emptyPhys_canMap rfl rfl)
  obtain ⟨hmapped, -, hunmap, -⟩ :=
    ((vmm_calls_agree htree []).2 0x200000 0x6000 3 rfl rfl (by decide)).1 hok
  have hthere : vmmTranslate (vmmMapPage emptyPhys 0x1000 0x200000 0x6000 3).2.mem 0x1000 0x200000 =
      0x6000 := by simpa using hmapped 0 (by decide)
  have hrun : ∀ va pa flags : U64, run (vmmStep 0x1000) emptyPhys [.map va pa flags] =
      (vmmMapPage emptyPhys 0x1000 va pa flags).2 := fun _ _ _ => rfl
  have hcalls := vmm_calls_agree htree [.map 0x200000 0x6000 3]
  rw [hrun] at hcalls
  obtain ⟨⟨a, htree'⟩, hagree⟩ := hcalls
  have hagain := vmmMapPage_mapped htree' (allTables_tablePathOf 0x200000)
    (by rw [hthere]; decide) 0x7000 3
  have hsame := (hagree 0x200000 0x7000 3 rfl rfl (by decide)).2 hagain
  exact ⟨htree, hok, hthere, hunmap, hagain, (hsame 0x200000).trans hthere⟩

end SuiraBox.Mm
