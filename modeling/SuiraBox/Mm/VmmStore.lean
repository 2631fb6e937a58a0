/-
# The kernel's pages as a store

The page tables, looked at from outside: a page of the 48-bit address space leads to
physical addresses or nowhere, and `vmm_unmap_page` takes it away or not.  For this view,
on tables that form a tree, `vmm_map_page` adds a page that was not there, or changes
nothing, and `vmm_unmap_page` removes what `vmm_map_page` has added.  So several pages can
be mapped all or nothing (`vmmStore`).
-/

import SuiraBox.Library.Rollback
import SuiraBox.Mm.Vmm

namespace SuiraBox.Mm

open ByteMem Forest

/-- The number of the page of an address, in the 48 bits that are translated. -/
def pageOf (va : U64) : BitVec 36 := BitVec.ofNat 36 (va.toNat / 4096)

/-- The first address of a page. -/
def pageAddress (n : BitVec 36) : U64 := BitVec.ofNat 64 (n.toNat * 4096)

/-- The way to a page that `vmm_unmap_page` goes: through four levels, without the page-size bit in
the PML4. -/
def SmallPage (l : List U64) : Prop := l.length = 4 ∧ (l.headD 0).getLsbD 7 = false

instance (l : List U64) : Decidable (SmallPage l) := inferInstanceAs (Decidable (_ ∧ _))

/-- A page seen from outside: whether `vmm_unmap_page` takes it away, and where its addresses
lead. -/
def pageView (m : Mem) (pml4 : U64) (n : BitVec 36) : Option (Bool × (U64 → U64)) :=
  (trail m pml4.toNat (pathOf (pageAddress n))).map fun l =>
    (decide (SmallPage l), fun va => physicalOf va l)

variable {m m' : Mem} {σ : Phys} {pml4 va pa flags : U64} {n : BitVec 36}

theorem toNat_pageAddress (n : BitVec 36) : (pageAddress n).toNat = n.toNat * 4096 := by
  have := n.isLt
  rw [pageAddress, BitVec.toNat_ofNat]
  omega

theorem toNat_pageOf (va : U64) : (pageOf va).toNat = va.toNat / 4096 % 2 ^ 36 :=
  BitVec.toNat_ofNat ..

/-- Pages are told apart by their paths. -/
theorem pathOf_pageAddress_iff : pathOf (pageAddress n) = pathOf va ↔ n = pageOf va := by
  have hn := n.isLt
  rw [pathOf_eq_iff_bits, toNat_pageAddress, ← BitVec.toNat_inj, toNat_pageOf]
  omega

/-- The trail of an address is that of its page. -/
theorem pathOf_pageOf (va : U64) : pathOf (pageAddress (pageOf va)) = pathOf va :=
  pathOf_pageAddress_iff.2 rfl

/-- `vmm_translate` reads its answer off the page. -/
theorem vmmTranslate_view (m : Mem) (pml4 va : U64) :
    vmmTranslate m pml4 va = (pageView m pml4 (pageOf va)).elim 0 fun v => v.2 va := by
  rw [vmmTranslate_eq, pageView, pathOf_pageOf]
  cases trail m pml4.toNat (pathOf va) with
  | none => rfl
  | some l => rfl

/-- Raising a trail keeps what `vmm_unmap_page` asks for. -/
theorem Raise.smallPage_iff {l l' : List U64} (h : Raise flags l l') :
    SmallPage l' ↔ SmallPage l := by
  obtain ⟨hentries, -⟩ := h
  refine and_congr (by rw [hentries.length_eq]) ?_
  cases hentries with
  | nil => rfl
  | cons hfirst _ =>
    rcases hfirst with rfl | rfl
    · rfl
    · rw [List.headD_cons, List.headD_cons, (raise_bits flags _).2]
      simp

/-- Raising changes no page. -/
theorem Raises.pageView_eq (h : Raises allTables pml4.toNat flags m m') :
    pageView m' pml4 = pageView m pml4 := by
  funext n
  have hrel : Option.Rel (Raise flags) (trail m pml4.toNat (pathOf (pageAddress n)))
      (trail m' pml4.toNat (pathOf (pageAddress n))) :=
    h.trail_rel rfl (allTables_tablePathOf (pageAddress n)) (pathOf_lt (pageAddress n))
  rw [pageView, pageView]
  generalize trail m pml4.toNat (pathOf (pageAddress n)) = o at hrel ⊢
  generalize trail m' pml4.toNat (pathOf (pageAddress n)) = o' at hrel ⊢
  cases hrel with
  | none => rfl
  | some hraise =>
    rw [Option.map_some, Option.map_some, funext hraise.physicalOf_eq,
      decide_eq_decide.2 hraise.smallPage_iff]

/-- An entry of a trail that goes on. -/
theorem trailStep_cons {e : U64} {n : ℕ} {below : Option (List U64)} {l : List U64}
    (h : trailStep e n below = some l) (hlen : l.length ≠ 1) :
    e.getLsbD 0 = true ∧ (e.getLsbD 7 = true → ¬ (n = 1 ∨ n = 2)) ∧
      ∃ l', below = some l' ∧ l = e :: l' := by
  rcases entry_cases e n with habsent | ⟨hpresent, hlarge, hn⟩ | ⟨hpresent, hsmall⟩
  · rw [trailStep_absent habsent] at h
    cases h
  · rw [trailStep_large hpresent hlarge hn] at h
    obtain rfl := Option.some.inj h
    exact absurd rfl hlen
  · rw [trailStep_table hpresent hsmall, Option.map_eq_some_iff] at h
    obtain ⟨l', hbelow, rfl⟩ := h
    exact ⟨hpresent, hsmall, l', hbelow, rfl⟩

/-- A trail begins with the entry of the first table. -/
theorem trail_head {t i : ℕ} {rest : List ℕ} {l : List U64} (h : trail m t (i :: rest) = some l) :
    l.headD 0 = slot m t i := by
  rw [trail_cons] at h
  rcases entry_cases (slot m t i) rest.length with habsent | ⟨hpresent, hlarge, hn⟩
    | ⟨hpresent, hsmall⟩
  · rw [trailStep_absent habsent] at h
    cases h
  · rw [trailStep_large hpresent hlarge hn] at h
    rw [← Option.some.inj h, List.headD_cons]
  · rw [trailStep_table hpresent hsmall, Option.map_eq_some_iff] at h
    obtain ⟨l', -, rfl⟩ := h
    rw [List.headD_cons]

/-- Where the trail is one for `vmm_unmap_page`, it comes to the last table. -/
theorem walk_of_smallPage {root : ℕ} {l : List U64} (h : trail m root (pathOf va) = some l)
    (hsmall : SmallPage l) : ∃ t, walk (smallTable m) root (tablePathOf va) = some t ∧
      (slot m t (ptIndex va)).getLsbD 0 = true := by
  obtain ⟨hlen, hhead⟩ := hsmall
  rw [trail_head h] at hhead
  rw [pathOf, trail_four] at h
  dsimp only at h
  obtain ⟨h₄, -, l₃, ht₃, rfl⟩ := trailStep_cons h (by omega)
  rw [List.length_cons] at hlen
  obtain ⟨h₃, hs₃, l₂, ht₂, rfl⟩ := trailStep_cons ht₃ (by omega)
  rw [List.length_cons] at hlen
  obtain ⟨h₂, hs₂, l₁, ht₁, rfl⟩ := trailStep_cons ht₂ (by omega)
  have hs₃ := Bool.eq_false_iff.2 fun hl => hs₃ hl (Or.inr rfl)
  have hs₂ := Bool.eq_false_iff.2 fun hl => hs₂ hl (Or.inl rfl)
  rw [tablePathOf, walk, smallTable_eq_some.2 ⟨h₄, hhead, rfl⟩, Option.bind_some, walk,
    smallTable_eq_some.2 ⟨h₃, hs₃, rfl⟩, Option.bind_some, walk,
    smallTable_eq_some.2 ⟨h₂, hs₂, rfl⟩]
  refine ⟨_, rfl, Bool.not_eq_false _ ▸ fun habsent => ?_⟩
  rw [trailStep_absent habsent] at ht₁
  cases ht₁

/-- A page from the outside, after its leaf has been written. -/
theorem Tree.pageView_setLeaf {a : PageSets} {t : ℕ} (h : Tree allTables pml4.toNat σ a)
    (ht : HasTable allTables pml4.toNat σ.mem (tablePathOf va) t)
    (hway : SmallWay pml4.toNat σ.mem (tablePathOf va)) (e : U64) :
    pageView (setSlot σ.mem t (ptIndex va) e) pml4 = Function.update (pageView σ.mem pml4)
      (pageOf va) (if e.getLsbD 0 = true then some (true, fun x =>
        (e &&& entryAddrMask) ||| (x &&& 0xFFF)) else none) := by
  obtain ⟨-, htable, hway', hother, hentry⟩ := h.setLeaf ht hway e
  obtain ⟨habsent, hpresent⟩ := hway'.trail_eq htable.path
  rw [hentry] at habsent hpresent
  funext n
  rcases eq_or_ne n (pageOf va) with rfl | hne
  · rw [Function.update_self, pageView, pathOf_pageOf]
    split_ifs with he
    · obtain ⟨l, hl, htrail⟩ := hpresent he
      have hsmall : SmallPage (l ++ [e]) := by
        refine ⟨by rw [List.length_append, hl]; rfl, ?_⟩
        have hroot : HasTable allTables pml4.toNat (setSlot σ.mem t (ptIndex va) e) [] pml4.toNat :=
          hasTable_nil.2 rfl
        rw [trail_head htrail, ← hroot.entries_eq]
        exact (hway' _ _ (onWay_tablePathOf.2 (Or.inl ⟨rfl, rfl⟩))).2
      rw [htrail, Option.map_some, decide_eq_true hsmall, funext fun x => physicalOf_leaf x e hl]
    · rw [habsent (Bool.eq_false_iff.2 he)]
      rfl
  · rw [Function.update_of_ne hne, pageView, pageView,
      hother _ (allTables_tablePathOf _) fun hpath => hne (pathOf_pageAddress_iff.1 hpath)]

section Store

variable {ι : Type*} (frame : ι → U64) (page : ι → U64)

/-- `vmm_map_page` for the page of `i`, and whether it returns 0. -/
def insertPage (pml4 flags : U64) (i : ι) (σ : Phys) : Bool × Phys :=
  let r := vmmMapPage σ pml4 (page i) (frame i) flags
  (decide (r.1 = 0), r.2)

/-- `vmm_unmap_page` for the page of `i`. -/
def removePage (pml4 : U64) (i : ι) (σ : Phys) : Phys := (vmmUnmapPage σ pml4 (page i)).2

/-- **The kernel's pages are a store**, for pages and frames that are aligned. -/
theorem vmmStore (pml4 flags : U64) :
    Rollback.Store (KernelTree pml4) (fun σ => pageView σ.mem pml4) (fun i => pageOf (page i))
      (fun i => (true, fun x => frame i ||| (x &&& 0xFFF))) (insertPage frame page pml4 flags)
      (removePage page pml4)
      fun i => (page i).toNat % 4096 = 0 ∧ (frame i).toNat % 4096 = 0 ∧
      (frame i).toNat < 2 ^ 52 := by
  constructor
  · rintro σ i ⟨a, h⟩ ⟨-, hframe, hsmall⟩ hok
    obtain ⟨htarget, hpresent⟩ := vmmLeaf_spec flags hframe hsmall
    rw [insertPage, decide_eq_true_iff] at hok
    obtain ⟨σ', a', h', hraises, ⟨rc, hrc, heq⟩ | ⟨-, -, t, hat, heq⟩⟩ :=
      vmmMapPage_cases h (allTables_tablePathOf (page i)) (frame i) flags
    · rw [heq] at hok
      exact absurd hok hrc
    · dsimp only [insertPage]
      rw [heq]
      refine ⟨?_, ⟨a', (h'.setLeaf hat.table hat.way _).1⟩, ?_⟩
      · rw [← hraises.pageView_eq, pageView, pathOf_pageOf, hat.trail_none]
        rfl
      · rw [h'.pageView_setLeaf hat.table hat.way, if_pos hpresent, hraises.pageView_eq]
        rw [show vmmLeaf (frame i) flags &&& entryAddrMask = frame i from htarget]
  · rintro σ i ⟨a, h⟩ - hfail
    rw [insertPage, decide_eq_false_iff_not] at hfail
    obtain ⟨σ', a', h', hraises, ⟨rc, hrc, heq⟩ | ⟨-, -, t, hat, heq⟩⟩ :=
      vmmMapPage_cases h (allTables_tablePathOf (page i)) (frame i) flags
    · dsimp only [insertPage]
      rw [heq]
      exact ⟨⟨a', h'⟩, hraises.pageView_eq⟩
    · rw [heq] at hfail
      exact absurd rfl hfail
  · rintro σ i ⟨a, h⟩ ⟨halign, -⟩ hview
    rw [pageView, pathOf_pageOf, Option.map_eq_some_iff] at hview
    obtain ⟨l, htrail, hl⟩ := hview
    have hsmall : SmallPage l := of_decide_eq_true (Prod.mk.inj hl).1
    obtain ⟨t, hwalk, hpresent⟩ := walk_of_smallPage htrail hsmall
    obtain ⟨ht, hway⟩ := (walk_smallTable_iff (allTables_tablePathOf (page i))).1 hwalk
    rw [removePage, vmmUnmapPage_leaf ht hway halign hpresent]
    refine ⟨⟨a, (h.setLeaf ht hway 0).1⟩, ?_⟩
    rw [h.pageView_setLeaf ht hway, if_neg (by simp)]

end Store

end SuiraBox.Mm
