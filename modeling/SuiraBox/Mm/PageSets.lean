/-
# The page allocator as three sets of pages

What `kernel/mm/pmm_bootstrap.c` is for, without its bitmaps: the pages that
some usable range holds, the pages that some reserved range holds, and the
pages that are handed out.  A page is free when it is in the first set and in
neither of the others; `pmm_alloc_page` hands out the lowest free page and
`pmm_free_page` takes back a page by its exact address.

`Refines` relates a state of the code to such sets, each call keeps it
(`pmmStep_refines`), and so every run of calls does.
Reservations of pages that are handed out, usable
ranges over reserved or handed-out pages, double frees and frees of pages
reserved after their allocation are all runs like any other.
-/

import SuiraBox.Library.Runs
import SuiraBox.Mm.Pmm
import Mathlib.Data.Finset.Max

namespace SuiraBox.Mm

open Runs

variable {p : ℕ}

/-- The abstract allocator. -/
structure PageSets where
  usable : Finset ℕ
  reserved : Finset ℕ
  allocated : Finset ℕ

namespace PageSets

/-- The pages that `pmm_alloc_page` may hand out. -/
def free (a : PageSets) : Finset ℕ := (a.usable \ a.reserved) \ a.allocated

theorem mem_free {a : PageSets} :
    p ∈ a.free ↔ p ∈ a.usable ∧ p ∉ a.reserved ∧ p ∉ a.allocated := by
  rw [free, Finset.mem_sdiff, Finset.mem_sdiff, and_assoc]

/-- Page `p` is handed out. -/
def take (a : PageSets) (p : ℕ) : PageSets := { a with allocated := insert p a.allocated }

/-- Page `p` is given back. -/
def giveBack (a : PageSets) (p : ℕ) : PageSets := { a with allocated := a.allocated.erase p }

theorem free_take (a : PageSets) (p : ℕ) : (a.take p).free = a.free.erase p := by
  ext q
  rw [mem_free, Finset.mem_erase, mem_free, take, Finset.mem_insert]
  tauto

theorem card_free_take {a : PageSets} (hp : p ∈ a.free) :
    (a.take p).free.card + 1 = a.free.card := by
  rw [free_take, Finset.card_erase_add_one hp]

/-- One page more is free when an allocated page is given back. -/
theorem card_free_giveBack {a : PageSets} (hp : p ∈ a.usable) (hp' : p ∉ a.reserved)
    (hp'' : p ∈ a.allocated) : (a.giveBack p).free.card = a.free.card + 1 := by
  have heq : (a.giveBack p).free = insert p a.free := by
    ext q
    rw [Finset.mem_insert, mem_free, mem_free, giveBack, Finset.mem_erase]
    constructor
    · rintro ⟨hu, hr, ha⟩
      rcases eq_or_ne q p with rfl | hne
      · exact Or.inl rfl
      · exact Or.inr ⟨hu, hr, fun hq => ha ⟨hne, hq⟩⟩
    · rintro (rfl | ⟨hu, hr, ha⟩)
      · exact ⟨hp, hp', fun hq => hq.1 rfl⟩
      · exact ⟨hu, hr, fun hq => ha hq.2⟩
  rw [heq, Finset.card_insert_of_notMem fun hmem => (mem_free.1 hmem).2.2 hp'']

/-- No range seen yet, no page handed out. -/
def empty : PageSets := ⟨∅, ∅, ∅⟩

end PageSets

/-- The pages below the limit that lie wholly inside a range. -/
def insidePages (L : PmmLimit) (start stop : U64) : Finset ℕ :=
  (Finset.range L.pages).filter fun p => Inside start stop p

theorem mem_insidePages {L : PmmLimit} {start stop : U64} :
    p ∈ insidePages L start stop ↔ p < L.pages ∧ Inside start stop p := by
  rw [insidePages, Finset.mem_filter, Finset.mem_range]

/-- The calls of the allocator's interface after it has been set up. -/
inductive PmmCall
  | addUsableRange (start stop : U64)
  | reserveRange (start stop : U64)
  | allocPage
  | freePage (address : U64)

/-- One call on the bitmaps; `pmm_alloc_page` is the one that answers. -/
def pmmStep (L : PmmLimit) (s : Pmm) : PmmCall → Option U64 × Pmm
  | .addUsableRange start stop => (none, pmmAddUsableRange L s start stop)
  | .reserveRange start stop => (none, pmmReserveRange L s start stop)
  | .allocPage => (some (pmmAllocPage L s).1, (pmmAllocPage L s).2)
  | .freePage address => (none, pmmFreePage L s address)

/-- One call on the sets. -/
def PageSets.step (L : PmmLimit) (a : PageSets) : PmmCall → Option U64 × PageSets
  | .addUsableRange start stop => (none, { a with usable := a.usable ∪ insidePages L start stop })
  | .reserveRange start stop => (none, { a with reserved := a.reserved ∪ insidePages L start stop })
  | .allocPage =>
    if h : a.free.Nonempty then
      (some (BitVec.ofNat 64 (4096 * a.free.min' h)),
        { a with allocated := insert (a.free.min' h) a.allocated })
    else (some 0, a)
  | .freePage address =>
    (none, { a with allocated := a.allocated.filter fun p => 4096 * p ≠ address.toNat })

/-- The two calls that set the allocator up. -/
inductive PmmBoot
  | reset
  | init (start stop : U64)

/-- The state a boot call leaves, whatever was there before. -/
def PmmBoot.state (L : PmmLimit) (s : Pmm) : PmmBoot → Pmm
  | .reset => pmmReset L s
  | .init start stop => pmmInit L s start stop

/-- The usable ranges a boot call adds. -/
def PmmBoot.ranges : PmmBoot → List (U64 × U64)
  | .reset => []
  | .init start stop => [(start, stop)]

/-- The sets a boot call leaves. -/
def PmmBoot.sets (L : PmmLimit) : PmmBoot → PageSets
  | .reset => .empty
  | .init start stop => { PageSets.empty with usable := insidePages L start stop }

/-- The ranges given to `pmm_add_usable_range`. -/
def usableRanges : List PmmCall → List (U64 × U64) :=
  List.filterMap fun
    | .addUsableRange start stop => some (start, stop)
    | _ => none

/-- The ranges given to `pmm_reserve_range`. -/
def reservedRanges : List PmmCall → List (U64 × U64) :=
  List.filterMap fun
    | .reserveRange start stop => some (start, stop)
    | _ => none

/-- The bitmaps say what the sets say. -/
structure RefinesBits (L : PmmLimit) (s : Pmm) (a : PageSets) : Prop where
  bitmap : ∀ p < L.pages, (pageBit s.bitmap p = false ↔ p ∈ a.free)
  reserved : ∀ p < L.pages, (pageBit s.reservedBitmap p = true ↔ p ∈ a.reserved)
  allocated : ∀ p < L.pages, (pageBit s.allocatedBitmap p = true ↔ p ∈ a.allocated)
  usable_lt : ∀ p ∈ a.usable, p < L.pages
  reserved_lt : ∀ p ∈ a.reserved, p < L.pages
  allocated_usable : a.allocated ⊆ a.usable

/-- The bitmaps and the counter say what the sets say. -/
structure Refines (L : PmmLimit) (s : Pmm) (a : PageSets) : Prop extends RefinesBits L s a where
  freeCount : s.freeCount.toNat = a.free.card

variable {L : PmmLimit} {s : Pmm} {a : PageSets}

/-- Free pages are below the limit. -/
theorem RefinesBits.free_lt (h : RefinesBits L s a) (hp : p ∈ a.free) : p < L.pages :=
  h.usable_lt p (PageSets.mem_free.1 hp).1

/-- So are allocated pages. -/
theorem RefinesBits.allocated_lt (h : RefinesBits L s a) (hp : p ∈ a.allocated) :
    p < L.pages :=
  h.usable_lt p (h.allocated_usable hp)

/-- The bitmap's free pages are those of the sets. -/
theorem RefinesBits.freeSet_eq (h : RefinesBits L s a) : freeSet L s = a.free := by
  ext p
  rw [mem_freeSet]
  exact ⟨fun hp => (h.bitmap p hp.1).1 hp.2,
    fun hp => ⟨h.free_lt hp, (h.bitmap p (h.free_lt hp)).2 hp⟩⟩

/-- `recompute_free_count` gives the counter its value, whatever it was. -/
theorem RefinesBits.recompute (h : RefinesBits L s a) : Refines L (recomputeFreeCount L s) a :=
  ⟨⟨h.bitmap, h.reserved, h.allocated, h.usable_lt, h.reserved_lt, h.allocated_usable⟩,
    by rw [recomputeFreeCount_toNat, h.freeSet_eq]⟩

/-- `pmm_reset` empties the sets. -/
theorem pmmReset_refines (L : PmmLimit) (s : Pmm) : Refines L (pmmReset L s) .empty where
  bitmap p hp := by simp [(pmmReset_spec L s hp).1, PageSets.mem_free, PageSets.empty]
  reserved p hp := by simp [(pmmReset_spec L s hp).2.1, PageSets.empty]
  allocated p hp := by simp [(pmmReset_spec L s hp).2.2, PageSets.empty]
  usable_lt p hp := by simp [PageSets.empty] at hp
  reserved_lt p hp := by simp [PageSets.empty] at hp
  allocated_usable := Finset.Subset.refl _
  freeCount := by simp [pmmReset, PageSets.free, PageSets.empty]

/-- Marking a range in free mode adds its pages to the usable ones. -/
theorem RefinesBits.add (h : RefinesBits L s a) (start stop : U64) :
    RefinesBits L (setRangeBits L s start stop true)
      { a with usable := a.usable ∪ insidePages L start stop } := by
  have hm := setRangeBits_marks L s start stop true
  refine ⟨fun p hp => ?_, fun p hp => ?_, fun p hp => ?_, fun p hp => ?_, h.reserved_lt,
    h.allocated_usable.trans Finset.subset_union_left⟩
  · have hb := h.bitmap p hp
    have hr := h.reserved p hp
    have ha := h.allocated p hp
    rw [PageSets.mem_free] at hb ⊢
    rw [hm.bitmap, Finset.mem_union, mem_insidePages]
    by_cases hin : Inside start stop p
    · cases hr' : pageBit s.reservedBitmap p <;> cases ha' : pageBit s.allocatedBitmap p <;>
        simp_all
    · simp only [hin, and_false, decide_false, or_false]
      simpa using hb
  · rw [hm.reserved]
    simpa using h.reserved p hp
  · rw [hm.allocated]
    exact h.allocated p hp
  · rcases Finset.mem_union.1 hp with hp | hp
    · exact h.usable_lt p hp
    · exact (mem_insidePages.1 hp).1

/-- Marking a range in reserve mode adds its pages to the reserved ones. -/
theorem RefinesBits.reserve (h : RefinesBits L s a) (start stop : U64) :
    RefinesBits L (setRangeBits L s start stop false)
      { a with reserved := a.reserved ∪ insidePages L start stop } := by
  have hm := setRangeBits_marks L s start stop false
  refine ⟨fun p hp => ?_, fun p hp => ?_, fun p hp => ?_, h.usable_lt, fun p hp => ?_,
    h.allocated_usable⟩
  · have hb := h.bitmap p hp
    rw [PageSets.mem_free] at hb ⊢
    rw [hm.bitmap, Finset.mem_union, mem_insidePages]
    by_cases hin : Inside start stop p
    · simp [hin, hp]
    · simpa [hin] using hb
  · rw [hm.reserved, Finset.mem_union, mem_insidePages]
    have hr := h.reserved p hp
    by_cases hin : Inside start stop p
    · simp [hin, hp]
    · simpa [hin] using hr
  · rw [hm.allocated]
    exact h.allocated p hp
  · rcases Finset.mem_union.1 hp with hp | hp
    · exact h.reserved_lt p hp
    · exact (mem_insidePages.1 hp).1

/-- `pmm_add_usable_range` adds the pages inside the range. -/
theorem Refines.addUsableRange (h : Refines L s a) (start stop : U64) :
    Refines L (pmmAddUsableRange L s start stop)
      { a with usable := a.usable ∪ insidePages L start stop } :=
  (h.toRefinesBits.add start stop).recompute

/-- `pmm_reserve_range` reserves them. -/
theorem Refines.reserveRange (h : Refines L s a) (start stop : U64) :
    Refines L (pmmReserveRange L s start stop)
      { a with reserved := a.reserved ∪ insidePages L start stop } :=
  (h.toRefinesBits.reserve start stop).recompute

/-- Handing out a free page moves it to the allocated ones. -/
theorem Refines.take (h : Refines L s a) {s' : Pmm} (hp : p ∈ a.free) (ht : Takes s s' p) :
    Refines L s' { a with allocated := insert p a.allocated } := by
  have hfree : PageSets.free { a with allocated := insert p a.allocated } = a.free.erase p :=
    a.free_take p
  have hcard := Finset.card_erase_add_one hp
  refine ⟨⟨fun q hq => ?_, fun q hq => ?_, fun q hq => ?_, h.usable_lt, h.reserved_lt,
    Finset.insert_subset (PageSets.mem_free.1 hp).1 h.allocated_usable⟩, ?_⟩
  · rw [hfree, Finset.mem_erase, ht.bitmap, ← h.bitmap q hq]
    simp [and_comm]
  · rw [ht.reserved]
    exact h.reserved q hq
  · rw [ht.allocated, Finset.mem_insert, ← h.allocated q hq]
    simp [or_comm]
  · have hc := h.freeCount
    have hne : s.freeCount ≠ 0 := by
      intro h0
      rw [h0] at hc
      simp at hc
      omega
    rw [ht.freeCount, if_pos hne, hfree]
    bv_omega

/-- Giving a page back removes it from the allocated ones. -/
theorem Refines.giveBack (h : Refines L s a) {s' : Pmm} (hp : p ∈ a.allocated)
    (hg : GivesBack s s' p) : Refines L s' { a with allocated := a.allocated.erase p } := by
  have hlt := h.allocated_lt hp
  have hu := h.allocated_usable hp
  have hbit : pageBit s.bitmap p = true := by
    rw [← Bool.not_eq_false, h.bitmap p hlt, PageSets.mem_free]
    exact fun hf => hf.2.2 hp
  refine ⟨⟨fun q hq => ?_, fun q hq => ?_, fun q hq => ?_, h.usable_lt, h.reserved_lt,
    (Finset.erase_subset _ _).trans h.allocated_usable⟩, ?_⟩
  · have hb := h.bitmap q hq
    rw [PageSets.mem_free] at hb ⊢
    rw [hg.bitmap, Finset.mem_erase]
    by_cases hqp : q = p
    · subst hqp
      have hr := h.reserved q hq
      cases hr' : pageBit s.reservedBitmap q <;> simp_all
    · simpa [hqp] using hb
  · rw [hg.reserved]
    exact h.reserved q hq
  · rw [hg.allocated, Finset.mem_erase, ← h.allocated q hq]
    simp [and_comm]
  · rw [hg.freeCount]
    have hr := h.reserved p hlt
    by_cases hres : p ∈ a.reserved
    · have hsame : PageSets.free { a with allocated := a.allocated.erase p } = a.free := by
        ext q
        rw [PageSets.mem_free, PageSets.mem_free, Finset.mem_erase]
        by_cases hqp : q = p
        · simp [hqp, hres]
        · simp [hqp]
      rw [if_pos (hr.2 hres), hsame, h.freeCount]
    · have hmore : PageSets.free { a with allocated := a.allocated.erase p } = insert p a.free := by
        ext q
        rw [PageSets.mem_free, Finset.mem_insert, PageSets.mem_free, Finset.mem_erase]
        by_cases hqp : q = p
        · simp [hqp, hres, hu]
        · simp [hqp]
      have hnot : p ∉ a.free := fun hf => (PageSets.mem_free.1 hf).2.2 hp
      have hc := h.freeCount
      have hle : a.free.card ≤ L.pages := by
        rw [← h.freeSet_eq]
        exact (Finset.card_filter_le _ _).trans (Finset.card_range _).le
      have hsmall := L.small
      rw [if_neg (fun hb => hres (hr.1 hb)), hmore, Finset.card_insert_of_notMem hnot]
      bv_omega

/-- The page of the allocated set that an address names, if any. -/
theorem filter_allocated (a : PageSets) (address : U64) :
    (∃ p ∈ a.allocated, address.toNat = 4096 * p ∧
      a.allocated.filter (fun q => 4096 * q ≠ address.toNat) = a.allocated.erase p) ∨
      ((∀ p ∈ a.allocated, address.toNat ≠ 4096 * p) ∧
        a.allocated.filter (fun q => 4096 * q ≠ address.toNat) = a.allocated) := by
  by_cases hex : ∃ p ∈ a.allocated, address.toNat = 4096 * p
  · obtain ⟨p, hp, heq⟩ := hex
    refine Or.inl ⟨p, hp, heq, ?_⟩
    ext q
    rw [Finset.mem_filter, Finset.mem_erase, heq]
    constructor
    · rintro ⟨hq, hne⟩
      exact ⟨fun h => hne (by rw [h]), hq⟩
    · rintro ⟨hne, hq⟩
      exact ⟨hq, fun h => hne (by omega)⟩
  · push Not at hex
    refine Or.inr ⟨hex, Finset.filter_true_of_mem fun p hp => (hex p hp).symm⟩

/-- `pmm_free_page` of an address that names no page of the allocated set
changes nothing. -/
theorem Refines.freePage_eq (h : Refines L s a) {address : U64}
    (hno : ∀ p ∈ a.allocated, address.toNat ≠ 4096 * p) : pmmFreePage L s address = s := by
  refine pmmFreePage_of_not_live L s address fun p hp heq => ?_
  rw [← Bool.not_eq_true, h.allocated p hp]
  exact fun hmem => hno p hmem heq

/-- `pmm_alloc_page` answers with the lowest page of the free set. -/
theorem Refines.allocPage_eq (h : Refines L s a) (hp : p ∈ a.free) (hmin : ∀ q ∈ a.free, p ≤ q) :
    (pmmAllocPage L s).1 = BitVec.ofNat 64 (4096 * p) ∧
      Refines L (pmmAllocPage L s).2 { a with allocated := insert p a.allocated } := by
  rcases pmmAllocPage_spec L s with ⟨hempty, _⟩ | ⟨q, hq, hqmin, hout, ht⟩
  · rw [h.freeSet_eq] at hempty
    rw [hempty] at hp
    exact absurd hp (Finset.notMem_empty p)
  · rw [h.freeSet_eq] at hq hqmin
    obtain rfl : p = q := le_antisymm (hmin q hq) (hqmin p hp)
    exact ⟨hout, h.take hp ht⟩

/-- `pmm_alloc_page` returns null and changes nothing when no page is free. -/
theorem Refines.allocPage_empty (h : Refines L s a) (hempty : a.free = ∅) :
    pmmAllocPage L s = (0, s) := by
  rcases pmmAllocPage_spec L s with ⟨_, heq⟩ | ⟨q, hq, _⟩
  · exact heq
  · rw [h.freeSet_eq, hempty] at hq
    exact absurd hq (Finset.notMem_empty q)

/-- What `pmm_alloc_page` does: nothing, when no page is free, or it hands out
the lowest free page. -/
theorem Refines.allocPage_cases (h : Refines L s a) :
    (a.free = ∅ ∧ pmmAllocPage L s = (0, s)) ∨
    ∃ p ∈ a.free, (∀ q ∈ a.free, p ≤ q) ∧ (pmmAllocPage L s).1.toNat = 4096 * p ∧
      Refines L (pmmAllocPage L s).2 (a.take p) := by
  rcases Finset.eq_empty_or_nonempty a.free with hempty | hne
  · exact Or.inl ⟨hempty, h.allocPage_empty hempty⟩
  · obtain ⟨hout, hnext⟩ := h.allocPage_eq (a.free.min'_mem hne) fun q hq => a.free.min'_le q hq
    refine Or.inr ⟨a.free.min' hne, a.free.min'_mem hne, fun q hq => a.free.min'_le q hq, ?_, hnext⟩
    have hlt := h.free_lt (a.free.min'_mem hne)
    have hsmall := L.small
    rw [hout, BitVec.toNat_ofNat]
    omega

/-- `pmm_free_page` of the address of an allocated page gives it back. -/
theorem Refines.freePage (h : Refines L s a) {address : U64} (hp : p ∈ a.allocated)
    (haddr : address.toNat = 4096 * p) : Refines L (pmmFreePage L s address) (a.giveBack p) := by
  have hlt := h.allocated_lt hp
  have heq : address = BitVec.ofNat 64 (4096 * p) := by
    rw [← haddr, BitVec.ofNat_toNat, BitVec.setWidth_eq]
  rw [heq]
  exact h.giveBack hp (pmmFreePage_of_live L s hlt ((h.allocated p hlt).2 hp))

/-- Giving back what has just been allocated undoes the allocation. -/
theorem Refines.freePage_allocPage (h : Refines L s a) (hfree : a.free.Nonempty) :
    pmmFreePage L (pmmAllocPage L s).2 (pmmAllocPage L s).1 = s := by
  rcases pmmAllocPage_spec L s with ⟨hempty, -⟩ | ⟨p, hp, -, hout, ht⟩
  · rw [h.freeSet_eq] at hempty
    exact absurd hempty hfree.ne_empty
  · rw [h.freeSet_eq] at hp
    obtain ⟨-, hres, hno⟩ := PageSets.mem_free.1 hp
    have hlt := h.free_lt hp
    have hlive : pageBit (pmmAllocPage L s).2.allocatedBitmap p = true := by
      rw [ht.allocated]
      simp
    rw [hout]
    refine (pmmFreePage_of_live L _ hlt hlive).undo ht ((h.bitmap p hlt).2 hp) ?_ ?_ fun hzero => ?_
    · rw [← Bool.not_eq_true, h.allocated p hlt]
      exact hno
    · rw [← Bool.not_eq_true, h.reserved p hlt]
      exact hres
    · have := h.freeCount
      rw [hzero] at this
      exact hfree.ne_empty (Finset.card_eq_zero.1 this.symm)

/-- **One call.**  Every call keeps the refinement, with the same answer. -/
theorem pmmStep_refines (h : Refines L s a) (call : PmmCall) :
    (pmmStep L s call).1 = (a.step L call).1 ∧
    Refines L (pmmStep L s call).2 (a.step L call).2 := by
  cases call with
  | addUsableRange start stop => exact ⟨rfl, h.addUsableRange start stop⟩
  | reserveRange start stop => exact ⟨rfl, h.reserveRange start stop⟩
  | allocPage =>
    rw [pmmStep, PageSets.step]
    split_ifs with hne
    · obtain ⟨hout, hnext⟩ := h.allocPage_eq (a.free.min'_mem hne) fun q hq => a.free.min'_le q hq
      exact ⟨congrArg some hout, hnext⟩
    · rw [h.allocPage_empty (Finset.not_nonempty_iff_eq_empty.1 hne)]
      exact ⟨rfl, h⟩
  | freePage address =>
    refine ⟨rfl, ?_⟩
    rw [pmmStep, PageSets.step]
    rcases filter_allocated a address with ⟨p, hp, heq, hset⟩ | ⟨hno, hset⟩
    · simp only [hset]
      exact h.freePage hp heq
    · simp only [hset]
      rw [h.freePage_eq hno]
      exact h

/-- Setting up refines the sets of the boot call. -/
theorem pmmBoot_refines (L : PmmLimit) (s : Pmm) (boot : PmmBoot) :
    Refines L (boot.state L s) (boot.sets L) := by
  cases boot with
  | reset => exact pmmReset_refines L s
  | init start stop =>
    have h := ((pmmReset_refines L s).toRefinesBits.add start stop).recompute
    rw [PmmBoot.state, pmmInit, PmmBoot.sets]
    simpa [PageSets.empty] using h

/-- Every run of the code is a run of the sets. -/
theorem pmmRun_refines (L : PmmLimit) (s : Pmm) (boot : PmmBoot) (calls : List PmmCall) :
    outputs (pmmStep L) (boot.state L s) calls = outputs (PageSets.step L) (boot.sets L) calls ∧
      Refines L (run (pmmStep L) (boot.state L s) calls)
      (run (PageSets.step L) (boot.sets L) calls) :=
  run_simulation (R := Refines L) (fun _ _ call h => pmmStep_refines h call) calls
    (pmmBoot_refines L s boot)

/-- A state of the kernel's allocator that a boot call and any calls after it
lead to. -/
def PmmReached (s : Pmm) : Prop :=
  ∃ s₀ boot calls, run (pmmStep bootstrapLimit) (PmmBoot.state bootstrapLimit s₀ boot) calls = s

/-- Every state that the calls lead to is described by some sets. -/
theorem PmmReached.refines (h : PmmReached s) : ∃ a, Refines bootstrapLimit s a := by
  obtain ⟨s₀, boot, calls, rfl⟩ := h
  exact ⟨_, (pmmRun_refines bootstrapLimit s₀ boot calls).2⟩

/-- The usable set is what the added ranges hold, the reserved set what the
reserved ranges hold. -/
theorem run_sets (L : PmmLimit) (calls : List PmmCall) (a : PageSets) (p : ℕ) :
    (p ∈ (run (PageSets.step L) a calls).usable ↔
      p ∈ a.usable ∨ p < L.pages ∧ ∃ r ∈ usableRanges calls, Inside r.1 r.2 p) ∧
    (p ∈ (run (PageSets.step L) a calls).reserved ↔
      p ∈ a.reserved ∨ p < L.pages ∧ ∃ r ∈ reservedRanges calls, Inside r.1 r.2 p) := by
  induction calls generalizing a with
  | nil => simp [usableRanges, reservedRanges]
  | cons call calls ih =>
    rw [run_cons, (ih _).1, (ih _).2]
    cases call with
    | addUsableRange start stop =>
      simp [PageSets.step, usableRanges, reservedRanges, mem_insidePages]
      tauto
    | reserveRange start stop =>
      simp [PageSets.step, usableRanges, reservedRanges, mem_insidePages]
      tauto
    | allocPage =>
      simp only [PageSets.step]
      split_ifs <;> simp [usableRanges, reservedRanges]
    | freePage address => simp [PageSets.step, usableRanges, reservedRanges]

/-- The allocator's variables agree: every word of the bitmaps and both
counters. -/
structure SamePmm (L : PmmLimit) (s t : Pmm) : Prop where
  bitmap : ∀ word < L.words, s.bitmap word = t.bitmap word
  reservedBitmap : ∀ word < L.words, s.reservedBitmap word = t.reservedBitmap word
  allocatedBitmap : ∀ word < L.words, s.allocatedBitmap word = t.allocatedBitmap word
  pageCount : s.pageCount = t.pageCount
  freeCount : s.freeCount = t.freeCount

/-- A bitmap is known from its bits. -/
theorem words_eq_of_pageBit {b c : ℕ → U64} (h : ∀ p < L.pages, pageBit b p = pageBit c p)
    {word : ℕ} (hword : word < L.words) : b word = c word := by
  refine BitVec.eq_of_getLsbD_eq fun i hi => ?_
  have hpage := h (64 * word + i) (by have := L.words_mul; omega)
  rwa [pageBit, pageBit, show (64 * word + i) / 64 = word by omega,
    show (64 * word + i) % 64 = i by omega] at hpage

/-- Two states that refine the same sets are the same state. -/
theorem Refines.unique {t : Pmm} (hs : Refines L s a) (ht : Refines L t a)
    (hcount : s.pageCount = t.pageCount) : SamePmm L s t := by
  refine ⟨fun _ => words_eq_of_pageBit fun p hp => ?_, fun _ => words_eq_of_pageBit fun p hp => ?_,
    fun _ => words_eq_of_pageBit fun p hp => ?_, hcount, ?_⟩
  · rw [Bool.eq_iff_iff, ← not_iff_not, Bool.not_eq_true, Bool.not_eq_true, hs.bitmap p hp,
      ht.bitmap p hp]
  · rw [Bool.eq_iff_iff, hs.reserved p hp, ht.reserved p hp]
  · rw [Bool.eq_iff_iff, hs.allocated p hp, ht.allocated p hp]
  · exact BitVec.eq_of_toNat_eq (hs.freeCount.trans ht.freeCount.symm)

/-- **The kernel's page allocator refines the set model**, along every run of
calls after `pmm_reset` or `pmm_init`, with arbitrary arguments.  Bitmap,
reserved bitmap, allocated bitmap and counter are the free, reserved and
allocated sets and the number of free pages; the next `pmm_alloc_page` answers
with the lowest free page, or with null and no change when there is none; a
`pmm_free_page` of anything but the address of an allocated page changes
nothing. -/
theorem pmm_refines_page_sets (s₀ : Pmm) (boot : PmmBoot) (calls : List PmmCall) :
    let L := bootstrapLimit
    let s := run (pmmStep L) (boot.state L s₀) calls
    let a := run (PageSets.step L) (boot.sets L) calls
    outputs (pmmStep L) (boot.state L s₀) calls = outputs (PageSets.step L) (boot.sets L) calls ∧
    (∀ p, p ∈ a.usable ↔
      p < 65536 ∧ ∃ r ∈ boot.ranges ++ usableRanges calls, Inside r.1 r.2 p) ∧
    (∀ p, p ∈ a.reserved ↔ p < 65536 ∧ ∃ r ∈ reservedRanges calls, Inside r.1 r.2 p) ∧
    (∀ p < 65536, (pageBit s.bitmap p = false ↔ p ∈ (a.usable \ a.reserved) \ a.allocated) ∧
      (pageBit s.reservedBitmap p = true ↔ p ∈ a.reserved) ∧
      (pageBit s.allocatedBitmap p = true ↔ p ∈ a.allocated)) ∧
    (pmmFreePages s).toNat = ((a.usable \ a.reserved) \ a.allocated).card ∧
    (∀ p ∈ (a.usable \ a.reserved) \ a.allocated,
      (∀ q ∈ (a.usable \ a.reserved) \ a.allocated, p ≤ q) →
        (pmmAllocPage L s).1 = BitVec.ofNat 64 (4096 * p) ∧
          Refines L (pmmAllocPage L s).2 { a with allocated := insert p a.allocated }) ∧
    ((a.usable \ a.reserved) \ a.allocated = ∅ → pmmAllocPage L s = (0, s)) ∧
    (∀ address : U64, (∀ p ∈ a.allocated, address.toNat ≠ 4096 * p) →
      pmmFreePage L s address = s) := by
  intro L s a
  obtain ⟨houts, h⟩ := pmmRun_refines L s₀ boot calls
  have hsets := fun p => run_sets L calls (boot.sets L) p
  refine ⟨houts, fun p => ?_, fun p => ?_, fun p hp => ⟨h.bitmap p hp, h.reserved p hp,
    h.allocated p hp⟩, h.freeCount, fun p hp hmin => h.allocPage_eq hp hmin,
    fun hempty => h.allocPage_empty hempty, fun address hno => h.freePage_eq hno⟩
  · rw [(hsets p).1]
    cases boot with
    | reset => simp [PmmBoot.sets, PmmBoot.ranges, PageSets.empty, L, bootstrapLimit]
    | init start stop =>
      simp [PmmBoot.sets, PmmBoot.ranges, PageSets.empty, mem_insidePages, L, bootstrapLimit]
      tauto
  · rw [(hsets p).2]
    cases boot <;> simp [PmmBoot.sets, PageSets.empty, L, bootstrapLimit]

end SuiraBox.Mm
