/-
# The physical page allocator

`kernel/mm/pmm_bootstrap.c` (the kernel's allocator, 256 MiB) and
`kernel/mm/pmm.c` (the host-tested one, 64 MiB).  The two files differ in
`PMM_MAX_PAGES` only, so every function here takes the limit as a parameter
(`PmmLimit`) and `bootstrapLimit`, `hostLimit` are the two instances.

Three bitmaps of 64-bit words hold one bit per 4 KiB page: `bitmap` (set: not
available), `reserved_bitmap` (set: never to be handed out) and
`allocated_bitmap` (set: handed out by `pmm_alloc_page`).  A bitmap is a
function from word numbers to words; the code only touches words below
`PMM_BITMAP_WORDS`.

`set_range_bits` works a word at a time: one masked word when the range lies in
a single word, otherwise a masked first word, whole middle words and a masked
last word.  `Marks` is what any of these does, page by page, and `Marks.trans`
puts the pieces together.
-/

import SuiraBox.Library.Words
import Mathlib.Data.Nat.Count

namespace SuiraBox

/-- `uint8_t`. -/
abbrev U8 := BitVec 8

/-- `uint16_t`. -/
abbrev U16 := BitVec 16

/-- `uint32_t`. -/
abbrev U32 := BitVec 32

/-- `uint64_t`. -/
abbrev U64 := BitVec 64

namespace Mm

/-- `PMM_MAX_PAGES`, a whole number of bitmap words and small enough that no
page address comes near `2 ^ 64`. -/
structure PmmLimit where
  /-- `PMM_MAX_PAGES` -/
  pages : ℕ
  whole : pages % 64 = 0
  small : pages ≤ 2 ^ 20

/-- `PMM_BITMAP_WORDS`. -/
def PmmLimit.words (L : PmmLimit) : ℕ := (L.pages + 63) / 64

theorem PmmLimit.words_mul (L : PmmLimit) : 64 * L.words = L.pages := by
  have := L.whole
  unfold words
  omega

/-- `pmm_bootstrap.c`: `PMM_MAX_PAGES = 256 MiB / 4 KiB`. -/
def bootstrapLimit : PmmLimit := ⟨256 * 1024 * 1024 / 4096, by decide, by decide⟩

/-- `pmm.c`: `PMM_MAX_PAGES = 64 MiB / 4 KiB`. -/
def hostLimit : PmmLimit := ⟨64 * 1024 * 1024 / 4096, by decide, by decide⟩

/-- The static variables of the allocator. -/
structure Pmm where
  bitmap : ℕ → U64
  reservedBitmap : ℕ → U64
  allocatedBitmap : ℕ → U64
  pageCount : U64
  freeCount : U64

/-- `low_bits_mask`. -/
def lowBitsMask (count : ℕ) : U64 :=
  if count = 0 then 0 else if 64 ≤ count then BitVec.allOnes 64 else (1 : U64) <<< count - 1

/-- The loop of `count_bits64`; a word runs out of set bits within 64 rounds
(`countBits64_eq`). -/
def countBitsLoop : ℕ → U64 → ℕ → ℕ
  | 0, _, count => count
  | n + 1, value, count =>
    if value = 0 then count else countBitsLoop n (value &&& (value - 1)) (count + 1)

/-- `count_bits64`. -/
def countBits64 (value : U64) : ℕ := countBitsLoop 64 value 0

/-- The loop of `first_set_bit64`. -/
def firstSetBitLoop : ℕ → U64 → ℕ → ℕ
  | 0, _, bit => bit
  | n + 1, value, bit => if value &&& 1 = 0 then firstSetBitLoop n (value >>> 1) (bit + 1) else bit

/-- `first_set_bit64`, called on nonzero words only (the C loop does not end on
zero): a nonzero word shows its lowest set bit within 64 rounds. -/
def firstSetBit64 (value : U64) : ℕ := firstSetBitLoop 64 value 0

/-- The word `~bitmap[word]` of available pages, cut to `PMM_MAX_PAGES` in the
last word. -/
def availableWord (L : PmmLimit) (s : Pmm) (word : ℕ) : U64 :=
  if word = L.words - 1 ∧ L.pages % 64 ≠ 0 then ~~~(s.bitmap word) &&& lowBitsMask (L.pages % 64)
  else ~~~(s.bitmap word)

/-- The sum of `recompute_free_count` over the first `n` words. -/
def availableCount (L : PmmLimit) (s : Pmm) : ℕ → U64
  | 0 => 0
  | n + 1 => availableCount L s n + BitVec.ofNat 64 (countBits64 (availableWord L s n))

/-- `recompute_free_count`. -/
def recomputeFreeCount (L : PmmLimit) (s : Pmm) : Pmm :=
  { s with freeCount := availableCount L s L.words }

/-- One masked word of `set_range_bits`, in either mode. -/
def markWord (s : Pmm) (word : ℕ) (mask : U64) (makeFree : Bool) : Pmm :=
  if makeFree then
    { s with
      bitmap := Function.update s.bitmap word ((s.bitmap word &&& ~~~mask) |||
        ((s.reservedBitmap word ||| s.allocatedBitmap word) &&& mask)) }
  else
    { s with
      bitmap := Function.update s.bitmap word (s.bitmap word ||| mask)
      reservedBitmap := Function.update s.reservedBitmap word (s.reservedBitmap word ||| mask) }

/-- One whole word of the middle loop of `set_range_bits`. -/
def fillWord (s : Pmm) (word : ℕ) (makeFree : Bool) : Pmm :=
  if makeFree then
    { s with
      bitmap := Function.update s.bitmap word (s.reservedBitmap word ||| s.allocatedBitmap word) }
  else
    { s with
      bitmap := Function.update s.bitmap word (BitVec.allOnes 64)
      reservedBitmap := Function.update s.reservedBitmap word (BitVec.allOnes 64) }

/-- The middle loop of `set_range_bits`: `n` whole words from `word` on. -/
def fillWords (makeFree : Bool) : ℕ → ℕ → Pmm → Pmm
  | 0, _, s => s
  | n + 1, word, s => fillWords makeFree n (word + 1) (fillWord s word makeFree)

/-- The word-wise part of `set_range_bits`: the pages from `firstPage` up to
`lastPage`, which is larger. -/
def markPages (s : Pmm) (firstPage lastPage : ℕ) (makeFree : Bool) : Pmm :=
  let firstWord := firstPage / 64
  let lastWord := (lastPage - 1) / 64
  if firstWord = lastWord then
    markWord s firstWord (lowBitsMask (lastPage - firstPage) <<< (firstPage % 64)) makeFree
  else
    let s₁ := if firstPage % 64 ≠ 0 then
        markWord s firstWord (BitVec.allOnes 64 <<< (firstPage % 64)) makeFree
      else s
    let nextWord := if firstPage % 64 ≠ 0 then firstWord + 1 else firstWord
    let s₂ := fillWords makeFree (lastWord - nextWord) nextWord s₁
    let lastBits := lastPage % 64
    markWord s₂ lastWord (if lastBits = 0 then BitVec.allOnes 64 else lowBitsMask lastBits) makeFree

/-- `set_range_bits`. -/
def setRangeBits (L : PmmLimit) (s : Pmm) (start stop : U64) (makeFree : Bool) : Pmm :=
  let maxAddress : U64 := BitVec.ofNat 64 (L.pages * 4096)
  if maxAddress ≤ start ∨ stop ≤ start then s
  else
    let stop := if maxAddress < stop then maxAddress else stop
    let firstPage := (start + 4096 - 1) / 4096
    let lastPage := stop / 4096
    if lastPage ≤ firstPage then s else markPages s firstPage.toNat lastPage.toNat makeFree

/-- The loop of `pmm_reset`: the first `n` words. -/
def resetWords : ℕ → Pmm → Pmm
  | 0, s => s
  | n + 1, s =>
    let s := resetWords n s
    { s with
      bitmap := Function.update s.bitmap n (BitVec.allOnes 64)
      reservedBitmap := Function.update s.reservedBitmap n 0
      allocatedBitmap := Function.update s.allocatedBitmap n 0 }

/-- `pmm_reset`. -/
def pmmReset (L : PmmLimit) (s : Pmm) : Pmm :=
  { resetWords L.words s with pageCount := BitVec.ofNat 64 L.pages, freeCount := 0 }

/-- `pmm_add_usable_range`. -/
def pmmAddUsableRange (L : PmmLimit) (s : Pmm) (start stop : U64) : Pmm :=
  recomputeFreeCount L (setRangeBits L s start stop true)

/-- `pmm_reserve_range`. -/
def pmmReserveRange (L : PmmLimit) (s : Pmm) (start stop : U64) : Pmm :=
  recomputeFreeCount L (setRangeBits L s start stop false)

/-- `pmm_init`. -/
def pmmInit (L : PmmLimit) (s : Pmm) (start stop : U64) : Pmm :=
  recomputeFreeCount L (setRangeBits L (pmmReset L s) start stop true)

/-- `pmm_alloc_page` from `word` on, with `n` words left. -/
def allocPageFrom (L : PmmLimit) (s : Pmm) : ℕ → ℕ → U64 × Pmm
  | 0, _ => (0, s)
  | n + 1, word =>
    let available := availableWord L s word
    if available = 0 then allocPageFrom L s n (word + 1)
    else
      let bit := firstSetBit64 available
      let index := BitVec.ofNat 64 word * 64 + BitVec.ofNat 64 bit
      (index * 4096,
        { s with
          bitmap := Function.update s.bitmap word (s.bitmap word ||| (1 : U64) <<< bit)
          allocatedBitmap := Function.update s.allocatedBitmap word
            (s.allocatedBitmap word ||| (1 : U64) <<< bit)
          freeCount := if s.freeCount ≠ 0 then s.freeCount - 1 else s.freeCount })

/-- `pmm_alloc_page`: the address, `0` for the null pointer. -/
def pmmAllocPage (L : PmmLimit) (s : Pmm) : U64 × Pmm := allocPageFrom L s L.words 0

/-- `pmm_free_page`. -/
def pmmFreePage (L : PmmLimit) (s : Pmm) (address : U64) : Pmm :=
  if address &&& 4095 ≠ 0 then s
  else
    let index := address / 4096
    if BitVec.ofNat 64 L.pages ≤ index then s
    else
      let word := (index / 64).toNat
      let mask := (1 : U64) <<< (index % 64).toNat
      if s.allocatedBitmap word &&& mask = 0 then s
      else
        let s := { s with
          allocatedBitmap := Function.update s.allocatedBitmap word
            (s.allocatedBitmap word &&& ~~~mask) }
        if s.reservedBitmap word &&& mask ≠ 0 then s
        else
          { s with
            bitmap := Function.update s.bitmap word (s.bitmap word &&& ~~~mask)
            freeCount := s.freeCount + 1 }

/-- `pmm_total_pages`. -/
def pmmTotalPages (s : Pmm) : U64 := s.pageCount

/-- `pmm_free_pages`. -/
def pmmFreePages (s : Pmm) : U64 := s.freeCount

/-! ### The bitmaps, page by page -/

/-- The bit of page `p` in a bitmap. -/
def pageBit (b : ℕ → U64) (p : ℕ) : Bool := (b (p / 64)).getLsbD (p % 64)

theorem pageBit_update (b : ℕ → U64) (word : ℕ) (v : U64) (p : ℕ) :
    pageBit (Function.update b word v) p =
      if p / 64 = word then v.getLsbD (p % 64) else pageBit b p := by
  unfold pageBit
  by_cases h : p / 64 = word
  · rw [h, Function.update_self, if_pos rfl]
  · rw [Function.update_of_ne h, if_neg h]

/-- A bitmap is what its pages are. -/
theorem pageBit_ext {b b' : ℕ → U64} (h : ∀ p, pageBit b p = pageBit b' p) : b = b' := by
  funext word
  refine BitVec.eq_of_getLsbD_eq fun bit hbit => ?_
  have := h (64 * word + bit)
  rwa [pageBit, pageBit, show (64 * word + bit) / 64 = word by omega,
    show (64 * word + bit) % 64 = bit by omega] at this

/-- `s'` is `s` after marking the pages of `P`: in reserve mode they become
unavailable and reserved, in free mode they become available unless reserved or
handed out.  Every other bit is as it was. -/
structure Marks (s s' : Pmm) (makeFree : Bool) (P : ℕ → Bool) : Prop where
  bitmap : ∀ p, pageBit s'.bitmap p =
    if P p then !makeFree || pageBit s.reservedBitmap p || pageBit s.allocatedBitmap p
    else pageBit s.bitmap p
  reserved : ∀ p, pageBit s'.reservedBitmap p = (pageBit s.reservedBitmap p || (P p && !makeFree))
  allocated : s'.allocatedBitmap = s.allocatedBitmap
  pageCount : s'.pageCount = s.pageCount
  freeCount : s'.freeCount = s.freeCount

theorem Marks.refl (s : Pmm) (makeFree : Bool) : Marks s s makeFree fun _ => false :=
  ⟨fun _ => rfl, fun _ => by simp, rfl, rfl, rfl⟩

/-- Marking `P` and then `Q` marks both. -/
theorem Marks.trans {s s₁ s₂ : Pmm} {makeFree : Bool} {P Q : ℕ → Bool}
    (h₁ : Marks s s₁ makeFree P) (h₂ : Marks s₁ s₂ makeFree Q) :
    Marks s s₂ makeFree fun p => P p || Q p where
  bitmap p := by
    rw [h₂.bitmap, h₁.bitmap, h₁.reserved, h₁.allocated]
    cases P p <;> cases Q p <;> cases makeFree <;> simp
  reserved p := by
    rw [h₂.reserved, h₁.reserved]
    cases P p <;> cases Q p <;> simp
  allocated := h₂.allocated.trans h₁.allocated
  pageCount := h₂.pageCount.trans h₁.pageCount
  freeCount := h₂.freeCount.trans h₁.freeCount

theorem Marks.congr {s s' : Pmm} {makeFree : Bool} {P Q : ℕ → Bool} (h : Marks s s' makeFree P)
    (hPQ : ∀ p, P p = Q p) : Marks s s' makeFree Q := by
  have : P = Q := funext hPQ
  exact this ▸ h

theorem markWord_marks (s : Pmm) (word : ℕ) (mask : U64) (makeFree : Bool) :
    Marks s (markWord s word mask makeFree) makeFree
      fun p => decide (p / 64 = word) && mask.getLsbD (p % 64) := by
  have hlt : ∀ p : ℕ, p % 64 < 64 := fun p => Nat.mod_lt _ (by decide)
  cases makeFree with
  | true =>
    refine ⟨fun p => ?_, fun p => by simp [markWord], rfl, rfl, rfl⟩
    rw [markWord, if_pos rfl]
    rw [pageBit_update]
    by_cases hw : p / 64 = word
    · subst hw
      cases hm : mask.getLsbD (p % 64) <;>
        simp only [pageBit, BitVec.getLsbD_or, BitVec.getLsbD_and, BitVec.getLsbD_not, hm, hlt] <;>
          simp
    · simp [hw]
  | false =>
    refine ⟨fun p => ?_, fun p => ?_, rfl, rfl, rfl⟩ <;>
    · rw [markWord, if_neg (by simp)]
      rw [pageBit_update]
      by_cases hw : p / 64 = word
      · subst hw
        cases hm : mask.getLsbD (p % 64) <;> simp [pageBit, hm]
      · simp [hw]

theorem fillWord_marks (s : Pmm) (word : ℕ) (makeFree : Bool) :
    Marks s (fillWord s word makeFree) makeFree fun p => decide (p / 64 = word) := by
  have hlt : ∀ p : ℕ, p % 64 < 64 := fun p => Nat.mod_lt _ (by decide)
  cases makeFree with
  | true =>
    refine ⟨fun p => ?_, fun p => by simp [fillWord], rfl, rfl, rfl⟩
    rw [fillWord, if_pos rfl]
    rw [pageBit_update]
    by_cases hw : p / 64 = word
    · subst hw
      simp [pageBit]
    · simp [hw]
  | false =>
    refine ⟨fun p => ?_, fun p => ?_, rfl, rfl, rfl⟩ <;>
    · rw [fillWord, if_neg (by simp)]
      rw [pageBit_update]
      by_cases hw : p / 64 = word
      · rw [if_pos hw, BitVec.getLsbD_allOnes]
        simp [hw, hlt]
      · simp [hw]

/-- The middle loop marks the pages of its words. -/
theorem fillWords_marks (makeFree : Bool) (n word : ℕ) (s : Pmm) :
    Marks s (fillWords makeFree n word s) makeFree
      fun p => decide (word ≤ p / 64 ∧ p / 64 < word + n) := by
  induction n generalizing word s with
  | zero => exact (Marks.refl s makeFree).congr fun p => by simp
  | succ n ih =>
    refine ((fillWord_marks s word makeFree).trans (ih (word + 1) _)).congr fun p => ?_
    rw [Bool.eq_iff_iff]
    simp only [Bool.or_eq_true, decide_eq_true_iff]
    omega

theorem getLsbD_lowBitsMask (count i : ℕ) :
    (lowBitsMask count).getLsbD i = (decide (i < count) && decide (i < 64)) := by
  unfold lowBitsMask
  split_ifs with h0 h64
  · simp [h0]
  · rw [BitVec.getLsbD_allOnes]
    have : i < 64 → i < count := fun h => by omega
    by_cases hi : i < 64 <;> simp [hi]
    omega
  · rw [Words.getLsbD_one_shiftLeft_sub_one (by omega)]
    by_cases hi : i < count
    · simp [hi]; omega
    · simp [hi]

/-- Page `p` lies wholly inside `[start, stop)`. -/
def Inside (start stop : U64) (p : ℕ) : Prop := start.toNat ≤ 4096 * p ∧ 4096 * (p + 1) ≤ stop.toNat

instance (start stop : U64) (p : ℕ) : Decidable (Inside start stop p) :=
  inferInstanceAs (Decidable (_ ∧ _))

theorem toNat_maxAddress (L : PmmLimit) :
    (BitVec.ofNat 64 (L.pages * 4096)).toNat = L.pages * 4096 := by
  have := L.small
  rw [BitVec.toNat_ofNat, Nat.mod_eq_of_lt (by omega)]

/-- The range marking marks the pages between its ends, word by word. -/
theorem markPages_marks (s : Pmm) {firstPage lastPage : ℕ} (h : firstPage < lastPage)
    (makeFree : Bool) :
    Marks s (markPages s firstPage lastPage makeFree) makeFree
      fun p => decide (firstPage ≤ p ∧ p < lastPage) := by
  unfold markPages
  simp only
  by_cases hone : firstPage / 64 = (lastPage - 1) / 64
  · rw [if_pos hone]
    refine (markWord_marks ..).congr fun p => ?_
    rw [BitVec.getLsbD_shiftLeft, getLsbD_lowBitsMask, Bool.eq_iff_iff]
    simp only [Bool.and_eq_true, Bool.not_eq_true', decide_eq_true_iff, decide_eq_false_iff_not]
    omega
  · rw [if_neg hone]
    -- the last word is masked whether or not its mask is the whole word
    have hlast : ∀ p, (if lastPage % 64 = 0 then BitVec.allOnes 64
        else lowBitsMask (lastPage % 64)).getLsbD (p % 64) =
          decide (lastPage % 64 = 0 ∨ p % 64 < lastPage % 64) := by
      intro p
      split_ifs with h0
      · rw [BitVec.getLsbD_allOnes, Bool.eq_iff_iff]
        simp only [decide_eq_true_iff]
        omega
      · rw [getLsbD_lowBitsMask, Bool.eq_iff_iff]
        simp only [Bool.and_eq_true, decide_eq_true_iff]
        omega
    by_cases hragged : firstPage % 64 ≠ 0
    · rw [if_pos hragged, if_pos hragged]
      refine (((markWord_marks ..).trans (fillWords_marks ..)).trans (markWord_marks ..)).congr
        fun p => ?_
      rw [hlast, BitVec.getLsbD_shiftLeft, BitVec.getLsbD_allOnes, Bool.eq_iff_iff]
      simp only [Bool.or_eq_true, Bool.and_eq_true, Bool.not_eq_true', decide_eq_true_iff,
        decide_eq_false_iff_not]
      omega
    · rw [if_neg hragged, if_neg hragged]
      refine ((fillWords_marks ..).trans (markWord_marks ..)).congr fun p => ?_
      rw [hlast, Bool.eq_iff_iff]
      simp only [Bool.or_eq_true, Bool.and_eq_true, decide_eq_true_iff]
      omega

/-- **Word-wise marking is page-wise marking.**  `set_range_bits` marks exactly
the pages below the limit that lie wholly inside the range. -/
theorem setRangeBits_marks (L : PmmLimit) (s : Pmm) (start stop : U64) (makeFree : Bool) :
    Marks s (setRangeBits L s start stop makeFree) makeFree
      fun p => decide (p < L.pages ∧ Inside start stop p) := by
  have hmax := toNat_maxAddress L
  have hsmall := L.small
  have hstop := stop.isLt
  unfold setRangeBits Inside
  generalize BitVec.ofNat 64 (L.pages * 4096) = maxAddress at hmax ⊢
  simp only
  by_cases hout : maxAddress ≤ start ∨ stop ≤ start
  · rw [if_pos hout]
    refine (Marks.refl s makeFree).congr fun p => (decide_eq_false ?_).symm
    rw [BitVec.le_def, BitVec.le_def] at hout
    omega
  rw [if_neg hout]
  rw [BitVec.le_def, BitVec.le_def] at hout
  -- the two page numbers, without machine arithmetic
  have hfirst : ((start + 4096 - 1) / 4096).toNat = (start.toNat + 4095) / 4096 := by
    have : (start + 4096 - 1).toNat = start.toNat + 4095 := by bv_omega
    rw [BitVec.toNat_udiv, this]; rfl
  have hlast : ((if maxAddress < stop then maxAddress else stop) / 4096).toNat =
      min stop.toNat (L.pages * 4096) / 4096 := by
    rw [BitVec.toNat_udiv]
    split_ifs with h <;> rw [BitVec.lt_def] at h
    · rw [Nat.min_eq_right (by omega), hmax]; rfl
    · rw [Nat.min_eq_left (by omega)]; rfl
  by_cases hempty : (if maxAddress < stop then maxAddress else stop) / 4096 ≤
      (start + 4096 - 1) / 4096
  · rw [if_pos hempty]
    rw [BitVec.le_def, hfirst, hlast] at hempty
    refine (Marks.refl s makeFree).congr fun p => (decide_eq_false ?_).symm
    omega
  · rw [if_neg hempty]
    rw [BitVec.le_def, hfirst, hlast] at hempty
    rw [hfirst, hlast]
    refine (markPages_marks s (by omega) makeFree).congr fun p => ?_
    rw [decide_eq_decide]
    omega

/-- **`set_range_bits` page by page.**  In the pages that lie inside the range and below the limit,
reserving sets both bits, and freeing leaves a page unavailable if it is reserved or handed out.
Nothing else changes. -/
theorem setRangeBits_page_by_page (L : PmmLimit) (s : Pmm) (start stop : U64) (makeFree : Bool) :
    (∀ p, if start.toNat ≤ 4096 * p ∧ 4096 * (p + 1) ≤ min stop.toNat (4096 * L.pages) then
        pageBit (setRangeBits L s start stop makeFree).bitmap p =
          (if makeFree then pageBit s.reservedBitmap p || pageBit s.allocatedBitmap p else true) ∧
        pageBit (setRangeBits L s start stop makeFree).reservedBitmap p =
          (if makeFree then pageBit s.reservedBitmap p else true)
      else
        pageBit (setRangeBits L s start stop makeFree).bitmap p = pageBit s.bitmap p ∧
        pageBit (setRangeBits L s start stop makeFree).reservedBitmap p =
          pageBit s.reservedBitmap p) ∧
    (setRangeBits L s start stop makeFree).allocatedBitmap = s.allocatedBitmap := by
  have h := setRangeBits_marks L s start stop makeFree
  refine ⟨fun p => ?_, h.allocated⟩
  have hrange : start.toNat ≤ 4096 * p ∧ 4096 * (p + 1) ≤ min stop.toNat (4096 * L.pages) ↔
      p < L.pages ∧ Inside start stop p := by
    unfold Inside
    omega
  rw [h.bitmap, h.reserved, if_congr hrange rfl rfl]
  rcases Decidable.em (p < L.pages ∧ Inside start stop p) with hin | hout
  · rw [if_pos hin, if_pos (decide_eq_true hin), decide_eq_true hin]
    cases makeFree with
    | true => simp
    | false => simp
  · rw [if_neg hout, if_neg (by simpa using hout), decide_eq_false hout]
    simp

/-! ### Counting and finding available pages -/

/-- The counting loop clears one bit in each round. -/
theorem countBitsLoop_eq (n : ℕ) (value : U64) (count : ℕ) (h : (Words.bits value).card ≤ n) :
    countBitsLoop n value count = count + (Words.bits value).card := by
  induction n generalizing value count with
  | zero => rw [countBitsLoop, Nat.le_zero.1 h, Nat.add_zero]
  | succ n ih =>
    rw [countBitsLoop]
    split_ifs with h0
    · rw [h0, Words.bits_zero, Finset.card_empty, Nat.add_zero]
    · have hcard := Words.card_bits_and_sub_one h0
      rw [ih _ _ (by omega)]
      omega

/-- `count_bits64` counts the set bits. -/
theorem countBits64_eq (value : U64) : countBits64 value = (Words.bits value).card := by
  rw [countBits64, countBitsLoop_eq 64 value 0 (Words.card_bits_le value), Nat.zero_add]

/-- The search loop shifts until the lowest set bit comes to place 0. -/
theorem firstSetBitLoop_eq (n : ℕ) (value : U64) (bit k : ℕ) (hk : value.getLsbD k = true)
    (hlow : ∀ i < k, value.getLsbD i = false) (hn : k < n) :
    firstSetBitLoop n value bit = bit + k := by
  induction n generalizing value bit k with
  | zero => omega
  | succ n ih =>
    have htest : value &&& 1 = 0 ↔ value.getLsbD 0 = false :=
      Words.and_one_shiftLeft_eq_zero_iff (show 0 < 64 by decide) value
    rw [firstSetBitLoop]
    cases k with
    | zero => rw [if_neg (by rw [htest, hk]; simp), Nat.add_zero]
    | succ k =>
      rw [if_pos (htest.2 (hlow 0 (by omega)))]
      rw [ih (value >>> 1) (bit + 1) k (by rwa [BitVec.getLsbD_ushiftRight, Nat.add_comm])
        (fun i hi => by rw [BitVec.getLsbD_ushiftRight]; exact hlow _ (by omega)) (by omega)]
      omega

/-- `first_set_bit64` finds the lowest set bit of a nonzero word. -/
theorem firstSetBit64_spec {value : U64} (hv : value ≠ 0) :
    value.getLsbD (firstSetBit64 value) = true ∧
      ∀ i < firstSetBit64 value, value.getLsbD i = false := by
  obtain ⟨k, hk, hlow⟩ := Words.exists_lowest hv
  have : firstSetBit64 value = k := by
    rw [firstSetBit64, firstSetBitLoop_eq 64 value 0 k hk hlow (BitVec.lt_of_getLsbD hk),
      Nat.zero_add]
  rw [this]
  exact ⟨hk, hlow⟩

/-- The limits of the source are whole words, so the cut of the last word never
happens. -/
theorem availableWord_eq (L : PmmLimit) (s : Pmm) (word : ℕ) :
    availableWord L s word = ~~~(s.bitmap word) := by
  rw [availableWord, if_neg (by rw [L.whole]; simp)]

/-- The pages below the limit whose `bitmap` bit is clear. -/
def freeSet (L : PmmLimit) (s : Pmm) : Finset ℕ :=
  (Finset.range L.pages).filter fun p => pageBit s.bitmap p = false

theorem mem_freeSet {L : PmmLimit} {s : Pmm} {p : ℕ} :
    p ∈ freeSet L s ↔ p < L.pages ∧ pageBit s.bitmap p = false := by
  rw [freeSet, Finset.mem_filter, Finset.mem_range]

theorem availableCount_toNat (L : PmmLimit) (s : Pmm) (n : ℕ) (hn : n ≤ L.words) :
    (availableCount L s n).toNat = Nat.count (fun p => pageBit s.bitmap p = false) (64 * n) := by
  have hsmall := L.small
  have hwords := L.words_mul
  induction n with
  | zero => rfl
  | succ n ih =>
    have hword : Nat.count (fun k => pageBit s.bitmap (64 * n + k) = false) 64 =
        countBits64 (availableWord L s n) := by
      rw [countBits64_eq, availableWord_eq, Nat.count_eq_card_filter_range]
      congr 1
      ext k
      rw [Words.mem_bits, BitVec.getLsbD_not, Finset.mem_filter, Finset.mem_range, pageBit]
      constructor
      · rintro ⟨hk, h⟩
        rw [show (64 * n + k) / 64 = n by omega, show (64 * n + k) % 64 = k by omega] at h
        rw [h, decide_eq_true hk]; rfl
      · intro h
        simp only [Bool.and_eq_true, decide_eq_true_iff, Bool.not_eq_true'] at h
        refine ⟨h.1, ?_⟩
        rw [show (64 * n + k) / 64 = n by omega, show (64 * n + k) % 64 = k by omega]
        exact h.2
    have hle : countBits64 (availableWord L s n) ≤ 64 := by
      rw [countBits64_eq]; exact Words.card_bits_le _
    have hcount : Nat.count (fun p => pageBit s.bitmap p = false) (64 * n) ≤ 64 * n :=
      Nat.count_le _
    rw [availableCount, BitVec.toNat_add, ih (by omega), BitVec.toNat_ofNat,
      show 64 * (n + 1) = 64 * n + 64 by ring, Nat.count_add, hword]
    omega

/-- `recompute_free_count` counts the clear bits below the limit. -/
theorem recomputeFreeCount_toNat (L : PmmLimit) (s : Pmm) :
    (recomputeFreeCount L s).freeCount.toNat = (freeSet L s).card := by
  rw [recomputeFreeCount, availableCount_toNat L s _ le_rfl, L.words_mul,
    Nat.count_eq_card_filter_range, freeSet]

/-- `s'` is `s` with page `p` handed out. -/
structure Takes (s s' : Pmm) (p : ℕ) : Prop where
  bitmap : ∀ q, pageBit s'.bitmap q = (pageBit s.bitmap q || decide (q = p))
  allocated : ∀ q, pageBit s'.allocatedBitmap q = (pageBit s.allocatedBitmap q || decide (q = p))
  reserved : s'.reservedBitmap = s.reservedBitmap
  pageCount : s'.pageCount = s.pageCount
  freeCount : s'.freeCount = if s.freeCount ≠ 0 then s.freeCount - 1 else s.freeCount

theorem pageBit_set (b : ℕ → U64) {word bit : ℕ} (hbit : bit < 64) (q : ℕ) :
    pageBit (Function.update b word (b word ||| (1 : U64) <<< bit)) q =
      (pageBit b q || decide (q = 64 * word + bit)) := by
  have heq : q = 64 * word + bit ↔ q / 64 = word ∧ q % 64 = bit := by omega
  rw [pageBit_update, show decide (q = 64 * word + bit) = decide (q / 64 = word ∧ q % 64 = bit) from
    decide_eq_decide.2 heq]
  by_cases hw : q / 64 = word
  · subst hw
    rw [if_pos rfl, BitVec.getLsbD_or, Words.getLsbD_one_shiftLeft hbit, pageBit]
    simp only [true_and]
  · simp [hw]

/-- The search from a word on, all pages before being taken: it finds the lowest free page, if there
is one. -/
theorem allocPageFrom_spec (L : PmmLimit) (s : Pmm) (n word : ℕ) (hn : word + n = L.words)
    (hlow : ∀ p < 64 * word, pageBit s.bitmap p = true) :
    (freeSet L s = ∅ ∧ allocPageFrom L s n word = (0, s)) ∨
      ∃ p ∈ freeSet L s, (∀ q ∈ freeSet L s, p ≤ q) ∧
        (allocPageFrom L s n word).1 = BitVec.ofNat 64 (4096 * p) ∧
          Takes s (allocPageFrom L s n word).2 p := by
  have hwords := L.words_mul
  induction n generalizing word with
  | zero =>
    refine Or.inl ⟨Finset.eq_empty_of_forall_notMem fun p hp => ?_, rfl⟩
    obtain ⟨hlt, hbit⟩ := mem_freeSet.1 hp
    rw [hlow p (by omega)] at hbit
    exact Bool.noConfusion hbit
  | succ n ih =>
    rw [allocPageFrom]
    simp only [availableWord_eq]
    by_cases h0 : ~~~(s.bitmap word) = 0
    · rw [if_pos h0]
      refine ih (word + 1) (by omega) fun p hp => ?_
      by_cases hpw : p < 64 * word
      · exact hlow p hpw
      · have hbit := congrArg (fun v : U64 => v.getLsbD (p % 64)) h0
        have hmod : p % 64 < 64 := Nat.mod_lt _ (by decide)
        simp only [BitVec.getLsbD_not, hmod, decide_true, Bool.true_and, BitVec.ofNat_eq_ofNat,
          BitVec.getLsbD_zero, Bool.not_eq_false'] at hbit
        rw [pageBit, show p / 64 = word by omega]
        exact hbit
    · rw [if_neg h0]
      obtain ⟨hset, hlowest⟩ := firstSetBit64_spec h0
      set bit := firstSetBit64 (~~~(s.bitmap word)) with hbitdef
      have hbit : bit < 64 := BitVec.lt_of_getLsbD hset
      have hclear : pageBit s.bitmap (64 * word + bit) = false := by
        rw [pageBit, show (64 * word + bit) / 64 = word by omega,
          show (64 * word + bit) % 64 = bit by omega]
        simpa [BitVec.getLsbD_not, hbit] using hset
      refine Or.inr ⟨64 * word + bit, mem_freeSet.2 ⟨by omega, hclear⟩, fun q hq => ?_, ?_,
        ⟨fun q => pageBit_set _ hbit q, fun q => pageBit_set _ hbit q, rfl, rfl, rfl⟩⟩
      · obtain ⟨_, hq⟩ := mem_freeSet.1 hq
        by_contra hlt
        by_cases hqw : q < 64 * word
        · rw [hlow q hqw] at hq; exact Bool.noConfusion hq
        · have := hlowest (q - 64 * word) (by omega)
          rw [pageBit, show q / 64 = word by omega, show q % 64 = q - 64 * word by omega] at hq
          rw [BitVec.getLsbD_not, hq, decide_eq_true (by omega)] at this
          exact Bool.noConfusion this
      · have := L.small
        apply BitVec.eq_of_toNat_eq
        simp only [BitVec.ofNat_eq_ofNat, BitVec.toNat_mul, BitVec.toNat_add, BitVec.toNat_ofNat]
        omega

/-- **`pmm_alloc_page` hands out the lowest free page**, or returns null and
changes nothing when there is none. -/
theorem pmmAllocPage_spec (L : PmmLimit) (s : Pmm) :
    (freeSet L s = ∅ ∧ pmmAllocPage L s = (0, s)) ∨
      ∃ p ∈ freeSet L s, (∀ q ∈ freeSet L s, p ≤ q) ∧
        (pmmAllocPage L s).1 = BitVec.ofNat 64 (4096 * p) ∧ Takes s (pmmAllocPage L s).2 p :=
  allocPageFrom_spec L s L.words 0 (Nat.zero_add _) fun p hp => by omega

/-! ### Giving pages back, and starting over -/

/-- `s'` is `s` with page `p` given back: it leaves `allocated_bitmap`, and
becomes available unless it is reserved. -/
structure GivesBack (s s' : Pmm) (p : ℕ) : Prop where
  bitmap : ∀ q, pageBit s'.bitmap q =
    (pageBit s.bitmap q && !(decide (q = p) && !pageBit s.reservedBitmap p))
  allocated : ∀ q, pageBit s'.allocatedBitmap q = (pageBit s.allocatedBitmap q && !decide (q = p))
  reserved : s'.reservedBitmap = s.reservedBitmap
  pageCount : s'.pageCount = s.pageCount
  freeCount : s'.freeCount = if pageBit s.reservedBitmap p then s.freeCount else s.freeCount + 1

theorem pageBit_clear (b : ℕ → U64) {word bit : ℕ} (hbit : bit < 64) (q : ℕ) :
    pageBit (Function.update b word (b word &&& ~~~((1 : U64) <<< bit))) q =
      (pageBit b q && !decide (q = 64 * word + bit)) := by
  have heq : q = 64 * word + bit ↔ q / 64 = word ∧ q % 64 = bit := by omega
  rw [pageBit_update, show decide (q = 64 * word + bit) = decide (q / 64 = word ∧ q % 64 = bit) from
    decide_eq_decide.2 heq]
  by_cases hw : q / 64 = word
  · subst hw
    have hmod : q % 64 < 64 := Nat.mod_lt _ (by decide)
    rw [if_pos rfl, BitVec.getLsbD_and, BitVec.getLsbD_not, Words.getLsbD_one_shiftLeft hbit,
      pageBit]
    simp only [hmod, decide_true, Bool.true_and, true_and]
  · simp [hw]

/-- Giving back a page that has just been handed out leaves everything as it was. -/
theorem GivesBack.undo {s s₁ s₂ : Pmm} {p : ℕ} (hg : GivesBack s₁ s₂ p) (ht : Takes s s₁ p)
    (hbitmap : pageBit s.bitmap p = false) (hallocated : pageBit s.allocatedBitmap p = false)
    (hreserved : pageBit s.reservedBitmap p = false) (hcount : s.freeCount ≠ 0) : s₂ = s := by
  have hb : s₂.bitmap = s.bitmap := pageBit_ext fun q => by
    rw [hg.bitmap, ht.bitmap, ht.reserved, hreserved]
    rcases eq_or_ne q p with rfl | hne
    · rw [hbitmap]
      simp
    · simp [hne]
  have ha : s₂.allocatedBitmap = s.allocatedBitmap := pageBit_ext fun q => by
    rw [hg.allocated, ht.allocated]
    rcases eq_or_ne q p with rfl | hne
    · rw [hallocated]
      simp
    · simp [hne]
  have hr : s₂.reservedBitmap = s.reservedBitmap := hg.reserved.trans ht.reserved
  have hp : s₂.pageCount = s.pageCount := hg.pageCount.trans ht.pageCount
  have hf : s₂.freeCount = s.freeCount := by
    rw [hg.freeCount, ht.reserved, hreserved, ht.freeCount, if_pos hcount, if_neg Bool.noConfusion,
      BitVec.sub_add_cancel]
  cases s
  cases s₂
  exact Pmm.mk.injEq .. ▸ ⟨hb, hr, ha, hp, hf⟩

/-- The low twelve bits of an address. -/
theorem toNat_and_pageMask (address : U64) : (address &&& 4095).toNat = address.toNat % 4096 :=
  Words.toNat_and_low address (show 12 ≤ 64 by decide)

/-- The alignment test of the source. -/
theorem and_pageMask_eq_zero_iff (address : U64) :
    address &&& 4095 = 0 ↔ address.toNat % 4096 = 0 := by
  rw [← toNat_and_pageMask, ← BitVec.toNat_inj]; rfl

/-- `pmm_free_page` of anything but the address of a page that is handed out
changes nothing. -/
theorem pmmFreePage_of_not_live (L : PmmLimit) (s : Pmm) (address : U64)
    (h : ∀ p < L.pages, address.toNat = 4096 * p → pageBit s.allocatedBitmap p = false) :
    pmmFreePage L s address = s := by
  have hsmall := L.small
  unfold pmmFreePage
  by_cases halign : address &&& 4095 ≠ 0
  · rw [if_pos halign]
  rw [if_neg halign]
  simp only
  by_cases hrange : BitVec.ofNat 64 L.pages ≤ address / 4096
  · rw [if_pos hrange]
  rw [if_neg hrange]
  have hlow := (and_pageMask_eq_zero_iff address).1 (not_not.1 halign)
  have hdiv : (address / 4096).toNat = address.toNat / 4096 := BitVec.toNat_udiv
  have hlt : address.toNat / 4096 < L.pages := by
    rw [BitVec.le_def, hdiv, BitVec.toNat_ofNat] at hrange
    omega
  have hbit := h _ hlt (by omega)
  have hword : (address / 4096 / 64).toNat = address.toNat / 4096 / 64 := by
    rw [BitVec.toNat_udiv, hdiv]; rfl
  have hmod : (address / 4096 % 64).toNat = address.toNat / 4096 % 64 := by
    rw [BitVec.toNat_umod, hdiv]; rfl
  rw [hword, hmod, if_pos]
  rw [Words.and_one_shiftLeft_eq_zero_iff (Nat.mod_lt _ (by decide))]
  exact hbit

/-- `pmm_free_page` of a page that is handed out gives it back. -/
theorem pmmFreePage_of_live (L : PmmLimit) (s : Pmm) {p : ℕ} (hp : p < L.pages)
    (hlive : pageBit s.allocatedBitmap p = true) :
    GivesBack s (pmmFreePage L s (BitVec.ofNat 64 (4096 * p))) p := by
  have hsmall := L.small
  have haddr : (BitVec.ofNat 64 (4096 * p)).toNat = 4096 * p := by
    rw [BitVec.toNat_ofNat, Nat.mod_eq_of_lt (by omega)]
  generalize BitVec.ofNat 64 (4096 * p) = address at haddr ⊢
  have halign := (and_pageMask_eq_zero_iff address).2 (by omega)
  have hdiv : (address / 4096).toNat = p := by
    rw [BitVec.toNat_udiv, haddr]; simp
  have hrange : ¬ BitVec.ofNat 64 L.pages ≤ address / 4096 := by
    rw [BitVec.le_def, hdiv, BitVec.toNat_ofNat]
    omega
  have hword : (address / 4096 / 64).toNat = p / 64 := by rw [BitVec.toNat_udiv, hdiv]; rfl
  have hmod : (address / 4096 % 64).toNat = p % 64 := by rw [BitVec.toNat_umod, hdiv]; rfl
  have hbit : p % 64 < 64 := Nat.mod_lt _ (by decide)
  have hsplit : 64 * (p / 64) + p % 64 = p := Nat.div_add_mod p 64
  have hlive' : ¬ s.allocatedBitmap (p / 64) &&& (1 : U64) <<< (p % 64) = 0 := by
    rw [Words.and_one_shiftLeft_eq_zero_iff hbit]
    intro h
    rw [pageBit, h] at hlive
    exact Bool.noConfusion hlive
  unfold pmmFreePage
  rw [if_neg (not_not.2 halign)]
  simp only
  rw [if_neg hrange, hword, hmod, if_neg hlive']
  by_cases hres : s.reservedBitmap (p / 64) &&& (1 : U64) <<< (p % 64) = 0
  · rw [if_neg (not_not.2 hres)]
    rw [Words.and_one_shiftLeft_eq_zero_iff hbit] at hres
    have hres' : pageBit s.reservedBitmap p = false := hres
    refine ⟨fun q => ?_, fun q => ?_, rfl, rfl, by rw [hres']; rfl⟩
    · rw [pageBit_clear _ hbit, hsplit, hres']; simp
    · rw [pageBit_clear _ hbit, hsplit]
  · rw [if_pos hres]
    rw [Words.and_one_shiftLeft_eq_zero_iff hbit, Bool.not_eq_false] at hres
    have hres' : pageBit s.reservedBitmap p = true := hres
    refine ⟨fun q => by rw [hres']; simp, fun q => ?_, rfl, rfl, by rw [hres']; rfl⟩
    rw [pageBit_clear _ hbit, hsplit]

theorem resetWords_spec (n : ℕ) (s : Pmm) {p : ℕ} (hp : p / 64 < n) :
    pageBit (resetWords n s).bitmap p = true ∧ pageBit (resetWords n s).reservedBitmap p = false ∧
      pageBit (resetWords n s).allocatedBitmap p = false := by
  induction n with
  | zero => omega
  | succ n ih =>
    have hmod : p % 64 < 64 := Nat.mod_lt _ (by decide)
    rw [resetWords]
    simp only [pageBit_update]
    by_cases hw : p / 64 = n
    · rw [if_pos hw, if_pos hw, if_pos hw, BitVec.getLsbD_allOnes]
      simp [hmod]
    · rw [if_neg hw, if_neg hw, if_neg hw]
      exact ih (by omega)

/-- After `pmm_reset` no page is available, reserved or handed out. -/
theorem pmmReset_spec (L : PmmLimit) (s : Pmm) {p : ℕ} (hp : p < L.pages) :
    pageBit (pmmReset L s).bitmap p = true ∧ pageBit (pmmReset L s).reservedBitmap p = false ∧
      pageBit (pmmReset L s).allocatedBitmap p = false :=
  resetWords_spec L.words s (by have := L.words_mul; omega)

end Mm
end SuiraBox
