/-
# User address spaces

`kernel/mm/address_space.c`: four-level page tables in physical memory, which
the kernel reaches through its identity mapping.  A table is named by its
physical address; slot `i` of the table at `f` is the quadword at `f + 8 i`.

Slot 0 of a PML4 is the kernel's own, slot 1 holds the user mappings and the
other slots stay empty.  `nextTable` is the step from a table to what a present
entry points to; following it from a PML4 along the four indices of a virtual
address is what `address_space_translate_user` does.
-/

import SuiraBox.Library.ByteMem
import SuiraBox.Library.Forest
import SuiraBox.Mm.PageSets

namespace SuiraBox.Mm

open ByteMem

/-- Physical memory and its allocator. -/
structure Phys where
  mem : Mem
  pmm : Pmm

/-- `SB_VMM_PRESENT`. -/
def vmmPresent : U64 := (1 : U64) <<< 0

/-- `SB_VMM_WRITABLE`. -/
def vmmWritable : U64 := (1 : U64) <<< 1

/-- `SB_VMM_USER`. -/
def vmmUser : U64 := (1 : U64) <<< 2

/-- The page-size bit of an entry that points to a table. -/
def entryLarge : U64 := (1 : U64) <<< 7

/-- `SB_VMM_NX`. -/
def vmmNx : U64 := (1 : U64) <<< 63

/-- `ENTRY_ADDR_MASK`. -/
def entryAddrMask : U64 := 0x000FFFFFFFFFF000

/-- `PAGE_OFFSET_MASK`. -/
def pageOffsetMask : U64 := 0xFFF

/-- `SB_USER_BASE`. -/
def userBase : U64 := 0x0000008000000000

/-- `SB_USER_STACK_TOP`. -/
def userStackTop : U64 := 0x0000008000100000

/-- `SB_USER_PML4_INDEX`. -/
def userPml4Index : ℕ := 1

/-- `SB_USER_LIMIT`. -/
def userLimit : U64 := 0x0000800000000000

/-- `table_from_entry`. -/
def tableFromEntry (entry : U64) : U64 := entry &&& entryAddrMask

/-- `table[index]`. -/
def slot (m : Mem) (table index : ℕ) : U64 := read64 m (table + 8 * index)

/-- `table[index] = value`. -/
def setSlot (m : Mem) (table index : ℕ) (value : U64) : Mem := write64 m (table + 8 * index) value

/-- The first `n` rounds of `zero_page`. -/
def zeroSlots (m : Mem) (page : ℕ) : ℕ → Mem
  | 0 => m
  | n + 1 => setSlot (zeroSlots m page n) page n 0

/-- `zero_page`. -/
def zeroPage (m : Mem) (page : ℕ) : Mem := zeroSlots m page 512

/-- `ensure_table`: the address of the table, `0` for the null pointer. -/
def ensureTable (σ : Phys) (table : U64) (index : ℕ) (flags : U64) : U64 × Phys :=
  let entry := slot σ.mem table.toNat index
  if entry &&& vmmPresent ≠ 0 then
    if entry &&& entryLarge ≠ 0 then (0, σ)
    else
      let m := setSlot σ.mem table.toNat index (entry ||| (flags &&& (vmmWritable ||| vmmUser)))
      (tableFromEntry (slot m table.toNat index), { σ with mem := m })
  else
    let (page, pmm) := pmmAllocPage bootstrapLimit σ.pmm
    if page = 0 then (0, { σ with pmm := pmm })
    else
      let m := zeroPage σ.mem page.toNat
      (page, ⟨setSlot m table.toNat index
        ((page &&& entryAddrMask) ||| vmmPresent ||| (flags &&& (vmmWritable ||| vmmUser))), pmm⟩)

/-- `pml4_index`. -/
def pml4Index (address : U64) : ℕ := ((address >>> 39) &&& 0x1FF).toNat

/-- `pdpt_index`. -/
def pdptIndex (address : U64) : ℕ := ((address >>> 30) &&& 0x1FF).toNat

/-- `pd_index`. -/
def pdIndex (address : U64) : ℕ := ((address >>> 21) &&& 0x1FF).toNat

/-- `pt_index`. -/
def ptIndex (address : U64) : ℕ := ((address >>> 12) &&& 0x1FF).toNat

/-- `address_space_create`: the new `pml4_physical`, or `none` for `-1`. -/
def addressSpaceCreate (σ : Phys) (currentCr3 : U64) : Option U64 × Phys :=
  let (page, pmm) := pmmAllocPage bootstrapLimit σ.pmm
  if page = 0 then (none, { σ with pmm := pmm })
  else
    let m := zeroPage σ.mem page.toNat
    let current := currentCr3 &&& entryAddrMask
    (some page, ⟨setSlot m page.toNat 0 (slot m current.toNat 0), pmm⟩)

/-- The root of a new address space is a page of the allocator. -/
theorem addressSpaceCreate_fst_eq (σ : Phys) (cr3 : U64) : (addressSpaceCreate σ cr3).1 =
    if (pmmAllocPage bootstrapLimit σ.pmm).1 = 0 then none
    else some (pmmAllocPage bootstrapLimit σ.pmm).1 := by
  rw [addressSpaceCreate]
  rcases pmmAllocPage bootstrapLimit σ.pmm with ⟨page, pmm⟩
  dsimp only
  split_ifs
  · rfl
  · rfl

/-- `address_space_map_user`, with its return value. -/
def addressSpaceMapUser (σ : Phys) (pml4 va pa flags : U64) : ℤ × Phys :=
  if va &&& pageOffsetMask ≠ 0 ∨ pa &&& pageOffsetMask ≠ 0 ∨ pml4Index va ≠ userPml4Index ∨
      userLimit ≤ va then (-1, σ)
  else
    let userFlags := flags ||| vmmUser
    let (pdpt, σ) := ensureTable σ pml4 (pml4Index va) userFlags
    if pdpt = 0 then (-1, σ)
    else
      let (pd, σ) := ensureTable σ pdpt (pdptIndex va) userFlags
      if pd = 0 then (-1, σ)
      else
        let (pt, σ) := ensureTable σ pd (pdIndex va) userFlags
        if pt = 0 then (-1, σ)
        else if slot σ.mem pt.toNat (ptIndex va) &&& vmmPresent ≠ 0 then (-2, σ)
        else (0, { σ with
          mem := setSlot σ.mem pt.toNat (ptIndex va)
            ((pa &&& entryAddrMask) ||| vmmPresent ||| vmmUser |||
              (flags &&& (vmmWritable ||| vmmNx))) })

/-- The test `(e & (PRESENT | USER)) == (PRESENT | USER)`. -/
def userEntry (e : U64) : Bool := e &&& (vmmPresent ||| vmmUser) == vmmPresent ||| vmmUser

/-- `address_space_translate_user`: the physical address, or `none` for `-1`. -/
def addressSpaceTranslateUser (m : Mem) (pml4 va : U64) : Option U64 :=
  if pml4Index va ≠ userPml4Index ∨ userLimit ≤ va then none
  else
    let e4 := slot m pml4.toNat (pml4Index va)
    if !userEntry e4 then none
    else
      let e3 := slot m (tableFromEntry e4).toNat (pdptIndex va)
      if !userEntry e3 then none
      else
        let e2 := slot m (tableFromEntry e3).toNat (pdIndex va)
        if !userEntry e2 then none
        else
          let e1 := slot m (tableFromEntry e2).toNat (ptIndex va)
          if !userEntry e1 then none
          else some ((e1 &&& entryAddrMask) ||| (va &&& pageOffsetMask))

/-- `address_space_destroy`; the new `pml4_physical` is `0`. -/
def addressSpaceDestroy (σ : Phys) (pml4 : U64) : Phys :=
  if pml4 = 0 then σ else { σ with pmm := pmmFreePage bootstrapLimit σ.pmm pml4 }

/-- The way down: `ensure_table` along a path, until it fails. -/
def ensurePath (flags : U64) : List ℕ → U64 → Phys → U64 × Phys
  | [], table, σ => (table, σ)
  | i :: path, table, σ =>
    let (next, σ) := ensureTable σ table i flags
    if next = 0 then (0, σ) else ensurePath flags path next σ

/-- The three tables of a virtual address. -/
def tablePathOf (va : U64) : List ℕ := [pml4Index va, pdptIndex va, pdIndex va]

/-- The end of the way: the slot of the last table, unless the way was lost or
the slot is taken. -/
def mapLeaf (index : ℕ) (entry : U64) (r : U64 × Phys) : ℤ × Phys :=
  if r.1 = 0 then (-1, r.2)
  else if slot r.2.mem r.1.toNat index &&& vmmPresent ≠ 0 then (-2, r.2)
  else (0, { r.2 with mem := setSlot r.2.mem r.1.toNat index entry })

/-- The leaf entry for page `pa`. -/
def leafEntry (pa flags : U64) : U64 :=
  (pa &&& entryAddrMask) ||| vmmPresent ||| vmmUser ||| (flags &&& (vmmWritable ||| vmmNx))

/-- The flags that `address_space_map_user` hands on have the user bit. -/
theorem getLsbD_or_vmmUser (flags : U64) : (flags ||| vmmUser).getLsbD 2 = true := by
  rw [BitVec.getLsbD_or, show vmmUser.getLsbD 2 = true from by decide, Bool.or_true]

/-- Three tables down and one slot, as the two map functions write it. -/
theorem mapLeaf_ensurePath (σ : Phys) (table flags entry : U64) (i₄ i₃ i₂ i₁ : ℕ) :
    (let (pdpt, σ) := ensureTable σ table i₄ flags
      if pdpt = 0 then ((-1 : ℤ), σ)
      else
        let (pd, σ) := ensureTable σ pdpt i₃ flags
        if pd = 0 then (-1, σ)
        else
          let (pt, σ) := ensureTable σ pd i₂ flags
          if pt = 0 then (-1, σ)
          else if slot σ.mem pt.toNat i₁ &&& vmmPresent ≠ 0 then (-2, σ)
          else (0, { σ with mem := setSlot σ.mem pt.toNat i₁ entry })) =
      mapLeaf i₁ entry (ensurePath flags [i₄, i₃, i₂] table σ) := by
  rw [ensurePath]
  dsimp only
  generalize ensureTable σ table i₄ flags = r₁
  rcases eq_or_ne r₁.1 0 with h₁ | h₁
  · rw [if_pos h₁, if_pos h₁, mapLeaf, if_pos rfl]
  rw [if_neg h₁, if_neg h₁, ensurePath]
  dsimp only
  generalize ensureTable r₁.2 r₁.1 i₃ flags = r₂
  rcases eq_or_ne r₂.1 0 with h₂ | h₂
  · rw [if_pos h₂, if_pos h₂, mapLeaf, if_pos rfl]
  rw [if_neg h₂, if_neg h₂, ensurePath]
  dsimp only
  generalize ensureTable r₂.2 r₂.1 i₂ flags = r₃
  rcases eq_or_ne r₃.1 0 with h₃ | h₃
  · rw [if_pos h₃, if_pos h₃, mapLeaf, if_pos rfl]
  rw [if_neg h₃, if_neg h₃, ensurePath, mapLeaf, if_neg h₃]

/-- `address_space_map_user` goes down to the last table and sets the leaf. -/
theorem addressSpaceMapUser_eq (σ : Phys) (pml4 va pa flags : U64) :
    addressSpaceMapUser σ pml4 va pa flags =
      if va &&& pageOffsetMask ≠ 0 ∨ pa &&& pageOffsetMask ≠ 0 ∨ pml4Index va ≠ userPml4Index ∨
          userLimit ≤ va then (-1, σ)
      else mapLeaf (ptIndex va) (leafEntry pa flags)
        (ensurePath (flags ||| vmmUser) (tablePathOf va) pml4 σ) := by
  rw [tablePathOf, ← mapLeaf_ensurePath]
  rfl

/-! ### Entries -/

/-- The test for a present entry looks at bit 0. -/
theorem present_iff (e : U64) : e &&& vmmPresent ≠ 0 ↔ e.getLsbD 0 = true :=
  Words.and_one_shiftLeft_ne_zero_iff (by decide) e

/-- The test for a large page looks at bit 7. -/
theorem large_iff (e : U64) : e &&& entryLarge ≠ 0 ↔ e.getLsbD 7 = true :=
  Words.and_one_shiftLeft_ne_zero_iff (by decide) e

/-- An entry is missing when bit 0 is clear. -/
theorem absent_iff (e : U64) : e &&& vmmPresent = 0 ↔ e.getLsbD 0 = false := by
  rw [← Bool.not_eq_true, ← present_iff, not_not]

/-- An entry is no large page when bit 7 is clear. -/
theorem small_iff (e : U64) : e &&& entryLarge = 0 ↔ e.getLsbD 7 = false := by
  rw [← Bool.not_eq_true, ← large_iff, not_not]

/-- The test for a user entry looks at bits 0 and 2. -/
theorem userEntry_iff (e : U64) : userEntry e = true ↔ e.getLsbD 0 = true ∧ e.getLsbD 2 = true := by
  have hmask : ∀ i, (vmmPresent ||| vmmUser).getLsbD i = (decide (i = 0) || decide (i = 2)) := by
    intro i
    rw [BitVec.getLsbD_or, vmmPresent, vmmUser, Words.getLsbD_one_shiftLeft (by decide),
      Words.getLsbD_one_shiftLeft (by decide)]
  rw [userEntry, beq_iff_eq]
  constructor
  · intro h
    have hbit : ∀ i, (e.getLsbD i && (decide (i = 0) || decide (i = 2))) =
        (decide (i = 0) || decide (i = 2)) := by
      intro i
      have := congrArg (BitVec.getLsbD · i) h
      rwa [BitVec.getLsbD_and, hmask] at this
    exact ⟨by simpa using hbit 0, by simpa using hbit 2⟩
  · rintro ⟨h₀, h₂⟩
    refine BitVec.eq_of_getLsbD_eq fun i _ => ?_
    rw [BitVec.getLsbD_and, hmask]
    rcases eq_or_ne i 0 with rfl | hi
    · rw [h₀]
      rfl
    · rcases eq_or_ne i 2 with rfl | hi'
      · rw [h₂]
        rfl
      · simp [hi, hi']

/-- An entry holds bits 12 to 51 of an address. -/
theorem toNat_tableFromEntry (e : U64) :
    (tableFromEntry e).toNat = e.toNat / 4096 % 2 ^ 40 * 4096 := by
  rw [tableFromEntry, BitVec.toNat_and]
  exact Words.land_run e.toNat 12 40

/-- Flag bits do not change the address of an entry. -/
theorem tableFromEntry_or (e f : U64) (h : f &&& entryAddrMask = 0) :
    tableFromEntry (e ||| f) = tableFromEntry e := by
  refine BitVec.eq_of_getLsbD_eq fun i hi => ?_
  have hbit := congrArg (BitVec.getLsbD · i) h
  simp only [BitVec.getLsbD_and, BitVec.ofNat_eq_ofNat, BitVec.getLsbD_zero] at hbit
  rw [tableFromEntry, tableFromEntry, BitVec.getLsbD_and, BitVec.getLsbD_and, BitVec.getLsbD_or,
    Bool.and_or_distrib_right, hbit, Bool.or_false]

/-- A page address is its own address field. -/
theorem tableFromEntry_page {page : U64} (halign : page.toNat % 4096 = 0)
    (hsmall : page.toNat < 2 ^ 52) : tableFromEntry page = page := by
  apply BitVec.eq_of_toNat_eq
  rw [toNat_tableFromEntry]
  omega

/-- An entry made of a page address, fixed bits and some of the bits of `flags`,
all outside the address field. -/
theorem entry_spec (page flags fixed chosen : U64) (halign : page.toNat % 4096 = 0)
    (hsmall : page.toNat < 2 ^ 52) (hfixed : fixed &&& entryAddrMask = 0)
    (hchosen : chosen &&& entryAddrMask = 0) :
    tableFromEntry ((page &&& entryAddrMask) ||| fixed ||| (flags &&& chosen)) = page ∧
    ∀ i, entryAddrMask.getLsbD i = false →
      ((page &&& entryAddrMask) ||| fixed ||| (flags &&& chosen)).getLsbD i =
        (fixed.getLsbD i || flags.getLsbD i && chosen.getLsbD i) := by
  have hpage : page &&& entryAddrMask = page := tableFromEntry_page halign hsmall
  have hflags : (flags &&& chosen) &&& entryAddrMask = 0 := by
    rw [BitVec.and_assoc, hchosen]
    exact BitVec.and_zero
  constructor
  · rw [tableFromEntry_or _ _ hflags, tableFromEntry_or _ _ hfixed, hpage]
    exact hpage
  · intro i hi
    rw [BitVec.getLsbD_or, BitVec.getLsbD_or, BitVec.getLsbD_and, BitVec.getLsbD_and, hi,
      Bool.and_false, Bool.false_or]

/-! ### Slots of tables -/

theorem slot_setSlot (m : Mem) (table index : ℕ) (value : U64) :
    slot (setSlot m table index value) table index = value := read64_write64 ..

/-- The bytes of slot `index` of the table at `table`, a page address. -/
theorem slot_congr {m m' : Mem} {table index : ℕ} (halign : table % 4096 = 0) (hindex : index < 512)
    (h : ∀ x, x / 4096 = table / 4096 → m' x = m x) : slot m' table index = slot m table index :=
  read64_congr fun x h₁ h₂ => h x (by omega)

/-- Writing a slot changes no byte outside its page. -/
theorem setSlot_of_ne {m : Mem} {table index x : ℕ} {value : U64} (halign : table % 4096 = 0)
    (hindex : index < 512) (hx : x / 4096 ≠ table / 4096) : setSlot m table index value x = m x :=
  write64_of_outside m value (by omega)

theorem slot_setSlot_of_ne {m : Mem} {table index table' index' : ℕ} {value : U64}
    (halign : table % 4096 = 0) (halign' : table' % 4096 = 0) (hindex : index < 512)
    (hindex' : index' < 512) (hne : (table', index') ≠ (table, index)) :
    slot (setSlot m table index value) table' index' = slot m table' index' := by
  refine read64_write64_of_apart m value ?_
  rcases Nat.lt_trichotomy table table' with h | h | h
  · omega
  · have : index ≠ index' := fun he => hne (by rw [h, he])
    omega
  · omega

theorem zeroSlots_apply (m : Mem) (page n x : ℕ) :
    zeroSlots m page n x = if page ≤ x ∧ x < page + 8 * n then 0 else m x := by
  induction n with
  | zero => rw [zeroSlots, if_neg (by omega)]
  | succ n ih =>
    rw [zeroSlots, setSlot, write64_zero, ih]
    split_ifs <;> first | rfl | omega

/-- `zero_page` clears the page and nothing else. -/
theorem zeroPage_apply {page : ℕ} (halign : page % 4096 = 0) (m : Mem) (x : ℕ) :
    zeroPage m page x = if x / 4096 = page / 4096 then 0 else m x := by
  rw [zeroPage, zeroSlots_apply]
  refine if_congr ?_ rfl rfl
  omega

theorem slot_zeroPage {page index : ℕ} (halign : page % 4096 = 0) (hindex : index < 512) (m : Mem) :
    slot (zeroPage m page) page index = 0 :=
  read64_eq_zero fun x h₁ h₂ => by
    rw [zeroPage_apply halign, if_pos (by omega)]

/-! ### Indices and paths -/

theorem toNat_index (address : U64) (k : ℕ) :
    ((address >>> k) &&& 0x1FF).toNat = address.toNat / 2 ^ k % 512 := by
  rw [← Nat.shiftRight_eq_div_pow, ← BitVec.toNat_ushiftRight]
  exact Words.toNat_and_low _ (show 9 ≤ 64 by decide)

/-- The four indices of a virtual address. -/
def pathOf (va : U64) : List ℕ := [pml4Index va, pdptIndex va, pdIndex va, ptIndex va]

/-- A path inside PML4 slot 1, of at most four steps. -/
def UserPath (p : List ℕ) : Prop :=
  p.length ≤ 4 ∧ (∀ i ∈ p, i < 512) ∧ ∀ i, p.head? = some i → i = userPml4Index

/-- What a present entry points to. -/
def nextTable (m : Mem) (table index : ℕ) : Option ℕ :=
  if slot m table index &&& vmmPresent ≠ 0 then some (tableFromEntry (slot m table index)).toNat
  else none

/-- An index is that of a slot. -/
theorem index_lt (address : U64) (n : ℕ) : ((address >>> n) &&& 0x1FF).toNat < 512 := by
  rw [toNat_index]
  omega

/-- Below `2 ^ 48` the four indices of an address tell its page. -/
theorem pathOf_eq_iff {va va' : U64} (h : va.toNat < 2 ^ 48) (h' : va'.toNat < 2 ^ 48) :
    pathOf va = pathOf va' ↔ va.toNat / 4096 = va'.toNat / 4096 := by
  simp only [pathOf, pml4Index, pdptIndex, pdIndex, ptIndex, toNat_index, List.cons.injEq, and_true]
  omega

/-- The path to a page is that to its last table and one more slot. -/
theorem pathOf_eq (va : U64) : pathOf va = tablePathOf va ++ [ptIndex va] := rfl

/-- All indices of an address are those of slots. -/
theorem pathOf_lt (va : U64) : ∀ i ∈ pathOf va, i < 512 := by
  intro i hi
  simp only [pathOf, List.mem_cons, List.not_mem_nil, or_false] at hi
  rcases hi with rfl | rfl | rfl | rfl <;> exact index_lt ..

/-- The frame address and the page offset do not overlap. -/
theorem toNat_physical (e va : U64) :
    ((e &&& entryAddrMask) ||| (va &&& pageOffsetMask)).toNat =
      (tableFromEntry e).toNat + va.toNat % 4096 := by
  have hdisjoint : (e &&& entryAddrMask) &&& (va &&& pageOffsetMask) = 0#64 := by
    rw [BitVec.and_assoc, BitVec.and_comm va, ← BitVec.and_assoc entryAddrMask,
      show entryAddrMask &&& pageOffsetMask = 0#64 from by decide, BitVec.zero_and, BitVec.and_zero]
  have hlow : (va &&& pageOffsetMask).toNat = va.toNat % 4096 :=
    Words.toNat_and_low va (show 12 ≤ 64 by decide)
  have hhigh := toNat_tableFromEntry e
  rw [← BitVec.add_eq_or_of_and_eq_zero _ _ hdisjoint, BitVec.toNat_add, hlow]
  rw [tableFromEntry] at hhigh ⊢
  omega

/-- What `address_space_create` makes: a PML4 in the lowest free page, with the first slot of the
current one. -/
structure NewSpace (σ : Phys) (a : PageSets) (cr3 page : U64) (σ' : Phys) : Prop where
  aligned : page.toNat % 4096 = 0
  notNull : page ≠ 0
  free : page.toNat / 4096 ∈ a.free
  lowest : ∀ q ∈ a.free, page.toNat / 4096 ≤ q
  refines : Refines bootstrapLimit σ'.pmm (a.take (page.toNat / 4096))
  other : ∀ x, x / 4096 ≠ page.toNat / 4096 → σ'.mem x = σ.mem x
  first : (cr3 &&& entryAddrMask).toNat / 4096 ≠ page.toNat / 4096 →
    slot σ'.mem page.toNat 0 = slot σ.mem (cr3 &&& entryAddrMask).toNat 0
  empty : ∀ i, 0 < i → i < 512 → slot σ'.mem page.toNat i = 0

section Create

variable {σ σ' : Phys} {a : PageSets} {cr3 page : U64} (hr : Refines bootstrapLimit σ.pmm a)

include hr in
/-- `address_space_create` has made a new space. -/
theorem addressSpaceCreate_some (h : addressSpaceCreate σ cr3 = (some page, σ')) :
    NewSpace σ a cr3 page σ' := by
  unfold addressSpaceCreate at h
  dsimp only at h
  split_ifs at h with hzero
  · exact absurd (congrArg Prod.fst h) (by simp)
  obtain ⟨hpage, rfl⟩ := Prod.mk.inj h
  obtain rfl := Option.some.inj hpage
  rcases hr.allocPage_cases with ⟨-, halloc⟩ | ⟨c, hc, hlow, haddress, hr'⟩
  · exact absurd (by rw [halloc]) hzero
  generalize pmmAllocPage bootstrapLimit σ.pmm = r at *
  have halign : r.1.toNat % 4096 = 0 := by omega
  obtain rfl : c = r.1.toNat / 4096 := by omega
  have hcurrent : (cr3 &&& entryAddrMask).toNat % 4096 = 0 := by
    rw [← tableFromEntry, toNat_tableFromEntry]
    omega
  refine ⟨halign, hzero, hc, hlow, hr', fun x hx => ?_, fun hne => ?_, fun i hi hi' => ?_⟩
  · dsimp only
    rw [setSlot_of_ne halign (by decide) hx, zeroPage_apply halign, if_neg hx]
  · dsimp only
    rw [slot_setSlot]
    refine slot_congr hcurrent (by decide) fun x hx => ?_
    rw [zeroPage_apply halign, if_neg (by rwa [hx])]
  · dsimp only
    rw [slot_setSlot_of_ne halign halign (by decide) hi' fun heq => hi.ne' (Prod.mk.inj heq).2,
      slot_zeroPage halign hi']

include hr in
/-- Where it fails, it has taken page 0 if that was free. -/
theorem addressSpaceCreate_none (h : addressSpaceCreate σ cr3 = (none, σ')) :
    σ'.mem = σ.mem ∧
      (σ' = σ ∨ ∃ c ∈ a.free, Refines bootstrapLimit σ'.pmm (a.take c)) := by
  unfold addressSpaceCreate at h
  dsimp only at h
  split_ifs at h
  · obtain ⟨-, rfl⟩ := Prod.mk.inj h
    rcases hr.allocPage_cases with ⟨-, halloc⟩ | ⟨c, hc, -, -, hr'⟩
    · exact ⟨rfl, Or.inl (by rw [halloc])⟩
    · exact ⟨rfl, Or.inr ⟨c, hc, hr'⟩⟩
  · exact absurd (congrArg Prod.fst h) (by simp)

end Create

end SuiraBox.Mm
