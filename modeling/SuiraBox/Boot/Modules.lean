/-
# Finding boot modules

`kernel/mm/multiboot_modules.c`.  `multiboot_find_module` walks the same
information block as the importer of the memory map, with weaker checks: it
takes any `total_size` of at least 16, does its offset arithmetic in 32 bits
and stops quietly at the first tag that does not fit.

An accepted block is walked by both in the same steps, and the importer has
reserved every module there is to find.  After a block that is not accepted the
allocator hands out the pages from 16 MiB to 64 MiB, and the finder still reads
the block: what it finds there, and the block itself, may be free pages.

The loops over offsets and over characters need not end on arbitrary memory.
They run on fuel, and `none` says that it ran out.
-/

import SuiraBox.Boot.Multiboot

namespace SuiraBox.Boot

open ByteMem Mm

/-- The loop of `str_equal`. -/
def strEqualLoop (m : Mem) : ℕ → U64 → U64 → Option Bool
  | 0, _, _ => none
  | fuel + 1, a, b =>
    let x := m a.toNat
    let y := m b.toNat
    if x ≠ 0 ∧ y ≠ 0 then
      if x ≠ y then some false else strEqualLoop m fuel (a + 1) (b + 1)
    else some (x == y)

/-- `str_equal`. -/
def strEqual (m : Mem) (fuel : ℕ) (a b : U64) : Option Bool :=
  if a = 0 ∨ b = 0 then some false else strEqualLoop m fuel a b

/-- The loop of `module_name`. -/
def moduleNameLoop (m : Mem) : ℕ → U64 → Option Unit
  | 0, _ => none
  | fuel + 1, p => if m p.toNat ≠ 0 ∧ m p.toNat ≠ 32 then moduleNameLoop m fuel (p + 1) else some ()

/-- `module_name`: it looks for the end of the first word and returns the whole
command line. -/
def moduleName (m : Mem) (fuel : ℕ) (cmdline : U64) : Option U64 :=
  (moduleNameLoop m fuel cmdline).map fun _ => cmdline

/-- `sb_multiboot_module_t`. -/
structure MultibootModule where
  start : U64
  stop : U64
  name : U64
  deriving DecidableEq

/-- Whether the tag at `tag` is the module asked for. -/
def moduleMatches (m : Mem) (fuel : ℕ) (tag : U64) (name : U64) : Option Bool :=
  if tagType m tag.toNat = 3 ∧ 16 ≤ tagSize m tag.toNat ∧
      modStart m tag.toNat < modEnd m tag.toNat then
    (moduleName m fuel (tag + 16)).bind fun cmdline => strEqual m fuel cmdline name
  else some false

/-- The tag loop of `multiboot_find_module`: `some none` is the return value
`-1`, `some (some module)` the return value `0`. -/
def findModuleLoop (m : Mem) (info : U64) (totalSize : U32) (name : U64) :
    ℕ → U32 → Option (Option MultibootModule)
  | 0, _ => none
  | fuel + 1, offset =>
    if totalSize.setWidth 64 < offset.setWidth 64 + (8 : U64) then some none
    else
      let tag := info + offset.setWidth 64
      let size := tagSize m tag.toNat
      if tagType m tag.toNat = 0 then some none
      else if size < 8 ∨ totalSize < offset + size then some none
      else
        match moduleMatches m fuel tag name with
        | none => none
        | some true => some (some ⟨(modStart m tag.toNat).setWidth 64,
            (modEnd m tag.toNat).setWidth 64, tag + 16⟩)
        | some false => findModuleLoop m info totalSize name fuel (offset + ((size + 7) &&& ~~~7))

/-- `multiboot_find_module`; the output pointer is not null. -/
def multibootFindModule (m : Mem) (fuel : ℕ) (info name : U64) : Option (Option MultibootModule) :=
  if info = 0 ∨ name = 0 then some none
  else
    let totalSize := read32 m info.toNat
    if totalSize < 16 then some none else findModuleLoop m info totalSize name fuel 8

/-- `multiboot_find_module` returns `0` and fills in `found`. -/
def FindsModule (m : Mem) (info name : U64) (found : MultibootModule) : Prop :=
  ∃ fuel, multibootFindModule m fuel info name = some (some found)

variable {m : Mem} {info name : U64}

/-- The loop condition of the finder. -/
theorem loop_ends_iff (total off : U32) :
    total.setWidth 64 < off.setWidth 64 + (8 : U64) ↔ total.toNat < off.toNat + 8 := by
  have h₁ : (total.setWidth 64).toNat = total.toNat := BitVec.toNat_setWidth_of_le (by decide)
  have h₂ : (off.setWidth 64).toNat = off.toNat := BitVec.toNat_setWidth_of_le (by decide)
  have hlt := off.isLt
  rw [BitVec.lt_def, h₁, BitVec.toNat_add, h₂, show (8 : U64).toNat = 8 from rfl]
  omega

/-- One round of a search that succeeds: the tag is the module asked for, or the
search goes on behind it. -/
theorem findModuleLoop_cases {total off : U32} {fuel : ℕ} {found : MultibootModule}
    (h : findModuleLoop m info total name fuel off = some (some found)) :
    ∃ fuel', fuel = fuel' + 1 ∧ tagType m (info + off.setWidth 64).toNat ≠ 0 ∧
      ((tagType m (info + off.setWidth 64).toNat = 3 ∧
        found.start = (modStart m (info + off.setWidth 64).toNat).setWidth 64 ∧
        found.stop = (modEnd m (info + off.setWidth 64).toNat).setWidth 64) ∨
      findModuleLoop m info total name fuel'
        (off + ((tagSize m (info + off.setWidth 64).toNat + 7) &&& ~~~7)) = some (some found)) := by
  cases fuel with
  | zero => exact absurd h (by simp [findModuleLoop])
  | succ fuel =>
    unfold findModuleLoop at h
    dsimp only at h
    split_ifs at h with hend htype hsize
    · exact absurd h (by simp)
    · exact absurd h (by simp)
    · exact absurd h (by simp)
    · refine ⟨fuel, rfl, htype, ?_⟩
      cases hmatch : moduleMatches m fuel (info + off.setWidth 64) name with
      | none => rw [hmatch] at h; exact absurd h (by simp)
      | some b =>
        rw [hmatch] at h
        cases b with
        | true =>
          obtain rfl : _ = found := by simpa using h
          unfold moduleMatches at hmatch
          split_ifs at hmatch with hmodule
          · exact Or.inl ⟨hmodule.1, rfl, rfl⟩
          · exact absurd hmatch (by simp)
        | false => exact Or.inr h

/-- On a walk that stays inside the block, the finder walks as the importer
does: what it finds is a module tag of the walk. -/
theorem findModuleLoop_reaches {total off : U32} (hinfo : info.toNat < 2 ^ 30)
    (htotal : total.toNat ≤ 65536) (hoff : off.toNat ≤ total.toNat)
    (hin : WalkInside m info.toNat total.toNat off.toNat) {fuel : ℕ} {found : MultibootModule}
    (h : findModuleLoop m info total name fuel off = some (some found)) :
    ∃ off', Reaches m info.toNat off.toNat off' ∧ tagType m (info.toNat + off') = 3 ∧
      found.start.toNat = (modStart m (info.toNat + off')).toNat ∧
      found.stop.toNat = (modEnd m (info.toNat + off')).toNat := by
  induction fuel generalizing off with
  | zero => exact absurd h (by simp [findModuleLoop])
  | succ fuel ih =>
    have htag := toNat_tag (by omega : info.toNat + off.toNat < 2 ^ 64)
    obtain ⟨fuel', hfuel, htype, hhere | hnext⟩ := findModuleLoop_cases h
    · obtain ⟨hmodule, hstart, hstop⟩ := hhere
      rw [htag] at hmodule hstart hstop
      refine ⟨off.toNat, .here _, hmodule, ?_, ?_⟩
      · rw [hstart, BitVec.toNat_setWidth_of_le (by decide)]
      · rw [hstop, BitVec.toNat_setWidth_of_le (by decide)]
    · obtain rfl : fuel = fuel' := by omega
      rw [htag] at htype hnext
      obtain ⟨hsize, hfits⟩ := hin _ (.here _) htype
      have hround := toNat_roundUp8 (tagSize m (info.toNat + off.toNat))
        (by rw [roundUp8] at hfits; omega)
      have hoff' : (off + ((tagSize m (info.toNat + off.toNat) + 7) &&& ~~~7)).toNat =
          off.toNat + roundUp8 (tagSize m (info.toNat + off.toNat)).toNat := by
        rw [BitVec.toNat_add, hround]
        omega
      have hin' : WalkInside m info.toNat total.toNat
          (off + ((tagSize m (info.toNat + off.toNat) + 7) &&& ~~~7)).toNat := by
        rw [hoff']
        exact fun off' hr => hin off' (.next htype hr)
      obtain ⟨off', hr, hrest⟩ := ih (by omega) hin' hnext
      rw [hoff'] at hr
      exact ⟨off', .next htype hr, hrest⟩

/-- The importer has reserved every module of an accepted block. -/
theorem findsModule_reserved {s : Pmm} (haccept : Accepts m info s) {found : MultibootModule}
    (h : FindsModule m info name found) {p : ℕ} (hp : Meets found.start.toNat found.stop.toNat p) :
    BlockReserved m info.toNat p := by
  obtain ⟨s', hok⟩ := haccept
  obtain ⟨hinfo, htotal, -, hin⟩ := importBlock_spec hok
  obtain ⟨fuel, hfind⟩ := h
  unfold multibootFindModule at hfind
  dsimp only at hfind
  split_ifs at hfind with hnull hsmall
  · exact absurd hfind (by simp)
  · exact absurd hfind (by simp)
  · have h8 : (8 : U32).toNat = 8 := rfl
    obtain ⟨off, hr, htype, hstart, hstop⟩ :=
      findModuleLoop_reaches hinfo htotal (by bv_omega) (by rw [h8]; exact hin) hfind
    rw [hstart, hstop] at hp
    exact ⟨off, hr, Or.inl ⟨htype, hp⟩⟩

/-- No page of a module that can be found, and no page of the block, is free
after `pmm_init_from_multiboot`. -/
def BootOwnedKept (image : KernelImage) (m : Mem) (info : U64) (s : Pmm) : Prop :=
  (∀ name found, FindsModule m info name found → ∀ p < 65536,
    Meets found.start.toNat found.stop.toNat p →
      pageBit (pmmInitFromMultiboot image m info s).bitmap p ≠ false) ∧
  ∀ p < 65536, Meets info.toNat (info.toNat + (read32 m info.toNat).toNat) p →
    pageBit (pmmInitFromMultiboot image m info s).bitmap p ≠ false

/-- **Boot-owned memory is kept out of the allocator exactly when the block is
accepted or lies, with its modules, outside the fallback window.** -/
theorem bootOwnedKept_iff (image : KernelImage) (m : Mem) (info : U64) (s : Pmm) :
    BootOwnedKept image m info s ↔ Accepts m info s ∨
      ((∀ name found, FindsModule m info name found → ∀ p, FallbackFree image p →
        ¬ Meets found.start.toNat found.stop.toNat p) ∧
      ∀ p, FallbackFree image p →
        ¬ Meets info.toNat (info.toNat + (read32 m info.toNat).toNat) p) := by
  have hwindow : ∀ p, FallbackFree image p → p < 65536 := fun p hp => by
    obtain ⟨-, h, -⟩ := hp
    omega
  rcases Classical.em (Accepts m info s) with haccept | hreject
  · refine iff_of_true ⟨fun name found hfind p hp hm hfree => ?_, fun p hp hm hfree => ?_⟩
      (Or.inl haccept)
    · exact ((accepted_free_iff image haccept hp).1 hfree).2.1
        (findsModule_reserved haccept hfind hm)
    · exact ((accepted_free_iff image haccept hp).1 hfree).2.2 (Or.inr (Or.inr hm))
  · obtain ⟨t, ht⟩ := pmmInitFromMultiboot_rejected image hreject
    rw [or_iff_right hreject, BootOwnedKept, ht]
    constructor
    · rintro ⟨hmodules, hblock⟩
      refine ⟨fun name found hfind p hp hm => ?_, fun p hp hm => ?_⟩
      · exact hmodules name found hfind p (hwindow p hp) hm
          ((fallback_free_iff image t (hwindow p hp)).2 hp)
      · exact hblock p (hwindow p hp) hm ((fallback_free_iff image t (hwindow p hp)).2 hp)
    · rintro ⟨hmodules, hblock⟩
      refine ⟨fun name found hfind p hp hm hfree => ?_, fun p hp hm hfree => ?_⟩
      · exact hmodules name found hfind p ((fallback_free_iff image t hp).1 hfree) hm
      · exact hblock p ((fallback_free_iff image t hp).1 hfree) hm

/-- A block of 40 bytes without a memory map: a module named `a` in the page at
16 MiB, and the end tag.  The string behind it is the name to look for. -/
def moduleOnly : Mem := bytesAt 0x10000
  [40, 0, 0, 0, 0, 0, 0, 0,
    3, 0, 0, 0, 18, 0, 0, 0, 0, 0, 0, 1, 0, 16, 0, 1, 97, 0, 0, 0, 0, 0, 0, 0,
    0, 0, 0, 0, 8, 0, 0, 0,
    97, 0]

/-- The block has no memory map, so the importer falls back; the finder finds
the module; its page is free. -/
theorem moduleOnly_not_kept :
    ¬ BootOwnedKept ⟨0x200000, by decide⟩ moduleOnly 0x10000
      ⟨fun _ => 0, fun _ => 0, fun _ => 0, 0, 0⟩ := by
  intro hkept
  have hfinds : FindsModule moduleOnly 0x10000 0x10028 ⟨0x1000000, 0x1001000, 0x10018⟩ :=
    ⟨8, by decide⟩
  have hreject : ∀ s, ¬ Accepts moduleOnly 0x10000 s := by
    rintro s ⟨s', hok⟩
    have herror : ∃ t, importBlock moduleOnly 0x10000
        (pmmReserveRange bootstrapLimit (pmmReset bootstrapLimit s) 0 4096) = .error t := ⟨_, rfl⟩
    obtain ⟨t, ht⟩ := herror
    rw [ht] at hok
    exact absurd hok (by simp)
  obtain ⟨t, ht⟩ := pmmInitFromMultiboot_rejected ⟨0x200000, by decide⟩
    (hreject ⟨fun _ => 0, fun _ => 0, fun _ => 0, 0, 0⟩)
  refine hkept.1 _ _ hfinds 4096 (by decide) (by decide) ?_
  rw [ht, fallback_free_iff _ _ (by decide)]
  exact ⟨by decide, by decide, by decide⟩

end SuiraBox.Boot
