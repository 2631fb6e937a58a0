/-
# Mapping the framebuffer

`kernel/framebuffer.c`: `sb_framebuffer_map` maps the pages of the framebuffer, one by one,
to addresses from `SB_FRAMEBUFFER_VIRTUAL_BASE` on.  When a page cannot be mapped (there is
no frame for a table, the page is mapped already, a large page is in the way) it unmaps the
pages before it.  The kernel's pages are a store, so the mapping is all or nothing.
-/

import SuiraBox.Mm.VmmStore
import SuiraBox.Display.Drawing

namespace SuiraBox.Display

open ByteMem Trace Boot Mm Rollback

/-- `SB_FRAMEBUFFER_VIRTUAL_BASE`. -/
def framebufferVirtualBase : U64 := 0x0000005000000000

/-- The rollback loop: the pages before page `i`. -/
def unmapPages (pml4 virtualStart i : U64) (σ : Phys) : Phys :=
  (indices 0 i).foldl (fun σ rollback => (vmmUnmapPage σ pml4 (virtualStart + rollback * 4096)).2) σ

/-- The mapping loop, from page `i` on with `n` pages to go, and whether it came to its end. -/
def mapPages (pml4 virtualStart physicalStart : U64) : ℕ → U64 → Phys → Bool × Phys
  | 0, _, σ => (true, σ)
  | n + 1, i, σ =>
    let (rc, σ) :=
      vmmMapPage σ pml4 (virtualStart + i * 4096) (physicalStart + i * 4096) vmmWritable
    if rc ≠ 0 then (false, unmapPages pml4 virtualStart i σ)
    else mapPages pml4 virtualStart physicalStart n (i + 1) σ

/-- `sb_framebuffer_map`, with its return value. -/
def sbFramebufferMap (pml4 : U64) (s : Framebuffer) (σ : Phys) : ℤ × Framebuffer × Phys :=
  if framebufferGeometryOk s = 0 ∨ s.current.mappedAddress ≠ 0 then
    (if s.current.mappedAddress ≠ 0 then 1 else 0, s, σ)
  else
    let physicalStart := s.current.address &&& vmmPageMask
    let physicalEnd :=
      s.current.address + s.current.pitch.setWidth 64 * s.current.height.setWidth 64
    if BitVec.allOnes 64 - (4096 - 1) < physicalEnd then (0, s, σ)
    else
      let physicalEnd := (physicalEnd + 4096 - 1) &&& vmmPageMask
      if physicalEnd ≤ physicalStart then (0, s, σ)
      else
        let pageCount := (physicalEnd - physicalStart) / 4096
        if (BitVec.allOnes 64 - framebufferVirtualBase) / 4096 < pageCount then (0, s, σ)
        else
          let virtualStart := framebufferVirtualBase
          match mapPages pml4 virtualStart physicalStart pageCount.toNat 0 σ with
          | (false, σ) => (0, s, σ)
          | (true, σ) =>
            (1, { s with current := { s.current with
              mappedAddress := virtualStart + (s.current.address - physicalStart)
              mappedSize := physicalEnd - physicalStart } }, σ)

variable {s : Framebuffer} {c : FramebufferInfo} {σ : Phys} {pml4 virtualStart physicalStart : U64}

/-- The loops are those of a store. -/
theorem mapPages_eq {n : ℕ} {i : U64} (hfit : i.toNat + n < 2 ^ 64) (σ : Phys) :
    mapPages pml4 virtualStart physicalStart n i σ =
      insertAll (insertPage (fun i => physicalStart + i * 4096)
        (fun i => virtualStart + i * 4096) pml4
        vmmWritable) (removePage (fun i => virtualStart + i * 4096) pml4) (indices 0 i)
        (indices i (i + BitVec.ofNat 64 n)) σ := by
  induction n generalizing i σ with
  | zero =>
    rw [indices_eq i, if_neg (by simp)]
    rfl
  | succ n ih =>
    have hsucc : (i + 1).toNat = i.toNat + 1 := by bv_omega
    have hnext : i + BitVec.ofNat 64 (n + 1) = i + 1 + BitVec.ofNat 64 n := by
      refine BitVec.eq_of_toNat_eq ?_
      rw [BitVec.toNat_add, BitVec.toNat_add, hsucc, BitVec.toNat_ofNat, BitVec.toNat_ofNat]
      omega
    have hlt : i < i + BitVec.ofNat 64 (n + 1) := by
      rw [BitVec.lt_def, BitVec.toNat_add, BitVec.toNat_ofNat]
      omega
    rw [indices_eq i, if_pos hlt, insertAll, mapPages, hnext]
    dsimp only
    rcases Decidable.em ((vmmMapPage σ pml4 (virtualStart + i * 4096) (physicalStart + i * 4096)
      vmmWritable).1 = 0) with hok | hfail
    · rw [if_neg (not_not.2 hok),
        if_pos (show (insertPage _ _ _ _ i σ).1 = true from decide_eq_true hok),
        ih (by omega), indices_concat (Nat.zero_le _) (by omega)]
      rfl
    · have hfalse : (insertPage (fun i => physicalStart + i * 4096)
          (fun i => virtualStart + i * 4096)
          pml4 vmmWritable i σ).1 = false := decide_eq_false hfail
      rw [if_pos hfail, hfalse, if_neg (by simp)]
      rfl

/-- The pages of the framebuffer, in numbers: it begins in frame `frame`, `offset` bytes from its
beginning, and takes `pages` pages. -/
structure Placement (c : FramebufferInfo) (frame offset pages : ℕ) : Prop where
  address : c.address.toNat = frame * 4096 + offset
  inside : offset < 4096
  small : frame + pages ≤ 2 ^ 40
  last : offset + c.pitch.toNat * c.height.toNat ≤ pages * 4096

theorem toNat_and_vmmPageMask (x : U64) : (x &&& vmmPageMask).toNat = x.toNat / 4096 * 4096 :=
  Words.toNat_and_not_low x (show 12 ≤ 64 by decide) rfl

/-- `sb_framebuffer_map` on a framebuffer that is not mapped and lies below 2^52. -/
theorem sbFramebufferMap_cases (hok : framebufferGeometryOk s ≠ 0)
    (hnone : s.current.mappedAddress = 0)
    (hlimit : s.current.address.toNat + s.current.pitch.toNat * s.current.height.toNat ≤ 2 ^ 52)
    (pml4 : U64) (σ : Phys) : ∃ frame offset pages, Placement s.current frame offset pages ∧
      let r := mapPages pml4 framebufferVirtualBase (BitVec.ofNat 64 (frame * 4096)) pages 0 σ
      (r.1 = false ∧ sbFramebufferMap pml4 s σ = (0, s, r.2) ∨
        r.1 = true ∧ sbFramebufferMap pml4 s σ = (1, { s with current := { s.current with
          mappedAddress := framebufferVirtualBase + BitVec.ofNat 64 offset
          mappedSize := BitVec.ofNat 64 (pages * 4096) } }, r.2)) := by
  obtain ⟨-, -, hspan, -⟩ := geometry_of_ok hok
  have hmul := toNat_mul_setWidth s.current.pitch s.current.height
  have hstop : (s.current.address + s.current.pitch.setWidth 64 *
      s.current.height.setWidth 64).toNat =
      s.current.address.toNat + s.current.pitch.toNat * s.current.height.toNat := by
    rw [BitVec.toNat_add, hmul]
    exact Nat.mod_eq_of_lt (by omega)
  unfold sbFramebufferMap
  generalize s.current.address + s.current.pitch.setWidth 64 * s.current.height.setWidth 64 = stop
    at hstop ⊢
  -- the first frame, and the frame after the last one
  have hsum : (stop + 4096 - 1).toNat = stop.toNat + 4095 := by bv_omega
  have hstart := toNat_and_vmmPageMask s.current.address
  have hround := toNat_and_vmmPageMask (stop + 4096 - 1)
  rw [hsum] at hround
  have hframe := Nat.div_add_mod s.current.address.toNat 4096
  have hlast := Nat.div_add_mod (stop.toNat + 4095) 4096
  have hoffset := Nat.mod_lt s.current.address.toNat (show 0 < 4096 by decide)
  have hrest := Nat.mod_lt (stop.toNat + 4095) (show 0 < 4096 by decide)
  generalize s.current.address.toNat / 4096 = frame at hstart hframe
  generalize s.current.address.toNat % 4096 = offset at hframe hoffset
  generalize (stop.toNat + 4095) / 4096 = last at hround hlast
  generalize (stop.toNat + 4095) % 4096 = rest at hlast hrest
  have hpages : ((stop + 4096 - 1 &&& vmmPageMask) - (s.current.address &&& vmmPageMask)).toNat =
      (last - frame) * 4096 := by
    rw [BitVec.toNat_sub, hround, hstart]
    omega
  have hcount : (((stop + 4096 - 1 &&& vmmPageMask) - (s.current.address &&& vmmPageMask)) /
      4096).toNat = last - frame := by
    rw [BitVec.toNat_udiv, hpages]
    exact Nat.mul_div_cancel _ (by decide)
  have hstart' : s.current.address &&& vmmPageMask = BitVec.ofNat 64 (frame * 4096) := by
    refine BitVec.eq_of_toNat_eq ?_
    rw [hstart, BitVec.toNat_ofNat]
    omega
  have haddress : s.current.address - (s.current.address &&& vmmPageMask) =
      BitVec.ofNat 64 offset := by
    refine BitVec.eq_of_toNat_eq ?_
    rw [BitVec.toNat_sub, hstart, BitVec.toNat_ofNat]
    omega
  have hsize : (stop + 4096 - 1 &&& vmmPageMask) - (s.current.address &&& vmmPageMask) =
      BitVec.ofNat 64 ((last - frame) * 4096) := by
    refine BitVec.eq_of_toNat_eq ?_
    rw [hpages, BitVec.toNat_ofNat]
    omega
  refine ⟨frame, offset, last - frame, ⟨by omega, hoffset, by omega, by omega⟩, ?_⟩
  have hmax : (BitVec.allOnes 64 - (4096 - 1) : U64).toNat = 2 ^ 64 - 4096 := by decide
  have hroom : ((BitVec.allOnes 64 - framebufferVirtualBase) / 4096 : U64).toNat =
      2 ^ 52 - 83886081 := by
    decide
  rw [if_neg (not_or.2 ⟨hok, not_not.2 hnone⟩)]
  dsimp only
  rw [if_neg (by rw [BitVec.lt_def, hmax]; omega),
    if_neg (by rw [BitVec.le_def, hround, hstart]; omega),
    if_neg (by rw [BitVec.lt_def, hroom, hcount]; omega), hcount, hsize, haddress, hstart']
  rcases mapPages pml4 framebufferVirtualBase (BitVec.ofNat 64 (frame * 4096))
    (last - frame) 0 σ with
    ⟨_ | _, σ'⟩
  · exact Or.inl ⟨rfl, rfl⟩
  · exact Or.inr ⟨rfl, rfl⟩

/-- Page `i` of the window. -/
def windowPage (i : U64) : U64 := framebufferVirtualBase + i * 4096

theorem toNat_windowPage {i : U64} (hi : i.toNat < 2 ^ 40) :
    (windowPage i).toNat = 0x5000000000 + i.toNat * 4096 := by
  have hbase : framebufferVirtualBase.toNat = 0x5000000000 := rfl
  rw [windowPage, BitVec.toNat_add, BitVec.toNat_mul, hbase,
    show (4096 : U64).toNat = 4096 from rfl]
  omega

theorem toNat_frame {frame : ℕ} {i : U64} (hi : frame + i.toNat < 2 ^ 40) :
    (BitVec.ofNat 64 (frame * 4096) + i * 4096).toNat = (frame + i.toNat) * 4096 := by
  rw [BitVec.toNat_add, BitVec.toNat_mul, BitVec.toNat_ofNat,
    show (4096 : U64).toNat = 4096 from rfl]
  omega

/-- The loops map all pages or none. -/
theorem mapPages_spec {frame pages : ℕ} (hsmall : frame + pages ≤ 2 ^ 40) (h : KernelTree pml4 σ) :
    let r := mapPages pml4 framebufferVirtualBase (BitVec.ofNat 64 (frame * 4096)) pages 0 σ
    KernelTree pml4 r.2 ∧
    (r.1 = true →
      (∀ i : U64, i.toNat < pages → pageView r.2.mem pml4 (pageOf (windowPage i)) =
        some (true, fun x => BitVec.ofNat 64 (frame * 4096) + i * 4096 ||| (x &&& 0xFFF))) ∧
      ∀ n, (∀ i : U64, i.toNat < pages → pageOf (windowPage i) ≠ n) →
        pageView r.2.mem pml4 n = pageView σ.mem pml4 n) ∧
    (r.1 = false → pageView r.2.mem pml4 = pageView σ.mem pml4) := by
  intro r
  have hmem : ∀ i, i ∈ indices 0 (0 + BitVec.ofNat 64 pages) ↔ i.toNat < pages := by
    intro i
    rw [mem_indices, BitVec.lt_def, show (0 : U64) + BitVec.ofNat 64 pages = BitVec.ofNat 64 pages
      from BitVec.zero_add _, BitVec.toNat_ofNat, Nat.mod_eq_of_lt (by omega)]
    exact and_iff_right (Nat.zero_le _)
  have hstore := vmmStore (fun i : U64 => BitVec.ofNat 64 (frame * 4096) + i * 4096) windowPage pml4
    vmmWritable
  have hstart : Added (KernelTree pml4) (fun σ => pageView σ.mem pml4)
      (fun i => pageOf (windowPage i))
      (fun i => (true, fun x => BitVec.ofNat 64 (frame * 4096) + i * 4096 ||| (x &&& 0xFFF)))
      (pageView σ.mem pml4) [] σ := ⟨h, by simp, .nil, by simp, fun _ _ => rfl⟩
  obtain ⟨hall, hnothing⟩ := hstart.insertAll_spec hstore (by simp)
    fun i (hi : i ∈ indices 0 (0 + BitVec.ofNat 64 pages)) => by
      rw [hmem] at hi
      rw [toNat_windowPage (by omega), toNat_frame (by omega)]
      omega
  have hr : r = insertAll
      (insertPage (fun i => BitVec.ofNat 64 (frame * 4096) + i * 4096) windowPage pml4 vmmWritable)
      (removePage windowPage pml4) [] (indices 0 (0 + BitVec.ofNat 64 pages)) σ :=
    mapPages_eq (show (0 : U64).toNat + pages < 2 ^ 64 by
      rw [show (0 : U64).toNat = 0 from rfl]; omega) σ
  rw [← hr] at hall hnothing
  rw [List.nil_append] at hall
  refine ⟨?_, fun htrue => ?_, fun hfalse => (hnothing hfalse).2⟩
  · cases hresult : r.1 with
    | true => exact (hall hresult).inv
    | false => exact (hnothing hresult).1
  · have hadded := hall htrue
    exact ⟨fun i hi => hadded.there i ((hmem i).2 hi),
      fun n hn => hadded.other n fun i hi => hn i ((hmem i).1 hi)⟩

/-- Where byte `k` of the framebuffer is, in a window that is mapped. -/
theorem Placement.translate {frame offset pages k : ℕ} {m : Mem}
    (hplace : Placement c frame offset pages) (hview : ∀ i : U64, i.toNat < pages →
      pageView m pml4 (pageOf (windowPage i)) =
      some (true, fun x => BitVec.ofNat 64 (frame * 4096) + i * 4096 ||| (x &&& 0xFFF)))
    (hk : k < c.pitch.toNat * c.height.toNat) :
    vmmTranslate m pml4 (framebufferVirtualBase + BitVec.ofNat 64 offset + BitVec.ofNat 64 k) =
      c.address + BitVec.ofNat 64 k := by
  obtain ⟨haddress, hoffset, hsmall, hlast⟩ := hplace
  have hbase : framebufferVirtualBase.toNat = 0x5000000000 := rfl
  have hva : (framebufferVirtualBase + BitVec.ofNat 64 offset + BitVec.ofNat 64 k).toNat =
      0x5000000000 + (offset + k) := by
    rw [BitVec.toNat_add, BitVec.toNat_add, BitVec.toNat_ofNat, BitVec.toNat_ofNat, hbase]
    omega
  generalize framebufferVirtualBase + BitVec.ofNat 64 offset + BitVec.ofNat 64 k = va at hva ⊢
  -- the page of the byte
  have hi : (BitVec.ofNat 64 ((offset + k) / 4096)).toNat = (offset + k) / 4096 := by
    rw [BitVec.toNat_ofNat]
    omega
  generalize BitVec.ofNat 64 ((offset + k) / 4096) = i at hi
  have hlt : i.toNat < pages := by omega
  have hpage : pageOf va = pageOf (windowPage i) := by
    rw [← BitVec.toNat_inj, toNat_pageOf, toNat_pageOf, toNat_windowPage (by omega), hva, hi]
    omega
  have hframe : (BitVec.ofNat 64 (frame * 4096) + i * 4096).toNat = (frame + i.toNat) * 4096 :=
    toNat_frame (by omega)
  rw [vmmTranslate_view, hpage, hview i hlt]
  change BitVec.ofNat 64 (frame * 4096) + i * 4096 ||| (va &&& 0xFFF) = _
  generalize BitVec.ofNat 64 (frame * 4096) + i * 4096 = page at hframe ⊢
  have hself : tableFromEntry page = page := tableFromEntry_page (by omega) (by omega)
  have hphysical : (page ||| (va &&& 0xFFF)).toNat = page.toNat + va.toNat % 4096 := by
    have := toNat_physical page va
    rwa [show page &&& entryAddrMask = page from hself, hself] at this
  refine BitVec.eq_of_toNat_eq ?_
  rw [hphysical, hframe, hva, hi, BitVec.toNat_add, BitVec.toNat_ofNat, haddress]
  omega

/-- **The framebuffer is mapped as a whole or not at all.**  On tables that form a tree: when
`sb_framebuffer_map` returns 1, every byte of the framebuffer is found at its place in the window,
and no page outside of the window, by the 48 bits that are translated, leads elsewhere than before;
when it returns 0, no address does, and the framebuffer counts as not mapped. -/
theorem sbFramebufferMap_all_or_nothing (hok : framebufferGeometryOk s ≠ 0)
    (hnone : s.current.mappedAddress = 0)
    (hlimit : s.current.address.toNat + s.current.pitch.toNat * s.current.height.toNat ≤ 2 ^ 52)
    (h : KernelTree pml4 σ) :
    let r := sbFramebufferMap pml4 s σ
    let s' := r.2.1
    let σ' := r.2.2
    (r.1 = 1 ∨ r.1 = 0) ∧ KernelTree pml4 σ' ∧
    (r.1 = 1 →
      (∀ k < s.current.pitch.toNat * s.current.height.toNat,
        vmmTranslate σ'.mem pml4 (s'.current.mappedAddress + BitVec.ofNat 64 k) =
          s.current.address + BitVec.ofNat 64 k) ∧
      ∀ x : U64, (∀ w : U64, framebufferVirtualBase ≤ w →
          w < framebufferVirtualBase + s'.current.mappedSize →
          x.toNat / 4096 % 2 ^ 36 ≠ w.toNat / 4096 % 2 ^ 36) →
        vmmTranslate σ'.mem pml4 x = vmmTranslate σ.mem pml4 x) ∧
    (r.1 = 0 → (∀ x, vmmTranslate σ'.mem pml4 x = vmmTranslate σ.mem pml4 x) ∧
      s'.current.mappedAddress = 0) := by
  obtain ⟨frame, offset, pages, hplace, hcases⟩ := sbFramebufferMap_cases hok hnone hlimit pml4 σ
  obtain ⟨htree, hall, hnothing⟩ := mapPages_spec hplace.small h
  rcases hcases with ⟨hfalse, heq⟩ | ⟨htrue, heq⟩
  · rw [heq]
    refine ⟨Or.inr rfl, htree, fun hone => absurd hone (by simp), fun _ => ⟨fun x => ?_, hnone⟩⟩
    rw [vmmTranslate_view, vmmTranslate_view, hnothing hfalse]
  · obtain ⟨hthere, hother⟩ := hall htrue
    rw [heq]
    refine ⟨Or.inl rfl, htree, fun _ => ⟨fun k hk => hplace.translate hthere hk, fun x hx => ?_⟩,
      fun hzero => absurd hzero (by simp)⟩
    have hsmall := hplace.small
    rw [vmmTranslate_view, vmmTranslate_view, hother _ fun i hi hpage => ?_]
    have hwindow := toNat_windowPage (show i.toNat < 2 ^ 40 by omega)
    have hbase : framebufferVirtualBase.toNat = 0x5000000000 := rfl
    have hsize : (framebufferVirtualBase + BitVec.ofNat 64 (pages * 4096)).toNat =
        0x5000000000 + pages * 4096 := by
      rw [BitVec.toNat_add, BitVec.toNat_ofNat, hbase]
      omega
    refine hx (windowPage i) ?_ ?_ ?_
    · rw [BitVec.le_def, hwindow, hbase]
      omega
    · rw [BitVec.lt_def, hwindow, hsize]
      omega
    · rw [← toNat_pageOf, ← toNat_pageOf, hpage]

/-- 64 by 16 pixels of 32 bits at 20000000h: one page. -/
def pageScreen : Framebuffer where
  current :=
    { address := 0x20000000, pitch := 256, width := 64, height := 16, bitsPerPixel := 32, type := 1,
      redPosition := 16, redMaskSize := 8, greenPosition := 8, greenMaskSize := 8,
      blueMaskSize := 8 }
  available := 1

/-- On empty tables the page is mapped. -/
theorem pageScreen_map :
    let r := sbFramebufferMap 0x1000 pageScreen emptyPhys
    KernelTree 0x1000 emptyPhys ∧ r.1 = 1 ∧ KernelTree 0x1000 r.2.2 ∧
      vmmTranslate r.2.2.mem 0x1000 (r.2.1.current.mappedAddress + 0x123) = 0x20000123 := by
  have htree : KernelTree 0x1000 emptyPhys := ⟨highPages, emptyPhys_tree⟩
  have hpage : (vmmMapPage emptyPhys 0x1000 (framebufferVirtualBase + 0 * 4096)
      (0x20000000 + 0 * 4096) vmmWritable).1 = 0 :=
    (vmmMapPage_eq_zero_iff emptyPhys_tree (allTables_tablePathOf _) _ _).2
      (emptyPhys_canMap (by decide) (by decide))
  have hpages : (mapPages 0x1000 framebufferVirtualBase 0x20000000 1 0 emptyPhys).1 = true := by
    rw [mapPages]
    dsimp only
    rw [if_neg (not_not.2 hpage), mapPages]
  have hone : (sbFramebufferMap 0x1000 pageScreen emptyPhys).1 = 1 := by
    have hstart : pageScreen.current.address &&& vmmPageMask = 0x20000000 := by decide
    have hcount : (((pageScreen.current.address + pageScreen.current.pitch.setWidth 64 *
        pageScreen.current.height.setWidth 64 + 4096 - 1 &&& vmmPageMask) - 0x20000000) /
        4096).toNat = 1 := by decide
    rw [sbFramebufferMap, if_neg (by decide)]
    dsimp only
    rw [if_neg (by decide), if_neg (by decide), if_neg (by decide), hstart, hcount]
    generalize mapPages 0x1000 framebufferVirtualBase 0x20000000 1 0 emptyPhys = r at hpages ⊢
    obtain ⟨_ | _, σ⟩ := r
    · exact absurd hpages (by simp)
    · rfl
  obtain ⟨-, hkept, hmapped, -⟩ := sbFramebufferMap_all_or_nothing (s := pageScreen) (by decide) rfl
    (by decide) htree
  exact ⟨htree, hone, hkept, (hmapped hone).1 0x123 (by decide)⟩

end SuiraBox.Display
