/-
# Drawing on the framebuffer

`kernel/framebuffer.c`: `sb_framebuffer_clear`, `sb_framebuffer_draw_pixel` and
`sb_framebuffer_fill_rect`.  They store the bytes of pixels, one by one; the model gives the
memory after a call together with the stores on the way, in their order, because the memory
is that of a device.  The static variables are not in it.

Two questions are answered here.

* Where do the stores go?  The pixel `(x, y)` begins `y * pitch + x * bytes_per_pixel` bytes
  after the base.  Nothing relates the width of the screen to the pitch, so the stores stay
  inside the `pitch * height` bytes of the framebuffer, and no two pixels share a byte, exactly
  on those framebuffers whose rows fit.
* Do the three functions draw the same?  Bulk drawing makes the same stores as drawing pixel
  by pixel, row by row, for every rectangle.
-/

import SuiraBox.Library.Loops
import SuiraBox.Boot.Framebuffer

namespace SuiraBox.Display

open ByteMem Trace Boot Mm

/-- One byte stored at an address. -/
abbrev Store := U64 × U8

def store8 (a : U64) (v : U8) (m : Mem) : Traced Store Mem := tell (a, v) (write8 m a.toNat v)

/-- `SB_IDENTITY_MAP_LIMIT`. -/
def identityMapLimit : U64 := 1 <<< 30

/-- `component_mask`. -/
def componentMask (bits : U8) : U32 :=
  if bits = 0 then 0 else if 32 ≤ bits then BitVec.allOnes 32 else ((1 : U32) <<< bits) - 1

/-- `scale_component`. -/
def scaleComponent (value bits : U8) : U32 :=
  let maxValue := componentMask bits
  if maxValue = 0 then 0 else (value.setWidth 32 * maxValue + 127) / 255

/-- The number of bytes of a pixel, which every function of the file computes. -/
def bytesPerPixel (c : FramebufferInfo) : U64 := (c.bitsPerPixel.setWidth 64 + 7) / 8

/-- `framebuffer_target`: the address to draw at, or what it returns without one. -/
def framebufferTarget (s : Framebuffer) : Except ℤ U64 :=
  if framebufferGeometryOk s = 0 then .error (-1)
  else if s.current.mappedAddress ≠ 0 then
    if s.current.mappedSize = 0 then .error (-2) else .ok s.current.mappedAddress
  else
    let span := s.current.pitch.setWidth 64 * s.current.height.setWidth 64
    let stop := s.current.address + span
    if identityMapLimit ≤ s.current.address ∨ identityMapLimit < stop then .error (-3)
    else .ok s.current.address

/-- `pack_pixel`. -/
def packPixel (c : FramebufferInfo) (red green blue : U8) : U32 :=
  scaleComponent red c.redMaskSize <<< c.redPosition |||
    scaleComponent green c.greenMaskSize <<< c.greenPosition |||
    scaleComponent blue c.blueMaskSize <<< c.bluePosition

/-- `store_pixel`. -/
def storePixel (dst bytesPerPixel : U64) (pixel : U32) : Mem → Traced Store Mem :=
  forUp 0 bytesPerPixel fun byte => store8 (dst + byte) ((pixel >>> (byte * 8)).setWidth 8)

/-- `sb_framebuffer_clear`, with its return value. -/
def sbFramebufferClear (s : Framebuffer) (red green blue : U8) (m : Mem) : Traced Store (ℤ × Mem) :=
  match framebufferTarget s with
  | .error _ => pure (-1, m)
  | .ok target => do
    let pixel := packPixel s.current red green blue
    let m ← forUp 0 s.current.height (fun y =>
      let row := target + y.setWidth 64 * s.current.pitch.setWidth 64
      forUp 0 s.current.width fun x =>
        storePixel (row + x.setWidth 64 * bytesPerPixel s.current) (bytesPerPixel s.current)
          pixel) m
    pure (0, m)

/-- `sb_framebuffer_draw_pixel`, with its return value. -/
def sbFramebufferDrawPixel (s : Framebuffer) (x y : U32) (red green blue : U8) (m : Mem) :
    Traced Store (ℤ × Mem) :=
  if s.current.width ≤ x ∨ s.current.height ≤ y then pure (-1, m)
  else match framebufferTarget s with
    | .error _ => pure (-2, m)
    | .ok target =>
      if BitVec.allOnes 64 - x.setWidth 64 * bytesPerPixel s.current <
          y.setWidth 64 * s.current.pitch.setWidth 64 then pure (-3, m)
      else do
        let m ← storePixel (target + y.setWidth 64 * s.current.pitch.setWidth 64 +
          x.setWidth 64 * bytesPerPixel s.current) (bytesPerPixel s.current)
          (packPixel s.current red green blue) m
        pure (0, m)

/-- `sb_framebuffer_fill_rect`, with its return value. -/
def sbFramebufferFillRect (s : Framebuffer) (x y width height : U32) (red green blue : U8)
    (m : Mem) : Traced Store (ℤ × Mem) :=
  if width = 0 ∨ height = 0 then pure (0, m)
  else if s.current.width ≤ x ∨ s.current.height ≤ y then pure (-1, m)
  else
    let width := if s.current.width - x < width then s.current.width - x else width
    let height := if s.current.height - y < height then s.current.height - y else height
    match framebufferTarget s with
    | .error _ => pure (-2, m)
    | .ok target => do
      let pixel := packPixel s.current red green blue
      let m ← forUp y (y + height) (fun rowIndex =>
        let rowOffset := rowIndex.setWidth 64 * s.current.pitch.setWidth 64 +
          x.setWidth 64 * bytesPerPixel s.current
        let row := target + rowOffset
        forUp 0 width fun column =>
          storePixel (row + column.setWidth 64 * bytesPerPixel s.current) (bytesPerPixel s.current)
            pixel) m
      pure (0, m)

variable {s : Framebuffer} {c : FramebufferInfo} {target : U64} {m : Mem}

/-! ### Where a pixel is -/

/-- The address of the first byte of a pixel. -/
def pixelAddress (c : FramebufferInfo) (target : U64) (x y : U32) : U64 :=
  target + y.setWidth 64 * c.pitch.setWidth 64 + x.setWidth 64 * bytesPerPixel c

/-- Painting a pixel of the screen. -/
def paint (c : FramebufferInfo) (target : U64) (pixel : U32) (y x : U32) : Mem → Traced Store Mem :=
  storePixel (pixelAddress c target x y) (bytesPerPixel c) pixel

variable {y x : U32}

theorem toNat_bytesPerPixel (c : FramebufferInfo) :
    (bytesPerPixel c).toNat = (c.bitsPerPixel.toNat + 7) / 8 := by
  have := c.bitsPerPixel.isLt
  rw [bytesPerPixel, BitVec.toNat_udiv, BitVec.toNat_add, BitVec.toNat_setWidth_of_le (by decide),
    show (7 : U64).toNat = 7 from rfl, show (8 : U64).toNat = 8 from rfl]
  omega

/-- A product of two 32-bit numbers fits. -/
theorem toNat_mul_setWidth (x y : U32) :
    (x.setWidth 64 * y.setWidth 64 : U64).toNat = x.toNat * y.toNat := by
  have hlt : x.toNat * y.toNat < 2 ^ 32 * 2 ^ 32 := Nat.mul_lt_mul'' x.isLt y.isLt
  rw [BitVec.toNat_mul, BitVec.toNat_setWidth_of_le (by decide),
    BitVec.toNat_setWidth_of_le (by decide)]
  exact Nat.mod_eq_of_lt (by omega)

/-- What `framebuffer_geometry_ok` says about the bytes of the framebuffer. -/
structure Geometry (c : FramebufferInfo) : Prop where
  bytes : 1 ≤ (bytesPerPixel c).toNat ∧ (bytesPerPixel c).toNat ≤ 4
  address : 1 ≤ c.address.toNat
  span : 1 ≤ c.pitch.toNat * c.height.toNat
  fits : c.address.toNat + c.pitch.toNat * c.height.toNat < 2 ^ 64

theorem Geometry.height_ne_zero (h : Geometry c) : c.height.toNat ≠ 0 := by
  intro hzero
  have := h.span
  rw [hzero] at this
  omega

/-- What the check of the geometry says. -/
theorem geometry_of_ok (h : framebufferGeometryOk s ≠ 0) : Geometry s.current := by
  unfold framebufferGeometryOk at h
  dsimp only at h
  have hok := mt (fun hbad => if_pos hbad) h
  rw [not_or, not_or, not_or, not_or, not_or, not_or, not_or] at hok
  obtain ⟨-, -, hzero, hfour, -, haddress, hspan, hfits⟩ := hok
  have hmul := toNat_mul_setWidth s.current.pitch s.current.height
  have hmax : (BitVec.allOnes 64).toNat = 2 ^ 64 - 1 := rfl
  generalize s.current.pitch.setWidth 64 * s.current.height.setWidth 64 = span at hspan hfits hmul
  change ¬ bytesPerPixel s.current = 0 at hzero
  change ¬ 4 < bytesPerPixel s.current at hfour
  exact ⟨by bv_omega, by bv_omega, by bv_omega, by bv_omega⟩

/-- Drawing starts with that check. -/
theorem geometry_of_target (h : framebufferTarget s = .ok target) :
    Geometry s.current ∧ target ≠ 0 := by
  unfold framebufferTarget at h
  split_ifs at h with hok hmapped hsize
  · obtain rfl := Except.ok.inj h
    exact ⟨geometry_of_ok hok, hmapped⟩
  · dsimp only at h
    split_ifs at h
    obtain rfl := Except.ok.inj h
    have hg := geometry_of_ok hok
    refine ⟨hg, fun hzero => ?_⟩
    have := hg.address
    rw [hzero] at this
    exact absurd this (by decide)

/-! ### The stores of the three functions -/

theorem mem_store8 {a : U64} {v : U8} {e : Store} : e ∈ (store8 a v m).events ↔ e = (a, v) :=
  List.mem_singleton

/-- The bytes of a pixel. -/
def pixelBytes (c : FramebufferInfo) (target : U64) (x y : U32) : Set U64 :=
  {a | ∃ byte < bytesPerPixel c, a = pixelAddress c target x y + byte}

/-- The stores of `pixel` at `(x, y)`. -/
def PixelStore (c : FramebufferInfo) (target : U64) (pixel : U32) (y x : U32) (e : Store) : Prop :=
  ∃ byte < bytesPerPixel c,
    e = (pixelAddress c target x y + byte, (pixel >>> (byte * 8)).setWidth 8)

theorem mem_paint {pixel : U32} {e : Store} :
    e ∈ (paint c target pixel y x m).events ↔ PixelStore c target pixel y x e := by
  refine (mem_events_forUp (P := fun byte e => e = (pixelAddress c target x y + byte,
    (pixel >>> (byte * 8)).setWidth 8)) fun _ _ _ => mem_store8).trans ?_
  exact exists_congr fun byte => and_iff_right (Nat.zero_le _)

/-- Painting the pixels of a rectangle. -/
theorem mem_paintRect {pixel x' y' : U32} {e : Store} :
    e ∈ (forUp y y' (fun row => forUp x x' (paint c target pixel row)) m).events ↔
      ∃ row, y ≤ row ∧ row < y' ∧ ∃ column, x ≤ column ∧ column < x' ∧
        PixelStore c target pixel row column e := by
  have hrow : ∀ row m e, e ∈ (forUp x x' (paint c target pixel row) m).events ↔
      ∃ column, x ≤ column ∧ column < x' ∧ PixelStore c target pixel row column e :=
    fun row m e => mem_events_forUp (P := PixelStore c target pixel row) fun _ _ _ => mem_paint
  exact mem_events_forUp hrow

/-- `sb_framebuffer_clear` paints the pixels of the screen. -/
theorem sbFramebufferClear_eq (h : framebufferTarget s = .ok target) (red green blue : U8)
    (m : Mem) : sbFramebufferClear s red green blue m = (do
      let m ← forUp 0 s.current.height (fun y => forUp 0 s.current.width
        (paint s.current target (packPixel s.current red green blue) y)) m
      pure (0, m)) := by
  rw [sbFramebufferClear, h]
  rfl

/-- `sb_framebuffer_draw_pixel` paints one pixel, unless the offset of the pixel does not fit. -/
theorem sbFramebufferDrawPixel_eq (h : framebufferTarget s = .ok target)
    (hx : x < s.current.width) (hy : y < s.current.height) (red green blue : U8) (m : Mem) :
    sbFramebufferDrawPixel s x y red green blue m =
      if BitVec.allOnes 64 - x.setWidth 64 * bytesPerPixel s.current <
          y.setWidth 64 * s.current.pitch.setWidth 64 then pure (-3, m)
      else (do
        let m ← paint s.current target (packPixel s.current red green blue) y x m
        pure (0, m)) := by
  rw [sbFramebufferDrawPixel, if_neg (by bv_omega), h]
  rfl

/-- The size of a rectangle, cut off at the edge of the screen. -/
def clipped (limit start size : U32) : U32 := if limit - start < size then limit - start else size

/-- A side is cut at the edge of the screen. -/
theorem toNat_clipped {limit start : U32} (h : start < limit) (size : U32) :
    (clipped limit start size).toNat = min size.toNat (limit.toNat - start.toNat) := by
  unfold clipped
  split_ifs <;> bv_omega

/-- The whole screen is not cut. -/
theorem clipped_whole (limit : U32) : (0 : U32) + clipped limit 0 limit = limit := by
  unfold clipped
  split_ifs <;> bv_omega

/-- A pixel further to the right. -/
theorem pixelAddress_add {column : U32} (hfit : x.toNat + column.toNat < 2 ^ 32) (y : U32) :
    pixelAddress c target (x + column) y = target + (y.setWidth 64 * c.pitch.setWidth 64 +
      x.setWidth 64 * bytesPerPixel c) + column.setWidth 64 * bytesPerPixel c := by
  have hsum : (x + column).setWidth 64 = x.setWidth 64 + column.setWidth 64 := by
    refine BitVec.eq_of_toNat_eq ?_
    rw [BitVec.toNat_setWidth_of_le (by decide), BitVec.toNat_add, BitVec.toNat_add,
      BitVec.toNat_setWidth_of_le (by decide), BitVec.toNat_setWidth_of_le (by decide)]
    omega
  rw [pixelAddress, hsum, BitVec.add_mul, BitVec.add_assoc, BitVec.add_assoc, BitVec.add_assoc]

/-- `sb_framebuffer_fill_rect` paints the pixels of the rectangle on the screen. -/
theorem sbFramebufferFillRect_eq (h : framebufferTarget s = .ok target)
    (hx : x < s.current.width) (hy : y < s.current.height) (width height : U32)
    (red green blue : U8) (m : Mem) :
    sbFramebufferFillRect s x y width height red green blue m = (do
      let m ← forUp y (y + clipped s.current.height y height) (fun row =>
        forUp x (x + clipped s.current.width x width)
          (paint s.current target (packPixel s.current red green blue) row)) m
      pure (0, m)) := by
  have hcolumns := toNat_clipped hx width
  have hfit : x.toNat + (clipped s.current.width x width).toNat < 2 ^ 32 := by
    have := s.current.width.isLt
    omega
  rcases Decidable.em (width = 0 ∨ height = 0) with hempty | hne
  · have hnothing : forUp y (y + clipped s.current.height y height) (fun row =>
        forUp x (x + clipped s.current.width x width)
          (paint s.current target (packPixel s.current red green blue) row)) m = pure m := by
      rcases hempty with rfl | rfl
      · have hzero : clipped s.current.width x 0 = 0 :=
          BitVec.eq_of_toNat_eq (by rw [hcolumns]; simp)
        refine (forUp_congr (fun row _ _ => funext fun m => ?_) m).trans (forUp_pure ..)
        exact forUp_of_le (by rw [hzero]; bv_omega) ..
      · have hzero : clipped s.current.height y 0 = 0 :=
          BitVec.eq_of_toNat_eq (by rw [toNat_clipped hy 0]; simp)
        exact forUp_of_le (by rw [hzero]; bv_omega) ..
    rw [sbFramebufferFillRect, if_pos hempty, hnothing]
    rfl
  · rw [sbFramebufferFillRect, if_neg hne, if_neg (by bv_omega), h]
    refine congrArg (· >>= _) (forUp_congr (fun row _ _ => funext fun m => ?_) m)
    rw [← forUp_shift hfit]
    refine forUp_congr (fun column _ hcolumn => ?_) m
    change column < clipped s.current.width x width at hcolumn
    rw [paint, pixelAddress_add (by bv_omega)]

/-! ### Inside the framebuffer -/

/-- The store is to one of the `pitch * height` bytes from `target` on. -/
def Inside (c : FramebufferInfo) (target : U64) (e : Store) : Prop :=
  target.toNat ≤ e.1.toNat ∧ e.1.toNat < target.toNat + c.pitch.toNat * c.height.toNat

/-- Drawing, with any arguments, stores inside the framebuffer, and no two pixels of the screen
share a byte. -/
structure DrawsInside (s : Framebuffer) (target : U64) : Prop where
  clear : ∀ red green blue m, Safe (Inside s.current target) (sbFramebufferClear s red green blue m)
  drawPixel : ∀ x y red green blue m,
    Safe (Inside s.current target) (sbFramebufferDrawPixel s x y red green blue m)
  fillRect : ∀ x y width height red green blue m,
    Safe (Inside s.current target) (sbFramebufferFillRect s x y width height red green blue m)
  apart : ∀ x y x' y', x < s.current.width → y < s.current.height → x' < s.current.width →
    y' < s.current.height → (x, y) ≠ (x', y') →
    Disjoint (pixelBytes s.current target x y) (pixelBytes s.current target x' y')

/-- The rows fit: the pixels of a row into the pitch, and those of the last row below the end of the
address space. -/
def RowsFit (c : FramebufferInfo) (target : U64) : Prop :=
  c.width = 0 ∨ c.width.toNat * (bytesPerPixel c).toNat ≤ c.pitch.toNat ∧
    target.toNat + (c.height.toNat - 1) * c.pitch.toNat + c.width.toNat * (bytesPerPixel c).toNat ≤
      2 ^ 64

/-- The address of a byte of a pixel. -/
theorem toNat_pixelByte (hg : Geometry c) (target : U64) (x y : U32) (byte : U64) :
    (pixelAddress c target x y + byte).toNat =
      (target.toNat + (y.toNat * c.pitch.toNat +
        (x.toNat * (bytesPerPixel c).toNat + byte.toNat))) % 2 ^ 64 := by
  have hrow := toNat_mul_setWidth y c.pitch
  have hbound : x.toNat * (bytesPerPixel c).toNat ≤ x.toNat * 4 := Nat.mul_le_mul_left _ hg.bytes.2
  have hcolumn : (x.setWidth 64 * bytesPerPixel c : U64).toNat =
      x.toNat * (bytesPerPixel c).toNat := by
    have := x.isLt
    rw [BitVec.toNat_mul, BitVec.toNat_setWidth_of_le (by decide)]
    exact Nat.mod_eq_of_lt (by omega)
  rw [pixelAddress, BitVec.toNat_add, BitVec.toNat_add, BitVec.toNat_add, hrow, hcolumn]
  omega

/-- A number with its remainder below `n`. -/
theorem eq_of_mul_add_eq {n a b r r' : ℕ} (hr : r < n) (hr' : r' < n) (h : a * n + r = b * n + r') :
    r = r' ∧ a = b := by
  have hmod := congrArg (· % n) h
  have hdiv := congrArg (· / n) h
  simp only [Nat.mul_add_mod_self_right, Nat.mod_eq_of_lt hr, Nat.mod_eq_of_lt hr'] at hmod
  rw [Nat.mul_comm a, Nat.mul_comm b] at hdiv
  simp only [Nat.mul_add_div (Nat.zero_lt_of_lt hr), Nat.div_eq_of_lt hr, Nat.div_eq_of_lt hr']
    at hdiv
  exact ⟨hmod, hdiv⟩

/-- Inside a row that fits. -/
theorem pixel_lt_row {width bytes x byte : ℕ} (hx : x < width) (hbyte : byte < bytes) :
    x * bytes + byte < width * bytes := by
  have := Nat.mul_le_mul_right bytes (Nat.succ_le_of_lt hx)
  rw [Nat.succ_mul] at this
  omega

/-- The offset of a byte of the screen, where the rows fit: it is inside the framebuffer, and the
address does not wrap around. -/
theorem RowsFit.toNat_pixelByte (hfit : RowsFit c target) (hg : Geometry c)
    (hx : x < c.width) (hy : y < c.height) {byte : U64} (hbyte : byte < bytesPerPixel c) :
    x.toNat * (bytesPerPixel c).toNat + byte.toNat < c.pitch.toNat ∧
    (pixelAddress c target x y + byte).toNat =
      target.toNat + (y.toNat * c.pitch.toNat + (x.toNat * (bytesPerPixel c).toNat + byte.toNat)) ∧
    Inside c target (pixelAddress c target x y + byte, 0) := by
  obtain ⟨hrow, hlast⟩ := hfit.resolve_left (by bv_omega)
  have hcolumn := pixel_lt_row (BitVec.lt_def.1 hx) (BitVec.lt_def.1 hbyte)
  have hy' : y.toNat < c.height.toNat := hy
  have hrows : y.toNat * c.pitch.toNat ≤ (c.height.toNat - 1) * c.pitch.toNat :=
    Nat.mul_le_mul_right _ (by omega)
  have hend : (y.toNat + 1) * c.pitch.toNat ≤ c.height.toNat * c.pitch.toNat :=
    Nat.mul_le_mul_right _ hy'
  have hnat := Display.toNat_pixelByte hg target x y byte
  rw [Nat.mod_eq_of_lt (by omega)] at hnat
  refine ⟨by omega, hnat, ?_⟩
  rw [Inside, hnat, Nat.mul_comm c.pitch.toNat]
  rw [Nat.succ_mul] at hend
  omega

/-- Where the rows fit, painting stays inside. -/
theorem RowsFit.inside (hfit : RowsFit c target) (hg : Geometry c) {pixel : U32}
    (hx : x < c.width) (hy : y < c.height) {e : Store} (he : PixelStore c target pixel y x e) :
    Inside c target e := by
  obtain ⟨byte, hbyte, rfl⟩ := he
  exact (hfit.toNat_pixelByte hg hx hy hbyte).2.2

/-- Where the rows fit, the pixels are apart. -/
theorem RowsFit.apart (hfit : RowsFit c target) (hg : Geometry c) {x' y' : U32}
    (hx : x < c.width) (hy : y < c.height) (hx' : x' < c.width) (hy' : y' < c.height)
    (hne : (x, y) ≠ (x', y')) : Disjoint (pixelBytes c target x y) (pixelBytes c target x' y') := by
  rw [Set.disjoint_left]
  rintro _ ⟨byte, hbyte, rfl⟩ ⟨byte', hbyte', heq⟩
  obtain ⟨hrow, hnat, -⟩ := hfit.toNat_pixelByte hg hx hy hbyte
  obtain ⟨hrow', hnat', -⟩ := hfit.toNat_pixelByte hg hx' hy' hbyte'
  have heq : y.toNat * c.pitch.toNat + (x.toNat * (bytesPerPixel c).toNat + byte.toNat) =
      y'.toNat * c.pitch.toNat + (x'.toNat * (bytesPerPixel c).toNat + byte'.toNat) := by
    have := congrArg BitVec.toNat heq
    omega
  -- quotient and remainder by the pitch are row and column, those by the size of a pixel the pixel
  obtain ⟨hcolumn, hyy⟩ := eq_of_mul_add_eq hrow hrow' heq
  obtain ⟨-, hxx⟩ := eq_of_mul_add_eq (BitVec.lt_def.1 hbyte) (BitVec.lt_def.1 hbyte') hcolumn
  exact hne (Prod.ext (BitVec.eq_of_toNat_eq hxx) (BitVec.eq_of_toNat_eq hyy))

/-- Every byte of a row of the screen belongs to a pixel. -/
theorem exists_pixelByte (hg : Geometry c) {j : ℕ}
    (hj : j < c.width.toNat * (bytesPerPixel c).toNat) :
    ∃ x byte, x < c.width ∧ byte < bytesPerPixel c ∧
      x.toNat * (bytesPerPixel c).toNat + byte.toNat = j := by
  have hbytes := hg.bytes
  have hdiv : j / (bytesPerPixel c).toNat < c.width.toNat :=
    Nat.div_lt_of_lt_mul (by rwa [Nat.mul_comm])
  have hmod : j % (bytesPerPixel c).toNat < (bytesPerPixel c).toNat := Nat.mod_lt _ (by omega)
  have hx : (BitVec.ofNat 32 (j / (bytesPerPixel c).toNat)).toNat =
      j / (bytesPerPixel c).toNat := by
    have := c.width.isLt
    rw [BitVec.toNat_ofNat]
    exact Nat.mod_eq_of_lt (by omega)
  have hbyte : (BitVec.ofNat 64 (j % (bytesPerPixel c).toNat)).toNat =
      j % (bytesPerPixel c).toNat := by
    rw [BitVec.toNat_ofNat]
    exact Nat.mod_eq_of_lt (by omega)
  refine ⟨BitVec.ofNat 32 (j / (bytesPerPixel c).toNat),
    BitVec.ofNat 64 (j % (bytesPerPixel c).toNat), ?_, ?_, ?_⟩
  · rw [BitVec.lt_def, hx]
    exact hdiv
  · rw [BitVec.lt_def, hbyte]
    exact hmod
  · rw [hx, hbyte, Nat.mul_comm]
    exact Nat.div_add_mod ..

/-- Clearing stores to every byte of the last row. -/
theorem DrawsInside.lastRow (hd : DrawsInside s target) (h : framebufferTarget s = .ok target)
    (hg : Geometry s.current) {j : ℕ}
    (hj : j < s.current.width.toNat * (bytesPerPixel s.current).toNat) :
    target.toNat ≤
      (target.toNat + ((s.current.height.toNat - 1) * s.current.pitch.toNat + j)) % 2 ^ 64 ∧
    (target.toNat + ((s.current.height.toNat - 1) * s.current.pitch.toNat + j)) % 2 ^ 64 <
      target.toNat + s.current.pitch.toNat * s.current.height.toNat := by
  obtain ⟨x, byte, hx, hbyte, rfl⟩ := exists_pixelByte hg hj
  have hheight := hg.height_ne_zero
  have hclear := hd.clear 0 0 0 fun _ => 0
  rw [sbFramebufferClear_eq h, safe_bind] at hclear
  have hin := hclear.1 _ (mem_paintRect.2 ⟨s.current.height - 1, Nat.zero_le _, by bv_omega, x,
    Nat.zero_le _, hx, byte, hbyte, rfl⟩)
  rw [Inside, toNat_pixelByte hg,
    show (s.current.height - 1).toNat = s.current.height.toNat - 1 by bv_omega] at hin
  exact hin

/-- Drawing that stays inside needs rows that fit. -/
theorem DrawsInside.rowsFit (hd : DrawsInside s target) (h : framebufferTarget s = .ok target) :
    RowsFit s.current target := by
  obtain ⟨hg, hzero⟩ := geometry_of_target h
  refine or_iff_not_imp_left.2 fun hwidth => ?_
  have hspan := hg.span
  have hfits := hg.fits
  have hrows : (s.current.height.toNat - 1) * s.current.pitch.toNat + s.current.pitch.toNat =
      s.current.pitch.toNat * s.current.height.toNat := by
    rw [← Nat.succ_mul, Nat.mul_comm, Nat.succ_eq_add_one,
      Nat.sub_add_cancel (Nat.pos_of_ne_zero hg.height_ne_zero)]
  have htarget : 1 ≤ target.toNat := by bv_omega
  have hpitch : s.current.width.toNat * (bytesPerPixel s.current).toNat ≤
      s.current.pitch.toNat := by
    rcases Nat.lt_or_ge s.current.pitch.toNat
      (s.current.width.toNat * (bytesPerPixel s.current).toNat) with hlt | hge
    · -- the byte right behind the last row
      have := hd.lastRow h hg hlt
      omega
    · exact hge
  have hpos : 0 < s.current.width.toNat * (bytesPerPixel s.current).toNat :=
    Nat.mul_pos (by bv_omega) hg.bytes.1
  -- the last byte of the last row
  have hlast := hd.lastRow h hg
    (show s.current.width.toNat * (bytesPerPixel s.current).toNat - 1 < _ by omega)
  exact ⟨hpitch, by omega⟩

/-- Where the rows fit, all three functions stay inside. -/
theorem RowsFit.drawsInside (hfit : RowsFit s.current target)
    (h : framebufferTarget s = .ok target) : DrawsInside s target := by
  obtain ⟨hg, -⟩ := geometry_of_target h
  refine ⟨fun red green blue m => ?_, fun x y red green blue m => ?_,
    fun x y width height red green blue m => ?_,
    fun x y x' y' hx hy hx' hy' hne => hfit.apart hg hx hy hx' hy' hne⟩
  · rw [sbFramebufferClear_eq h, safe_bind]
    refine ⟨fun e he => ?_, safe_pure _⟩
    obtain ⟨y, -, hy, x, -, hx, hstore⟩ := mem_paintRect.1 he
    exact hfit.inside hg hx hy hstore
  · rcases Decidable.em (s.current.width ≤ x ∨ s.current.height ≤ y) with hout | hin
    · rw [sbFramebufferDrawPixel, if_pos hout]
      exact safe_pure _
    rw [sbFramebufferDrawPixel_eq h (by bv_omega) (by bv_omega)]
    refine safe_ite (fun _ => safe_pure _) fun _ => ?_
    rw [safe_bind]
    exact ⟨fun e he => hfit.inside hg (by bv_omega) (by bv_omega) (mem_paint.1 he), safe_pure _⟩
  · rcases Decidable.em (s.current.width ≤ x ∨ s.current.height ≤ y) with hout | hin
    · rw [sbFramebufferFillRect, if_pos hout]
      exact safe_ite (fun _ => safe_pure _) fun _ => safe_pure _
    have hx : x < s.current.width := by bv_omega
    have hy : y < s.current.height := by bv_omega
    have hcolumns := toNat_clipped hx width
    have hrows := toNat_clipped hy height
    rw [sbFramebufferFillRect_eq h hx hy, safe_bind]
    refine ⟨fun e he => ?_, safe_pure _⟩
    obtain ⟨row, -, hrow, column, -, hcolumn, hstore⟩ := mem_paintRect.1 he
    exact hfit.inside hg (by bv_omega) (by bv_omega) hstore

/-- **Drawing stays inside the framebuffer exactly when the rows fit.**  For every framebuffer that
can be drawn on: all stores of the three functions, with any arguments, are inside it and no two
pixels share a byte, exactly when the pixels of a row fit into the pitch and the last of them lies
below the end of the address space. -/
theorem drawing_inside_iff (h : framebufferTarget s = .ok target) :
    DrawsInside s target ↔ RowsFit s.current target :=
  ⟨fun hd => hd.rowsFit h, fun hfit => hfit.drawsInside h⟩

/-- 1024 by 768 pixels of 32 bits, at 20000000h. -/
def largeScreen : Framebuffer where
  current :=
    { address := 0x20000000, pitch := 4096, width := 1024, height := 768, bitsPerPixel := 32,
      type := 1, redPosition := 16, redMaskSize := 8, greenPosition := 8,
      greenMaskSize := 8, blueMaskSize := 8 }
  available := 1

/-- The screen of the examples can be drawn on. -/
theorem largeScreen_target : framebufferTarget largeScreen = .ok 0x20000000 := by decide

/-- Its stores are inside its buffer. -/
theorem largeScreen_drawsInside : DrawsInside largeScreen 0x20000000 :=
  (drawing_inside_iff largeScreen_target).2 (Or.inr (by decide))

/-- Five by two pixels of 32 bits, but with rows of 16 bytes. -/
def narrowScreen : Framebuffer where
  current :=
    { address := 0x20000000, pitch := 16, width := 5, height := 2, bitsPerPixel := 32, type := 1,
      redPosition := 16, redMaskSize := 8, greenPosition := 8, greenMaskSize := 8,
      blueMaskSize := 8 }
  available := 1

/-- The framebuffer is accepted, but clearing it stores behind its 32 bytes, and the last pixel of
the first row shares its bytes with the first pixel of the second. -/
theorem narrowScreen_overflows :
    framebufferTarget narrowScreen = .ok 0x20000000 ∧
    (∃ e ∈ (sbFramebufferClear narrowScreen 255 255 255 fun _ => 0).events,
      ¬ Inside narrowScreen.current 0x20000000 e) ∧
    ¬ Disjoint (pixelBytes narrowScreen.current 0x20000000 4 0)
      (pixelBytes narrowScreen.current 0x20000000 0 1) := by
  refine ⟨by decide, ⟨(0x20000020, 255), by decide +kernel, ?_⟩, fun hdisjoint => ?_⟩
  · rw [Inside]
    decide
  · exact Set.disjoint_left.1 hdisjoint (show 0x20000010 ∈ _ from ⟨0, by decide, by decide⟩)
      ⟨0, by decide, by decide⟩

/-! ### Bulk drawing -/

/-- The pixels of a rectangle that are on the screen, row by row. -/
def screenPixels (c : FramebufferInfo) (x y width height : U32) : List (U32 × U32) :=
  (List.range' y.toNat (min height.toNat (c.height.toNat - y.toNat))).flatMap fun row =>
    (List.range' x.toNat (min width.toNat (c.width.toNat - x.toNat))).map fun column =>
      (BitVec.ofNat 32 column, BitVec.ofNat 32 row)

/-- Calling `sb_framebuffer_draw_pixel` for one pixel after the other. -/
def drawPixels (s : Framebuffer) (red green blue : U8) (pixels : List (U32 × U32)) (m : Mem) :
    Traced Store Mem :=
  pixels.foldlM (fun m p => Prod.snd <$> sbFramebufferDrawPixel s p.1 p.2 red green blue m) m

/-- The indices of a loop over a cut off range. -/
theorem indices_clipped {limit start : U32} (h : start < limit) (size : U32) :
    indices start (start + clipped limit start size) =
      (List.range' start.toNat (min size.toNat (limit.toNat - start.toNat))).map
      (BitVec.ofNat 32) := by
  have hsize := toNat_clipped h size
  have hlimit := limit.isLt
  have hstop : (start + clipped limit start size).toNat =
      start.toNat + (clipped limit start size).toNat := by
    rw [BitVec.toNat_add]
    exact Nat.mod_eq_of_lt (by omega)
  rw [indices, hstop, Nat.add_sub_cancel_left, hsize]

theorem mem_screenPixels {width height : U32} {p : U32 × U32}
    (hp : p ∈ screenPixels c x y width height) : p.1 < c.width ∧ p.2 < c.height := by
  simp only [screenPixels, List.mem_flatMap, List.mem_map, List.mem_range'_1] at hp
  obtain ⟨row, hrow, column, hcolumn, rfl⟩ := hp
  have hw := c.width.isLt
  have hh := c.height.isLt
  rw [BitVec.lt_def, BitVec.lt_def, BitVec.toNat_ofNat, BitVec.toNat_ofNat,
    Nat.mod_eq_of_lt (by omega), Nat.mod_eq_of_lt (by omega)]
  omega

/-- Painting a rectangle, pixel by pixel. -/
theorem paintRect_eq (hx : x < c.width) (hy : y < c.height) (width height pixel : U32) (m : Mem) :
    forUp y (y + clipped c.height y height) (fun row => forUp x (x + clipped c.width x width)
      (paint c target pixel row)) m =
    (screenPixels c x y width height).foldlM (fun m p => paint c target pixel p.2 p.1 m) m := by
  have hpixels : screenPixels c x y width height =
      ((indices y (y + clipped c.height y height)).flatMap fun row =>
        (indices x (x + clipped c.width x width)).map (Prod.mk row)).map Prod.swap := by
    rw [screenPixels, indices_clipped hx, indices_clipped hy, List.flatMap_map, List.map_flatMap]
    simp only [List.map_map]
    rfl
  rw [forUp_forUp, hpixels, List.foldlM_map]
  rfl

/-- On the screen, a call returns `0` when the offset of the pixel fits. -/
theorem drawPixel_zero (h : framebufferTarget s = .ok target) (hx : x < s.current.width)
    (hy : y < s.current.height)
    (hfit : y.toNat * s.current.pitch.toNat + x.toNat * (bytesPerPixel s.current).toNat < 2 ^ 64)
    (red green blue : U8) (m : Mem) :
    (sbFramebufferDrawPixel s x y red green blue m).value.1 = 0 := by
  have hrow := toNat_mul_setWidth y s.current.pitch
  have hcolumn : (x.setWidth 64 * bytesPerPixel s.current).toNat =
      x.toNat * (bytesPerPixel s.current).toNat := by
    rw [BitVec.toNat_mul, BitVec.toNat_setWidth_of_le (by decide)]
    exact Nat.mod_eq_of_lt (by omega)
  have hmax : (BitVec.allOnes 64).toNat = 2 ^ 64 - 1 := rfl
  rw [sbFramebufferDrawPixel_eq h hx hy, if_neg]
  · rfl
  · generalize y.setWidth 64 * s.current.pitch.setWidth 64 = row at hrow ⊢
    generalize x.setWidth 64 * bytesPerPixel s.current = column at hcolumn ⊢
    bv_omega

/-- On the screen, a call that returns `0` paints its pixel. -/
theorem drawPixel_paints (h : framebufferTarget s = .ok target)
    (hx : x < s.current.width) (hy : y < s.current.height) {red green blue : U8}
    (hzero : (sbFramebufferDrawPixel s x y red green blue m).value.1 = 0) (m' : Mem) :
    Prod.snd <$> sbFramebufferDrawPixel s x y red green blue m' =
      paint s.current target (packPixel s.current red green blue) y x m' := by
  rw [sbFramebufferDrawPixel_eq h hx hy] at hzero ⊢
  split_ifs at hzero ⊢ with hoverflow
  · exact absurd hzero (show (-3 : ℤ) ≠ 0 by decide)
  · simp only [map_bind, map_pure, bind_pure]

/-- **Bulk drawing makes the stores of pixel-wise drawing.**  On every framebuffer that can be drawn
on: a rectangle that begins on the screen, of any size, all of whose pixels on the screen can be
drawn, is filled by the very stores, in the same order, of drawing these pixels row by row; and
clearing is filling the whole screen. -/
theorem bulk_drawing (h : framebufferTarget s = .ok target) (red green blue : U8) (m : Mem) :
    (∀ x y width height : U32, x < s.current.width → y < s.current.height →
      (∀ p ∈ screenPixels s.current x y width height,
        (sbFramebufferDrawPixel s p.1 p.2 red green blue m).value.1 = 0) →
      sbFramebufferFillRect s x y width height red green blue m = (do
        let m ← drawPixels s red green blue (screenPixels s.current x y width height) m
        pure (0, m))) ∧
    sbFramebufferClear s red green blue m =
      sbFramebufferFillRect s 0 0 s.current.width s.current.height red green blue m := by
  constructor
  · intro x y width height hx hy hdrawn
    rw [sbFramebufferFillRect_eq h hx hy, paintRect_eq hx hy, drawPixels]
    refine congrArg (· >>= _) (foldlM_congr (fun p hp m' => ?_) m).symm
    obtain ⟨hx', hy'⟩ := mem_screenPixels hp
    exact drawPixel_paints h hx' hy' (hdrawn p hp) m'
  · have hheight := (geometry_of_target h).1.height_ne_zero
    rw [sbFramebufferClear_eq h]
    by_cases hwidth : s.current.width = 0
    · have hnothing : ∀ (y : U32) (m : Mem), forUp 0 s.current.width
          (paint s.current target (packPixel s.current red green blue) y) m = pure m :=
        fun y m => forUp_of_le (by rw [hwidth]; exact Nat.le_refl _) ..
      rw [sbFramebufferFillRect, if_pos (Or.inl hwidth),
        forUp_congr (fun y _ _ => funext (hnothing y)) m, forUp_pure, pure_bind]
    · rw [sbFramebufferFillRect_eq h (by bv_omega) (by bv_omega), clipped_whole, clipped_whole]

/-- The lower right corner, of a rectangle that is much larger. -/
theorem largeScreen_bulk :
    sbFramebufferFillRect largeScreen 1020 766 0xFFFFFFFF 0xFFFFFFFF 255 128 0 (fun _ => 0) = (do
      let m ← drawPixels largeScreen 255 128 0
        (screenPixels largeScreen.current 1020 766 0xFFFFFFFF 0xFFFFFFFF) fun _ => 0
      pure (0, m)) := by
  refine (bulk_drawing largeScreen_target 255 128 0 _).1 1020 766 _ _ (by decide) (by decide)
    fun p hp => ?_
  obtain ⟨hx, hy⟩ := mem_screenPixels hp
  refine drawPixel_zero largeScreen_target hx hy ?_ ..
  have hbytes : (bytesPerPixel largeScreen.current).toNat = 4 := by decide
  have hx' : p.1.toNat < 1024 := hx
  have hy' : p.2.toNat < 768 := hy
  rw [hbytes, show largeScreen.current.pitch.toNat = 4096 from rfl]
  omega

end SuiraBox.Display
