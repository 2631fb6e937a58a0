/-
# Probing for a framebuffer

`kernel/framebuffer.c`: `sb_framebuffer_init` walks the tags of the information
block, keeps what it finds in the last acceptable framebuffer tag and asks
`framebuffer_geometry_ok` whether to declare the framebuffer available.  That
function answers no as long as the framebuffer is not available, and the probe
begins with making it unavailable: it accepts no display at all
(`sbFramebufferInit_zero`).

The walk records its accesses.  They stay inside the block, and its offsets do
not wrap (`sbFramebufferInit_safe`).
-/

import SuiraBox.Library.Trace
import SuiraBox.Boot.Multiboot

namespace SuiraBox.Boot

open ByteMem Mm Trace

/-- `sb_framebuffer_info_t`. -/
structure FramebufferInfo where
  address : U64 := 0
  pitch : U32 := 0
  width : U32 := 0
  height : U32 := 0
  bitsPerPixel : U8 := 0
  type : U8 := 0
  redPosition : U8 := 0
  redMaskSize : U8 := 0
  greenPosition : U8 := 0
  greenMaskSize : U8 := 0
  bluePosition : U8 := 0
  blueMaskSize : U8 := 0
  mappedAddress : U64 := 0
  mappedSize : U64 := 0
  deriving DecidableEq

/-- The static variables of `framebuffer.c`. -/
structure Framebuffer where
  current : FramebufferInfo
  available : ℤ

/-- `sb_mb2_fb_tag_prefix_t`. -/
structure FbTagPrefix where
  address : U64
  pitch : U32
  width : U32
  height : U32
  bpp : U8
  framebufferType : U8

/-- `sb_mb2_fb_direct_info_t`. -/
structure FbDirectInfo where
  redPosition : U8
  redMaskSize : U8
  greenPosition : U8
  greenMaskSize : U8
  bluePosition : U8
  blueMaskSize : U8

/-- `align8`. -/
def align8 (value : U64) : U64 :=
  if BitVec.allOnes 64 - 7 < value then BitVec.allOnes 64 else (value + 7) &&& ~~~7

/-- `framebuffer_geometry_ok`. -/
def framebufferGeometryOk (s : Framebuffer) : ℤ :=
  let c := s.current
  let bytesPerPixel : U64 := (c.bitsPerPixel.setWidth 64 + 7) / 8
  let span : U64 := c.pitch.setWidth 64 * c.height.setWidth 64
  if s.available = 0 ∨ c.type ≠ 1 ∨ bytesPerPixel = 0 ∨ 4 < bytesPerPixel ∨ 32 < c.bitsPerPixel ∨
      c.address = 0 ∨ span = 0 ∨ BitVec.allOnes 64 - c.address < span then 0
  else if 32 ≤ c.redPosition ∨ 32 ≤ c.greenPosition ∨ 32 ≤ c.bluePosition ∨
      32 < c.redMaskSize ∨ 32 < c.greenMaskSize ∨ 32 < c.blueMaskSize ∨
      c.bitsPerPixel.toNat < c.redPosition.toNat + c.redMaskSize.toNat ∨
      c.bitsPerPixel.toNat < c.greenPosition.toNat + c.greenMaskSize.toNat ∨
      c.bitsPerPixel.toNat < c.bluePosition.toNat + c.blueMaskSize.toNat then 0
  else 1

/-- The fields of the prefix; the code reads no others before the direct-colour
information. -/
def loadPrefix (m : Mem) (tag : ℕ) : Traced Access FbTagPrefix := do
  let address ← load64 m (tag + 8)
  let pitch ← load32 m (tag + 16)
  let width ← load32 m (tag + 20)
  let height ← load32 m (tag + 24)
  let bpp ← load8 m (tag + 28)
  let framebufferType ← load8 m (tag + 29)
  pure ⟨address, pitch, width, height, bpp, framebufferType⟩

/-- The direct-colour information behind the prefix. -/
def loadDirect (m : Mem) (tag : ℕ) : Traced Access FbDirectInfo := do
  let redPosition ← load8 m (tag + 32)
  let redMaskSize ← load8 m (tag + 33)
  let greenPosition ← load8 m (tag + 34)
  let greenMaskSize ← load8 m (tag + 35)
  let bluePosition ← load8 m (tag + 36)
  let blueMaskSize ← load8 m (tag + 37)
  pure ⟨redPosition, redMaskSize, greenPosition, greenMaskSize, bluePosition, blueMaskSize⟩

/-- The checks on the prefix. -/
def prefixOk (fb : FbTagPrefix) : Bool :=
  let bytesPerPixel : U64 := (fb.bpp.setWidth 64 + 7) / 8
  let totalBytes : U64 := fb.pitch.setWidth 64 * fb.height.setWidth 64
  fb.address ≠ 0 ∧ fb.pitch ≠ 0 ∧ fb.width ≠ 0 ∧ fb.height ≠ 0 ∧ fb.bpp ≠ 0 ∧ fb.bpp ≤ 32 ∧
    bytesPerPixel ≤ 4 ∧ totalBytes ≤ BitVec.allOnes 64 - fb.address

/-- What the probe does with one tag that is not the end tag. -/
def probeTag (m : Mem) (tag : ℕ) (s : Framebuffer) : Traced Access Framebuffer := do
  let type ← load32 m tag
  let size ← load32 m (tag + 4)
  -- `SB_MB2_TAG_FRAMEBUFFER`
  if type = 8 ∧ 32 ≤ size then
    let fb ← loadPrefix m tag
    if prefixOk fb then
      let s := { s with current := { s.current with
        address := fb.address
        pitch := fb.pitch
        width := fb.width
        height := fb.height
        bitsPerPixel := fb.bpp
        type := fb.framebufferType } }
      -- `SB_FB_DIRECT`
      if fb.framebufferType = 1 ∧ 38 ≤ size then
        let direct ← loadDirect m tag
        let s := { s with current := { s.current with
          redPosition := direct.redPosition
          redMaskSize := direct.redMaskSize
          greenPosition := direct.greenPosition
          greenMaskSize := direct.greenMaskSize
          bluePosition := direct.bluePosition
          blueMaskSize := direct.blueMaskSize } }
        pure { s with available := framebufferGeometryOk s }
      else pure s
    else pure s
  else pure s

/-- The tag loop, with `n` tags to go until `SB_MB2_MAX_TAGS`, and what the function
returns after it. -/
def probeTags (m : Mem) (info : U64) (totalSize : U32) (n : ℕ) (offset : U32) (s : Framebuffer) :
    Traced Access (ℤ × Framebuffer) := do
  let last ← sub32 totalSize 8
  if offset ≤ last then
    match n with
    | 0 => pure (s.available, s)
    | n + 1 =>
      let tag := (info + offset.setWidth 64).toNat
      let size ← load32 m (tag + 4)
      let rest ← sub32 totalSize offset
      if size < 8 ∨ rest < size then pure (0, s)
      else
        let type ← load32 m tag
        -- `SB_MB2_TAG_END`
        if type = 0 then pure (s.available, s)
        else
          let s ← probeTag m tag s
          let next := align8 (size.setWidth 64)
          if 0xFFFFFFFF < next ∨ rest.setWidth 64 < next then pure (0, s)
          else
            let offset ← add32 offset (next.setWidth 32)
            probeTags m info totalSize n offset s
  else pure (s.available, s)

/-- `sb_framebuffer_init`: what it returns, and the variables after it. -/
def sbFramebufferInit (m : Mem) (info : U64) : Traced Access (ℤ × Framebuffer) := do
  let s : Framebuffer := ⟨{}, 0⟩
  if info = 0 ∨ 0x40000000 ≤ info then pure (0, s)
  else
    let totalSize ← load32 m info.toNat
    if totalSize < 16 ∨ 64 * 1024 < totalSize ∨ totalSize &&& 7 ≠ 0 ∨
        BitVec.allOnes 64 - info < totalSize.setWidth 64 then pure (0, s)
    else probeTags m info totalSize 128 8 s

/-- `sb_framebuffer_available`. -/
def sbFramebufferAvailable (s : Framebuffer) : ℤ := s.available

/-- `sb_framebuffer_info`. -/
def sbFramebufferInfo (s : Framebuffer) : Option FramebufferInfo :=
  if s.available ≠ 0 then some s.current else none

variable {m : Mem} {info : U64}

/-! ### Where the probe reads -/

/-- The word with the total size, and what lies inside the block: its loads, and
sums and differences that do not wrap. -/
def BlockAccess (m : Mem) (info : U64) (e : Access) : Prop :=
  e = .load info.toNat 4 ∨ e.Within info.toNat (read32 m info.toNat).toNat

variable {tag : ℕ} {s : Framebuffer}

/-- Rounding up to eight bytes does not wrap in 64 bits. -/
theorem align8_toNat (size : U32) : (align8 (size.setWidth 64)).toNat = roundUp8 size.toNat := by
  have hlt := size.isLt
  have hwide : (size.setWidth 64).toNat = size.toNat := BitVec.toNat_setWidth_of_le (by decide)
  have hmax : (BitVec.allOnes 64 - 7 : U64).toNat = 2 ^ 64 - 8 := by decide
  have hsum : (size.setWidth 64 + 7 : U64).toNat = size.toNat + 7 := by
    rw [BitVec.toNat_add, hwide, show (7 : U64).toNat = 7 from rfl]
    omega
  rw [align8, if_neg (by rw [BitVec.lt_def]; omega), roundUp8, ← hsum]
  exact Words.toNat_and_not_low _ (show 3 ≤ 64 by decide) rfl

/-- The fields common to all types are in the first 32 bytes. -/
theorem loadPrefix_safe {base len : ℕ} (hbase : base ≤ tag) (hin : tag + 32 ≤ base + len) :
    Safe (Access.Within base len) (loadPrefix m tag) := by
  simp only [loadPrefix, safe_bind, within_load64, within_load32, within_load8, safe_pure, and_true]
  omega

/-- The colour fields are in the first 38 bytes. -/
theorem loadDirect_safe {base len : ℕ} (hbase : base ≤ tag) (hin : tag + 38 ≤ base + len) :
    Safe (Access.Within base len) (loadDirect m tag) := by
  simp only [loadDirect, safe_bind, within_load8, safe_pure, and_true]
  omega

/-- A tag inside the block is read inside the block. -/
theorem probeTag_safe {base len : ℕ} (hbase : base ≤ tag) (h8 : 8 ≤ (tagSize m tag).toNat)
    (hin : tag + (tagSize m tag).toNat ≤ base + len) (s : Framebuffer) :
    Safe (Access.Within base len) (probeTag m tag s) := by
  unfold probeTag
  rw [safe_bind, safe_bind, within_load32, within_load32]
  refine ⟨by omega, by omega, safe_ite (fun htag => ?_) fun _ => safe_pure _⟩
  have h32 : 32 ≤ tagSize m tag := htag.2
  rw [safe_bind]
  refine ⟨loadPrefix_safe hbase (by bv_omega), safe_ite (fun _ => ?_) fun _ => safe_pure _⟩
  refine safe_ite (fun hdirect => ?_) fun _ => safe_pure _
  have h38 : 38 ≤ tagSize m tag := hdirect.2
  rw [safe_bind]
  exact ⟨loadDirect_safe hbase (by bv_omega), safe_pure _⟩

/-- The checks before a tag: what is done with the tag may rely on them. -/
theorem safe_tagHead {α : Type} {total off : U32} (hinfo : info.toNat < 2 ^ 30)
    (htotal : 16 ≤ total.toNat) (hmax : total.toNat ≤ 65536) {bad done : α} {last : U32 → α}
    {body : U32 → U32 → Traced Access α} (hbody : 8 ≤ (tagSize m (info.toNat + off.toNat)).toNat →
      off.toNat + (tagSize m (info.toNat + off.toNat)).toNat ≤ total.toNat →
      Safe (Access.Within info.toNat total.toNat) (body (tagSize m (info.toNat + off.toNat))
        (total - off))) :
    Safe (Access.Within info.toNat total.toNat) (do
      let limit ← sub32 total 8
      if off ≤ limit then
        let size ← load32 m ((info + off.setWidth 64).toNat + 4)
        let rest ← sub32 total off
        if size < 8 ∨ rest < size then pure bad
        else
          let type ← load32 m (info + off.setWidth 64).toNat
          if type = 0 then pure (last size) else body size rest
      else pure done) := by
  rw [safe_bind, within_sub32]
  refine ⟨by bv_omega, safe_ite (fun hoff => ?_) fun _ => safe_pure _⟩
  rw [value_sub32] at hoff
  have hlast : off.toNat + 8 ≤ total.toNat := by bv_omega
  rw [toNat_tag (by omega), safe_bind, safe_bind, within_load32, within_sub32]
  refine ⟨by omega, by omega, safe_ite (fun _ => safe_pure _) fun hbad => ?_⟩
  change ¬ (tagSize m (info.toNat + off.toNat) < 8 ∨
    total - off < tagSize m (info.toNat + off.toNat))
    at hbad
  rw [safe_bind, within_load32]
  exact ⟨by omega, safe_ite (fun _ => safe_pure _) fun _ => hbody (by bv_omega) (by bv_omega)⟩

/-- The walk stays inside the block, and its offsets do not wrap. -/
theorem probeTags_safe {total : U32} (hinfo : info.toNat < 2 ^ 30) (htotal : 16 ≤ total.toNat)
    (hmax : total.toNat ≤ 65536) {n : ℕ} {off : U32} :
    Safe (Access.Within info.toNat total.toNat) (probeTags m info total n off s) := by
  induction n generalizing off s with
  | zero =>
    unfold probeTags
    rw [safe_bind, within_sub32]
    exact ⟨by bv_omega, safe_ite (fun _ => safe_pure _) fun _ => safe_pure _⟩
  | succ n ih =>
    unfold probeTags
    refine safe_tagHead hinfo htotal hmax fun h8 hin => ?_
    have hlast : off.toNat + 8 ≤ total.toNat := by omega
    rw [toNat_tag (by omega), safe_bind]
    refine ⟨probeTag_safe (by omega) h8 (by omega) s, safe_ite (fun _ => safe_pure _)
      fun hnext => ?_⟩
    have hround := align8_toNat (tagSize m (info.toNat + off.toNat))
    rw [safe_bind, within_add32]
    refine ⟨?_, ih⟩
    rw [BitVec.toNat_setWidth, hround, roundUp8]
    bv_omega

/-- **The probe stays inside the block.** -/
theorem sbFramebufferInit_safe (m : Mem) (info : U64) :
    Safe (BlockAccess m info) (sbFramebufferInit m info) := by
  unfold sbFramebufferInit
  dsimp only
  refine safe_ite (fun _ => safe_pure _) fun haddr => ?_
  rw [safe_bind]
  refine ⟨(safe_tell ..).2 (Or.inl rfl), safe_ite (fun _ => safe_pure _) fun hsize => ?_⟩
  rw [value_load32] at hsize ⊢
  exact (probeTags_safe (by bv_omega) (by bv_omega) (by bv_omega)).mono fun e => Or.inr

/-! ### What the probe accepts -/

/-- Without a framebuffer there is no geometry. -/
theorem framebufferGeometryOk_unavailable (h : s.available = 0) :
    framebufferGeometryOk s = 0 := if_pos (Or.inl h)

/-- A tag leaves the framebuffer unavailable. -/
theorem probeTag_available (tag : ℕ) (h : s.available = 0) :
    (probeTag m tag s).value.available = 0 := by
  simp only [probeTag, value_bind, value_ite, value_pure]
  split_ifs with htag hok hdirect
  · exact framebufferGeometryOk_unavailable h
  · exact h
  · exact h
  · exact h

/-- So does the whole loop. -/
theorem probeTags_available {total : U32} {n : ℕ} {off : U32}
    (h : s.available = 0) : (probeTags m info total n off s).value.1 = 0 ∧
      (probeTags m info total n off s).value.2.available = 0 := by
  induction n generalizing off s with
  | zero =>
    unfold probeTags
    simp only [value_bind, value_pure, ite_self]
    exact ⟨h, h⟩
  | succ n ih =>
    unfold probeTags
    simp only [value_bind, value_ite, value_pure]
    have htag := probeTag_available (m := m) (info + off.setWidth 64).toNat h
    split_ifs
    · exact ⟨rfl, h⟩
    · exact ⟨h, h⟩
    · exact ⟨rfl, htag⟩
    · exact ih htag
    · exact ⟨h, h⟩

/-- **The probe accepts nothing.** -/
theorem sbFramebufferInit_zero (m : Mem) (info : U64) :
    (sbFramebufferInit m info).value.1 = 0 ∧
      sbFramebufferAvailable (sbFramebufferInit m info).value.2 = 0 ∧
      sbFramebufferInfo (sbFramebufferInit m info).value.2 = none := by
  have hzero : (sbFramebufferInit m info).value.1 = 0 ∧
      (sbFramebufferInit m info).value.2.available = 0 := by
    simp only [sbFramebufferInit, value_bind, value_ite, value_pure]
    split_ifs
    · exact ⟨rfl, rfl⟩
    · exact ⟨rfl, rfl⟩
    · exact probeTags_available rfl
  exact ⟨hzero.1, hzero.2, if_neg (not_not.2 hzero.2)⟩

/-! ### What it should accept -/

/-- The prefix of the tag at `tag`. -/
def fbTagPrefix (m : Mem) (tag : ℕ) : FbTagPrefix := (loadPrefix m tag).value

/-- The direct-colour information of the tag at `tag`. -/
def fbDirectInfo (m : Mem) (tag : ℕ) : FbDirectInfo := (loadDirect m tag).value

/-- A channel inside a pixel of `bpp` bits. -/
def ChannelInside (bpp position maskSize : U8) : Prop :=
  position < bpp ∧ position.toNat + maskSize.toNat ≤ bpp.toNat

/-- The tag at `tag` describes a display that can be drawn on. -/
structure IsDisplay (m : Mem) (tag : ℕ) : Prop where
  type : tagType m tag = 8
  size : 38 ≤ (tagSize m tag).toNat
  direct : (fbTagPrefix m tag).framebufferType = 1
  address : (fbTagPrefix m tag).address ≠ 0
  pitch : (fbTagPrefix m tag).pitch ≠ 0
  width : (fbTagPrefix m tag).width ≠ 0
  height : (fbTagPrefix m tag).height ≠ 0
  bpp : (fbTagPrefix m tag).bpp ≠ 0 ∧ (fbTagPrefix m tag).bpp ≤ 32
  fits : (fbTagPrefix m tag).address.toNat +
    (fbTagPrefix m tag).pitch.toNat * (fbTagPrefix m tag).height.toNat < 2 ^ 64
  red : ChannelInside (fbTagPrefix m tag).bpp (fbDirectInfo m tag).redPosition
    (fbDirectInfo m tag).redMaskSize
  green : ChannelInside (fbTagPrefix m tag).bpp (fbDirectInfo m tag).greenPosition
    (fbDirectInfo m tag).greenMaskSize
  blue : ChannelInside (fbTagPrefix m tag).bpp (fbDirectInfo m tag).bluePosition
    (fbDirectInfo m tag).blueMaskSize

/-- What the tag says about the display. -/
def displayInfo (m : Mem) (tag : ℕ) : FramebufferInfo where
  address := (fbTagPrefix m tag).address
  pitch := (fbTagPrefix m tag).pitch
  width := (fbTagPrefix m tag).width
  height := (fbTagPrefix m tag).height
  bitsPerPixel := (fbTagPrefix m tag).bpp
  type := (fbTagPrefix m tag).framebufferType
  redPosition := (fbDirectInfo m tag).redPosition
  redMaskSize := (fbDirectInfo m tag).redMaskSize
  greenPosition := (fbDirectInfo m tag).greenPosition
  greenMaskSize := (fbDirectInfo m tag).greenMaskSize
  bluePosition := (fbDirectInfo m tag).bluePosition
  blueMaskSize := (fbDirectInfo m tag).blueMaskSize

/-- The offsets of the first `n` tags from an offset on, without the end tag. -/
def tagOffsets (m : Mem) (info : ℕ) : ℕ → ℕ → List ℕ
  | 0, _ => []
  | n + 1, off =>
    if tagType m (info + off) = 0 then []
    else off :: tagOffsets m info n (off + roundUp8 (tagSize m (info + off)).toNat)

/-- Tag by tag well formed, up to an end tag. -/
inductive WellFormed (m : Mem) (info total : ℕ) : ℕ → Prop
  | last {off : ℕ} (hin : off + 8 ≤ total) (htype : tagType m (info + off) = 0)
      (hsize : tagSize m (info + off) = 8) : WellFormed m info total off
  | next {off : ℕ} (htype : tagType m (info + off) ≠ 0) (hsize : 8 ≤ (tagSize m (info + off)).toNat)
      (hin : off + roundUp8 (tagSize m (info + off)).toNat ≤ total)
      (hnext : WellFormed m info total (off + roundUp8 (tagSize m (info + off)).toNat)) :
      WellFormed m info total off

/-- The tag at offset `off` is the only framebuffer tag of a well-formed block, and
describes a display. -/
structure SoleDisplay (m : Mem) (info : U64) (off : ℕ) : Prop where
  address : info ≠ 0 ∧ info.toNat < 2 ^ 30
  total : 16 ≤ (read32 m info.toNat).toNat ∧ (read32 m info.toNat).toNat ≤ 65536 ∧
    (read32 m info.toNat).toNat % 8 = 0
  wellFormed : WellFormed m info.toNat (read32 m info.toNat).toNat 8
  sole : (tagOffsets m info.toNat 128 8).filter (fun off => tagType m (info.toNat + off) = 8) =
    [off]
  display : IsDisplay m (info.toNat + off)

/-- The probe reports a sole display, and reports nothing where no tag describes a
display. -/
def ProbeCorrect (m : Mem) (info : U64) : Prop :=
  let r := (sbFramebufferInit m info).value
  (∀ off, SoleDisplay m info off → r.1 = 1 ∧ sbFramebufferAvailable r.2 = 1 ∧
    sbFramebufferInfo r.2 = some (displayInfo m (info.toNat + off))) ∧
  ((∀ off ∈ tagOffsets m info.toNat 128 8, ¬ IsDisplay m (info.toNat + off)) → r.1 = 0)

/-- Only the flag makes `framebuffer_geometry_ok` refuse a display. -/
theorem framebufferGeometryOk_display (h : IsDisplay m tag) (available : ℤ) :
    framebufferGeometryOk ⟨displayInfo m tag, available⟩ = if available = 0 then 0 else 1 := by
  rcases eq_or_ne available 0 with rfl | hne
  · rw [if_pos rfl]
    exact framebufferGeometryOk_unavailable rfl
  rw [if_neg hne, framebufferGeometryOk]
  obtain ⟨-, -, hdirect, haddress, hpitch, -, hheight, hbpp, hfits, hred, hgreen, hblue⟩ := h
  have hspan : ((fbTagPrefix m tag).pitch.setWidth 64 * (fbTagPrefix m tag).height.setWidth 64 :
      U64).toNat = (fbTagPrefix m tag).pitch.toNat * (fbTagPrefix m tag).height.toNat := by
    rw [BitVec.toNat_mul, BitVec.toNat_setWidth_of_le (by decide),
      BitVec.toNat_setWidth_of_le (by decide)]
    exact Nat.mod_eq_of_lt (by omega)
  have hpos : 0 < (fbTagPrefix m tag).pitch.toNat * (fbTagPrefix m tag).height.toNat :=
    Nat.mul_pos (by bv_omega) (by bv_omega)
  have hbytes : (((fbTagPrefix m tag).bpp.setWidth 64 + 7) / 8 : U64).toNat =
      ((fbTagPrefix m tag).bpp.toNat + 7) / 8 := by
    rw [BitVec.toNat_udiv, BitVec.toNat_add, BitVec.toNat_setWidth_of_le (by decide),
      show (7 : U64).toNat = 7 from rfl, show (8 : U64).toNat = 8 from rfl]
    have := (fbTagPrefix m tag).bpp.isLt
    omega
  have hmax : (BitVec.allOnes 64).toNat = 2 ^ 64 - 1 := rfl
  refine (if_neg ?_).trans (if_neg ?_)
  · dsimp only [displayInfo]
    generalize ((fbTagPrefix m tag).bpp.setWidth 64 + 7) / 8 = bytes at hbytes ⊢
    generalize (fbTagPrefix m tag).pitch.setWidth 64 * (fbTagPrefix m tag).height.setWidth 64 =
      span at hspan ⊢
    rw [not_or, not_or, not_or, not_or, not_or, not_or, not_or]
    exact ⟨hne, not_not.2 hdirect, by bv_omega, by bv_omega, by bv_omega, haddress, by bv_omega,
      by bv_omega⟩
  · dsimp only [displayInfo]
    simp only [ChannelInside] at hred hgreen hblue
    bv_omega

/-- **The probe is correct exactly where there is nothing to find.** -/
theorem framebuffer_probe_iff (m : Mem) (info : U64) :
    ProbeCorrect m info ↔ ¬ ∃ off, SoleDisplay m info off := by
  obtain ⟨hzero, -, -⟩ := sbFramebufferInit_zero m info
  constructor
  · rintro hcorrect ⟨off, hsole⟩
    have hone := (hcorrect.1 off hsole).1
    rw [hzero] at hone
    exact absurd hone (by decide)
  · exact fun hnone => ⟨fun off hsole => absurd ⟨off, hsole⟩ hnone, fun _ => hzero⟩

/-- A block of 56 bytes: a display of 1024 by 768 pixels of 32 bits at E0000000h, and
the end tag. -/
def displayBlock : Mem := bytesAt 0x10000
  [56, 0, 0, 0, 0, 0, 0, 0,
    8, 0, 0, 0, 38, 0, 0, 0, 0, 0, 0, 0xE0, 0, 0, 0, 0, 0, 16, 0, 0, 0, 4, 0, 0, 0, 3, 0, 0,
    32, 1, 0, 0, 16, 8, 8, 8, 0, 8, 0, 0,
    0, 0, 0, 0, 8, 0, 0, 0]

/-- The probe refuses it. -/
theorem displayBlock_refused :
    SoleDisplay displayBlock 0x10000 8 ∧ (sbFramebufferInit displayBlock 0x10000).value.1 = 0 ∧
      sbFramebufferInfo (sbFramebufferInit displayBlock 0x10000).value.2 = none := by
  have hend : WellFormed displayBlock 0x10000 56 48 := .last (by decide) (by decide) (by decide)
  have hdisplay : IsDisplay displayBlock 0x10008 :=
    ⟨by decide, by decide, by decide, by decide, by decide, by decide, by decide, by
      decide, by decide, ⟨by decide, by decide⟩, ⟨by decide, by decide⟩, ⟨by decide, by decide⟩⟩
  obtain ⟨hzero, -, hnone⟩ := sbFramebufferInit_zero displayBlock 0x10000
  exact ⟨⟨by decide, by decide, .next (by decide) (by decide) (by decide) hend, by
    decide, hdisplay⟩, hzero, hnone⟩

end SuiraBox.Boot
