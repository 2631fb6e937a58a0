/-
# Colours on the framebuffer

`kernel/framebuffer.c`: `component_mask`, `scale_component`, `pack_pixel` and `store_pixel`,
for a layout that `framebuffer_geometry_ok` accepts.

A channel of `n` bits holds the value `v` of a component as `(v * (2 ^ n - 1) + 127) / 255`.
The layout decides where the bits of a channel stand in a pixel, and when no two channels
overlap, what is read back from the stored bytes is what `scale_component` computed.  That
function multiplies in 32 bits, while masks of up to 32 bits are accepted: the colours come
back right exactly when no product reaches `2 ^ 32`, and masks of at most 24 bits are narrow
enough for all colours.
-/

import SuiraBox.Display.Drawing

namespace SuiraBox.Display

open ByteMem Trace Boot Mm

/-- The components of a colour. -/
inductive Channel
  | red
  | green
  | blue
  deriving DecidableEq

/-- The first bit of a channel. -/
def Channel.position (c : FramebufferInfo) : Channel → ℕ
  | red => c.redPosition.toNat
  | green => c.greenPosition.toNat
  | blue => c.bluePosition.toNat

/-- The number of bits of a channel. -/
def Channel.maskSize (c : FramebufferInfo) : Channel → ℕ
  | red => c.redMaskSize.toNat
  | green => c.greenMaskSize.toNat
  | blue => c.blueMaskSize.toNat

/-- A component of a colour. -/
def Channel.value (r g b : U8) : Channel → ℕ
  | red => r.toNat
  | green => g.toNat
  | blue => b.toNat

/-- The bits of a channel. -/
def Channel.bitRange (c : FramebufferInfo) (ch : Channel) : Set ℕ :=
  {i | ch.position c ≤ i ∧ i < ch.position c + ch.maskSize c}

/-- The product that `scale_component` divides by 255, in unbounded integers. -/
def Channel.product (c : FramebufferInfo) (r g b : U8) (ch : Channel) : ℕ :=
  ch.value r g b * (2 ^ ch.maskSize c - 1) + 127

/-- The number in the bytes from `dst` on, little-endian. -/
def readPixel (m : Mem) (dst : U64) (bytes : ℕ) : ℕ :=
  readLE (fun i => m (dst + BitVec.ofNat 64 i).toNat) 0 bytes

/-- A pixel holds the colour: the bits of each channel are the component scaled to them. -/
def HoldsColour (c : FramebufferInfo) (r g b : U8) (pixel : ℕ) : Prop :=
  ∀ ch : Channel, pixel / 2 ^ ch.position c % 2 ^ ch.maskSize c = ch.product c r g b / 255

variable {s : Framebuffer} {c : FramebufferInfo} {r g b : U8} {ch : Channel}

/-- Components have eight bits. -/
theorem Channel.value_le (r g b : U8) (ch : Channel) : ch.value r g b ≤ 255 := by
  cases ch with
  | red => exact Nat.le_of_lt_succ r.isLt
  | green => exact Nat.le_of_lt_succ g.isLt
  | blue => exact Nat.le_of_lt_succ b.isLt

/-! ### The scaled component -/

theorem toNat_componentMask {bits : U8} (h : bits.toNat ≤ 32) :
    (componentMask bits).toNat = 2 ^ bits.toNat - 1 := by
  rw [componentMask]
  split_ifs with hzero hwide
  · rw [hzero]
    rfl
  · have hbits : bits.toNat = 32 := by
      rw [BitVec.le_def] at hwide
      exact le_antisymm h hwide
    rw [hbits]
    rfl
  · have hlt : bits.toNat < 32 := by
      rw [BitVec.le_def] at hwide
      exact Nat.lt_of_not_le hwide
    have hpow : 2 ^ bits.toNat < 2 ^ 32 := Nat.pow_lt_pow_right (by decide) hlt
    have hpos := Nat.two_pow_pos bits.toNat
    rw [BitVec.toNat_sub, BitVec.shiftLeft_eq', BitVec.toNat_shiftLeft,
      show (1 : U32).toNat = 1 from rfl, Nat.shiftLeft_eq, Nat.one_mul, Nat.mod_eq_of_lt hpow]
    omega

/-- `scale_component` in natural numbers, with the product cut off at 32 bits. -/
theorem toNat_scaleComponent (value : U8) {bits : U8} (h : bits.toNat ≤ 32) :
    (scaleComponent value bits).toNat =
      (value.toNat * (2 ^ bits.toNat - 1) + 127) % 2 ^ 32 / 255 := by
  have hmask := toNat_componentMask h
  rw [scaleComponent]
  split_ifs with hzero
  · rw [← hmask, hzero, show (0 : U32).toNat = 0 from rfl, Nat.mul_zero]
    rfl
  · rw [BitVec.toNat_udiv, BitVec.toNat_add, BitVec.toNat_mul,
      BitVec.toNat_setWidth_of_le (by decide), hmask, Nat.mod_add_mod]
    rfl

/-- What is scaled to `n` bits fits into them, cut off or not. -/
theorem scaled_lt {v : ℕ} (hv : v ≤ 255) (n : ℕ) :
    (v * (2 ^ n - 1) + 127) % 2 ^ 32 / 255 < 2 ^ n := by
  have hpos := Nat.two_pow_pos n
  have hmul : v * (2 ^ n - 1) ≤ 255 * (2 ^ n - 1) := Nat.mul_le_mul_right _ hv
  have hmod := Nat.mod_le (v * (2 ^ n - 1) + 127) (2 ^ 32)
  omega

/-- The cut-off shows in the quotient. -/
theorem mod_div_eq_iff (x : ℕ) : x % 2 ^ 32 / 255 = x / 255 ↔ x < 2 ^ 32 := by
  omega

/-- Masks of at most 24 bits are narrow enough for every colour. -/
theorem product_lt_of_maskSize_le (h : ch.maskSize c ≤ 24) : ch.product c r g b < 2 ^ 32 := by
  have hvalue := ch.value_le r g b
  have hpow : 2 ^ ch.maskSize c ≤ 2 ^ 24 := Nat.pow_le_pow_right (by decide) h
  have hmul : ch.value r g b * (2 ^ ch.maskSize c - 1) ≤ 255 * (2 ^ 24 - 1) :=
    Nat.mul_le_mul hvalue (by omega)
  rw [Channel.product]
  omega

/-! ### The bits of a pixel -/

/-- What `scale_component` returns for a channel. -/
def Channel.scaled (c : FramebufferInfo) (r g b : U8) (ch : Channel) : ℕ :=
  ch.product c r g b % 2 ^ 32 / 255

/-- There are three channels. -/
theorem Channel.exists_iff {P : Channel → Prop} : (∃ ch, P ch) ↔ P red ∨ P green ∨ P blue := by
  constructor
  · rintro ⟨_ | _ | _, h⟩
    · exact Or.inl h
    · exact Or.inr (Or.inl h)
    · exact Or.inr (Or.inr h)
  · rintro (h | h | h)
    · exact ⟨_, h⟩
    · exact ⟨_, h⟩
    · exact ⟨_, h⟩

/-- A component shifted to its channel, bit by bit. -/
theorem testBit_shifted (value : U8) {bits : U8} (h : bits.toNat ≤ 32) (position : U8) {i : ℕ}
    (hi : i < 32) :
    (scaleComponent value bits <<< position).toNat.testBit i = true ↔ position.toNat ≤ i ∧
      ((value.toNat * (2 ^ bits.toNat - 1) + 127) % 2 ^ 32 / 255).testBit (i - position.toNat) =
        true := by
  rw [BitVec.shiftLeft_eq', BitVec.toNat_shiftLeft, toNat_scaleComponent value h,
    Nat.testBit_mod_two_pow, Nat.testBit_shiftLeft, decide_eq_true hi, Bool.true_and,
    Bool.and_eq_true, decide_eq_true_iff]

/-- What `framebuffer_geometry_ok` says about a channel. -/
theorem channel_of_ok (h : framebufferGeometryOk s ≠ 0) (ch : Channel) :
    ch.maskSize s.current ≤ 32 ∧
      ch.position s.current + ch.maskSize s.current ≤ s.current.bitsPerPixel.toNat := by
  unfold framebufferGeometryOk at h
  dsimp only at h
  split_ifs at h with h₁ h₂
  · exact absurd rfl h
  · exact absurd rfl h
  · simp only [not_or, BitVec.not_lt, BitVec.le_def, Nat.not_lt] at h₂
    obtain ⟨-, -, -, hr, hg, hb, hr', hg', hb'⟩ := h₂
    cases ch with
    | red => exact ⟨hr, hr'⟩
    | green => exact ⟨hg, hg'⟩
    | blue => exact ⟨hb, hb'⟩

/-- A pixel has at most 32 bits. -/
theorem bitsPerPixel_le (h : framebufferGeometryOk s ≠ 0) : s.current.bitsPerPixel.toNat ≤ 32 := by
  have hbytes := (geometry_of_ok h).bytes.2
  rw [toNat_bytesPerPixel] at hbytes
  omega

/-- A bit of a pixel is that of some channel. -/
theorem testBit_packPixel (h : framebufferGeometryOk s ≠ 0) {i : ℕ} (hi : i < 32) :
    (packPixel s.current r g b).toNat.testBit i = true ↔
      ∃ ch : Channel, ch.position s.current ≤ i ∧
        (ch.scaled s.current r g b).testBit (i - ch.position s.current) = true := by
  rw [Channel.exists_iff, packPixel, BitVec.toNat_or, BitVec.toNat_or, Nat.testBit_or,
    Nat.testBit_or, Bool.or_eq_true, Bool.or_eq_true,
    testBit_shifted _ (channel_of_ok h .red).1 _ hi,
    testBit_shifted _ (channel_of_ok h .green).1 _ hi,
    testBit_shifted _ (channel_of_ok h .blue).1 _ hi, or_assoc]
  rfl

/-- Of channels that do not overlap, each keeps its bits. -/
theorem packPixel_channel (h : framebufferGeometryOk s ≠ 0)
    (hapart : ∀ ch ch' : Channel, ch ≠ ch' → Disjoint (ch.bitRange s.current)
      (ch'.bitRange s.current))
    (ch : Channel) :
    (packPixel s.current r g b).toNat / 2 ^ ch.position s.current % 2 ^ ch.maskSize s.current =
      ch.scaled s.current r g b := by
  have hlt : ∀ ch : Channel, ch.scaled s.current r g b < 2 ^ ch.maskSize s.current :=
    fun ch => scaled_lt (ch.value_le r g b) _
  have hbpp := bitsPerPixel_le h
  refine Nat.eq_of_testBit_eq fun i => ?_
  rw [Nat.testBit_mod_two_pow, Nat.testBit_div_two_pow]
  rcases Nat.lt_or_ge i (ch.maskSize s.current) with hi | hi
  · have hin := (channel_of_ok h ch).2
    rw [decide_eq_true hi, Bool.true_and, Bool.eq_iff_iff,
      testBit_packPixel h (show i + ch.position s.current < 32 by omega)]
    constructor
    · rintro ⟨ch', hpos, hbit⟩
      -- the bit is one of `ch'` too, so `ch'` is no other channel
      have hi' := Nat.lt_of_not_le fun hle => Bool.false_ne_true
        ((Nat.testBit_lt_two_pow ((hlt ch').trans_le
          (Nat.pow_le_pow_right (by decide) hle))).symm.trans hbit)
      obtain rfl : ch = ch' := by
        by_contra hne
        exact Set.disjoint_left.1 (hapart ch ch' hne) (show i + ch.position s.current ∈ _ from
          ⟨by omega, by omega⟩) ⟨hpos, by omega⟩
      rwa [Nat.add_sub_cancel] at hbit
    · intro hbit
      exact ⟨ch, by omega, by rwa [Nat.add_sub_cancel]⟩
  · rw [decide_eq_false (by omega), Bool.false_and]
    exact (Nat.testBit_lt_two_pow ((hlt ch).trans_le (Nat.pow_le_pow_right (by decide) hi))).symm

/-! ### The bytes of a pixel -/

/-- The stored bytes make up the pixel, as far as there are bytes. -/
theorem readPixel_storePixel (m : Mem) (dst bytes : U64) (hbytes : bytes.toNat ≤ 4) (pixel : U32) :
    readPixel (storePixel dst bytes pixel m).value dst bytes.toNat =
      pixel.toNat % 256 ^ bytes.toNat := by
  have hinj : Function.Injective fun byte : U64 => (dst + byte).toNat := by
    intro byte byte' heq
    exact (BitVec.add_right_inj dst).1 (BitVec.eq_of_toNat_eq heq)
  rw [readPixel, ← readLE_writeLE_same (fun _ => 0) 0 bytes.toNat pixel.toNat]
  refine readLE_congr fun i _ hi => ?_
  rw [Nat.zero_add] at hi
  have hi' : (BitVec.ofNat 64 i).toNat = i := by
    rw [BitVec.toNat_ofNat]
    omega
  have hmem : BitVec.ofNat 64 i ∈ indices 0 bytes :=
    mem_indices.2 ⟨Nat.zero_le _, by rw [BitVec.lt_def, hi']; exact hi⟩
  have hbyte := foldl_write8 hinj (fun byte => (pixel >>> (byte * 8)).setWidth 8) m hmem
  rw [storePixel, value_forUp]
  refine hbyte.trans (BitVec.eq_of_toNat_eq ?_)
  rw [writeLE, if_pos ⟨Nat.zero_le _, by omega⟩, BitVec.toNat_setWidth, BitVec.ushiftRight_eq',
    BitVec.toNat_ushiftRight, BitVec.toNat_mul, hi', BitVec.toNat_ofNat, Nat.shiftRight_eq_div_pow,
    show i * (8 : U64).toNat % 2 ^ 64 = 8 * i by rw [show (8 : U64).toNat = 8 from rfl]; omega,
    pow_mul, Nat.sub_zero]
  rfl

/-- All channels lie in the bytes that are stored. -/
theorem mod_channel (h : framebufferGeometryOk s ≠ 0) (ch : Channel) (pixel : ℕ) :
    pixel % 256 ^ (bytesPerPixel s.current).toNat / 2 ^ ch.position s.current %
      2 ^ ch.maskSize s.current =
      pixel / 2 ^ ch.position s.current % 2 ^ ch.maskSize s.current := by
  have hin := (channel_of_ok h ch).2
  rw [toNat_bytesPerPixel, show 256 = 2 ^ 8 from rfl, ← pow_mul]
  refine Nat.eq_of_testBit_eq fun i => ?_
  simp only [Nat.testBit_mod_two_pow, Nat.testBit_div_two_pow]
  rcases Nat.lt_or_ge i (ch.maskSize s.current) with hi | hi
  · rw [decide_eq_true (show i + ch.position s.current <
      8 * ((s.current.bitsPerPixel.toNat + 7) / 8) by omega), Bool.true_and]
  · rw [decide_eq_false (by omega), Bool.false_and, Bool.false_and]

/-- **Colours on the screen.**  For a layout that is accepted and whose channels do not overlap, and
every colour: the bytes that are stored for it, read back little-endian, hold the colour if and only
if for no channel the product of the component and the mask, rounded, reaches `2 ^ 32`. -/
theorem colours_kept_iff (h : framebufferGeometryOk s ≠ 0)
    (hapart : ∀ ch ch' : Channel, ch ≠ ch' → Disjoint (ch.bitRange s.current)
      (ch'.bitRange s.current))
    (r g b : U8) (dst : U64) (m : Mem) :
    HoldsColour s.current r g b
        (readPixel (storePixel dst (bytesPerPixel s.current) (packPixel s.current r g b) m).value
          dst (bytesPerPixel s.current).toNat) ↔
      ∀ ch : Channel, ch.product s.current r g b < 2 ^ 32 := by
  rw [readPixel_storePixel m dst _ (geometry_of_ok h).bytes.2]
  refine forall_congr' fun ch => ?_
  rw [mod_channel h, packPixel_channel h hapart, Channel.scaled, mod_div_eq_iff]

/-- The channels of the screen of the examples do not overlap. -/
theorem largeScreen_apart (ch ch' : Channel) (hne : ch ≠ ch') :
    Disjoint (ch.bitRange largeScreen.current) (ch'.bitRange largeScreen.current) := by
  have hbits : ∀ ch : Channel, ch.maskSize largeScreen.current = 8 ∧
      ch.position largeScreen.current = match ch with
        | .red => 16
        | .green => 8
        | .blue => 0 := by
    rintro (_ | _ | _) <;> exact ⟨rfl, rfl⟩
  refine Set.disjoint_left.2 ?_
  rintro i ⟨h₁, h₂⟩ ⟨h₃, h₄⟩
  rw [(hbits ch).1, (hbits ch).2] at h₂
  rw [(hbits ch').1, (hbits ch').2] at h₄
  rw [(hbits ch).2] at h₁
  rw [(hbits ch').2] at h₃
  cases ch <;> cases ch' <;> first | exact hne rfl | (dsimp only at h₁ h₂ h₃ h₄; omega)

/-- A colour comes back from it. -/
theorem largeScreen_colours :
    HoldsColour largeScreen.current 255 128 7
      (readPixel (storePixel 0x20000000 (bytesPerPixel largeScreen.current)
        (packPixel largeScreen.current 255 128 7) fun _ => 0).value 0x20000000
        (bytesPerPixel largeScreen.current).toNat) :=
  (colours_kept_iff (by decide) largeScreen_apart 255 128 7 0x20000000 _).2 fun ch =>
    product_lt_of_maskSize_le (by cases ch <;> decide)

/-- A screen whose pixels are 32 bits of red. -/
def redScreen : Framebuffer where
  current :=
    { address := 0x20000000, pitch := 4096, width := 1024, height := 768, bitsPerPixel := 32,
      type := 1, redMaskSize := 32 }
  available := 1

/-- Its channels do not overlap, because green and blue are empty. -/
theorem redScreen_apart (ch ch' : Channel) (hne : ch ≠ ch') :
    Disjoint (ch.bitRange redScreen.current) (ch'.bitRange redScreen.current) := by
  have hempty : ∀ ch : Channel, ch ≠ .red → ch.bitRange redScreen.current = ∅ := by
    rintro (_ | _ | _) hred
    · exact absurd rfl hred
    · exact Set.eq_empty_of_forall_notMem fun i hi => Nat.not_le_of_lt hi.2 hi.1
    · exact Set.eq_empty_of_forall_notMem fun i hi => Nat.not_le_of_lt hi.2 hi.1
  rcases eq_or_ne ch .red with rfl | hred
  · rw [hempty ch' hne.symm]
    exact Set.disjoint_empty _
  · rw [hempty ch hred]
    exact Set.empty_disjoint _

/-- The layout is accepted, but the brightest red comes back as `16843008` instead of
`2 ^ 32 - 1`. -/
theorem redScreen_dimmed :
    framebufferGeometryOk redScreen = 1 ∧
    (∀ ch ch' : Channel, ch ≠ ch' →
      Disjoint (ch.bitRange redScreen.current) (ch'.bitRange redScreen.current)) ∧
    ¬ HoldsColour redScreen.current 255 0 0
      (readPixel (storePixel 0x20000000 (bytesPerPixel redScreen.current)
        (packPixel redScreen.current 255 0 0) fun _ => 0).value 0x20000000
        (bytesPerPixel redScreen.current).toNat) := by
  refine ⟨by decide, redScreen_apart, fun hcolour => ?_⟩
  have hred := hcolour .red
  rw [readPixel_storePixel _ _ _ (by decide)] at hred
  exact absurd hred (by decide)

end SuiraBox.Display
