/-
# Descriptor tables, and the way back from ring 3

`kernel/arch/x86_64/gdt.c` (`segment_descriptor`, `gdt_write_tss_descriptor`, `gdt_init`,
`gdt_set_kernel_stack`) and, from `interrupts.c`, `interrupts_set_handler` and
`interrupts_set_user_handler`.

The stubs of the system call, of the timer and of the exceptions start from a stack that the
processor has prepared.  Here is why it has: after `gdt_init` the selectors name what the headers
say, the task state segment names the kernel's stack, and so an event in ring 3, whatever gates have
been set in the meantime, leaves the processor as `Cpu.interrupt` says.  Of its own accord ring 3
gets in through the gates made by `interrupts_set_user_handler` and no others (`ring3_events`).

| index | selector | descriptor |
| ---: | --- | --- |
| 1, 3 | `08h`, `18h` | code of ring 0 |
| 2 | `10h` | data of ring 0 |
| 4 | `23h` | code of ring 3 |
| 5 | `2Bh` | data of ring 3 |
| 6, 7 | `30h` | the task state segment |
-/

import SuiraBox.Library.Protection
import SuiraBox.Arch.Exceptions

namespace SuiraBox.Arch

open X64 ByteMem Protection

/-! ### `gdt.c` -/

/-- Where the linker has put `gdt`, `tss` and the stack of `boot.S`. -/
structure GdtLayout where
  gdt : ℕ
  tss : ℕ
  stackTop : ℕ
  aligned : stackTop % 16 = 0
  stack_low : 16384 ≤ stackTop
  low : gdt + 64 ≤ 2 ^ 30 ∧ tss + 104 ≤ 2 ^ 30 ∧ stackTop ≤ 2 ^ 30
  tables_apart : gdt + 64 ≤ tss ∨ tss + 104 ≤ gdt

/-- The bytes of the two tables and of the stack. -/
def GdtLayout.Area (L : GdtLayout) (x : ℕ) : Prop :=
  (L.gdt ≤ x ∧ x < L.gdt + 64) ∨ (L.tss ≤ x ∧ x < L.tss + 104) ∨
    (L.stackTop - 16384 ≤ x ∧ x < L.stackTop)

/-- `segment_descriptor`. -/
def segmentDescriptor (access flags : U8) : U64 :=
  0xFFFF ||| (access.setWidth 64 <<< 40) ||| ((flags &&& 0x0F).setWidth 64 <<< 52)

/-- `low` of `gdt_write_tss_descriptor`. -/
def tssDescriptorLow (base : U64) (limit : U32) : U64 :=
  (limit &&& 0xFFFF).setWidth 64 |||
    ((base &&& 0xFFFF) <<< 16) |||
    (((base >>> 16) &&& 0xFF) <<< 32) |||
    ((0x89 : U64) <<< 40) |||
    (((limit >>> 16) &&& 0x0F).setWidth 64 <<< 48) |||
    (((base >>> 24) &&& 0xFF) <<< 56)

/-- `high` of `gdt_write_tss_descriptor`. -/
def tssDescriptorHigh (base : U64) : U64 := (base >>> 32) &&& 0xFFFFFFFF

/-- `gdt_write_tss_descriptor`. -/
def gdtWriteTssDescriptor (L : GdtLayout) (m : Mem) (base : U64) (limit : U32) : Mem :=
  writeWords m (L.gdt + 48) [tssDescriptorLow base limit, tssDescriptorHigh base]

/-- `gdt[0]` to `gdt[5]` as `gdt_init` sets them. -/
def gdtSegments : List U64 :=
  [0, segmentDescriptor 0x9A 0x0A, segmentDescriptor 0x92 0x0C, segmentDescriptor 0x9A 0x0A,
    segmentDescriptor 0xFA 0x0A, segmentDescriptor 0xF2 0x0C]

/-- `gdt_set_kernel_stack`. -/
def gdtSetKernelStack (L : GdtLayout) (m : Mem) (stackPointer : U64) : Mem :=
  write64 m (L.tss + 4) stackPointer

/-- The stores of `gdt_init`. -/
def gdtStores (L : GdtLayout) (m : Mem) : Mem :=
  let m := writeWords m L.gdt gdtSegments
  let m := gdtWriteTssDescriptor L m (BitVec.ofNat 64 L.tss) (104 - 1)
  let m := gdtSetKernelStack L m (BitVec.ofNat 64 L.stackTop)
  writeLE m (L.tss + 102) 2 104

/-- `gdt_init`, with `lgdt` and `ltr`. -/
def gdtInit (L : GdtLayout) (S : System) (m : Mem) : Except Vector (System × Mem) :=
  { S with gdtBase := BitVec.ofNat 64 L.gdt, gdtLimit := 8 * 8 - 1 }.ltr (gdtStores L m) 0x30

/-! ### Memory of the kernel -/

/-- The kernel's loads and stores. -/
def KernelData (acc : Access) : Prop := acc.user = false ∧ acc.kind ≠ .fetch

/-- The kernel finds the bytes of `A` at their own addresses, whatever they hold. -/
def Flat (S : System) (m : Mem) (A : ℕ → Prop) : Prop :=
  (∀ x, A x → x < 2 ^ 30) ∧ ∀ m', (∀ x, ¬ A x → m' x = m x) → ∀ acc, KernelData acc → ∀ x, A x →
    S.mmu m' acc (BitVec.ofNat 64 x) = some x

section Flat

variable {S : System} {m m' : Mem} {A : ℕ → Prop}

/-- Memory outside of the area may change. -/
theorem Flat.change (h : Flat S m A) (hm : ∀ x, ¬ A x → m' x = m x) : Flat S m' A :=
  ⟨h.1, fun m'' hm'' => h.2 m'' fun x hx => (hm'' x hx).trans (hm x hx)⟩

/-- A piece of it is a window. -/
theorem Flat.opens (h : Flat S m A) {start size : ℕ} (hA : ∀ k < size, A (start + k))
    (hfit : start + size ≤ 2 ^ 47) : (Window.mk start start size).Opens S m KernelData := by
  refine ⟨hfit, fun m' hm acc hacc k hk => h.2 m' (fun x hx => hm x ?_) acc hacc _ (hA k hk)⟩
  rcases Nat.lt_or_ge x start with hlt | hge
  · exact Or.inl hlt
  · refine Or.inr (Nat.le_of_not_lt fun hlt => hx ?_)
    have hsize : x < start + size := hlt
    have := hA (x - start) (by omega)
    rwa [Nat.add_sub_cancel' hge] at this

/-- The area is mapped to itself. -/
theorem Flat.mapsTo (h : Flat S m A) {x : ℕ} (hA : ∀ k < 8, A (x + k)) {acc : Access}
    (hacc : KernelData acc) {va : U64} (hva : va.toNat = x) : S.MapsTo m acc va x := by
  have hlow := h.1 _ (hA 0 (by decide))
  have := (h.opens hA (by omega)).mapsTo (n := 0) hacc le_rfl hva
  exact this

end Flat

/-! ### After `gdt_init` -/

/-- The tables that `gdt_init` leaves, with the stack for events in ring 3. -/
structure GdtReady (L : GdtLayout) (S : System) (m : Mem) (stack : U64) : Prop where
  gdtBase : S.gdtBase = BitVec.ofNat 64 L.gdt
  gdtLimit : S.gdtLimit = 63
  tssBase : S.tssBase = BitVec.ofNat 64 L.tss
  tssLimit : S.tssLimit = 103
  segments : ∀ i (h : i < gdtSegments.length), read64 m (L.gdt + 8 * i) = gdtSegments.get ⟨i, h⟩
  rsp0 : read64 m (L.tss + 4) = stack

section Ready

variable {L : GdtLayout} {S : System} {m m' : Mem} {s : Cpu} {stack : U64}

/-- The table is in the area. -/
theorem gdtLayout_area_gdt (L : GdtLayout) {i k : ℕ} (hi : i < 8) (hk : k < 8) :
    L.Area (L.gdt + 8 * i + k) :=
  Or.inl ⟨by omega, by omega⟩

/-- The stack pointer of the TSS is in the area. -/
theorem gdtLayout_area_rsp0 (L : GdtLayout) {k : ℕ} (hk : k < 8) : L.Area (L.tss + 4 + k) :=
  Or.inr (Or.inl ⟨by omega, by omega⟩)

/-- The area is in the first gigabyte. -/
theorem GdtLayout.area_low (L : GdtLayout) {x : ℕ} (h : L.Area x) : x < 2 ^ 30 := by
  have := L.low
  unfold GdtLayout.Area at h
  omega

/-- It is enough that the two tables are kept. -/
theorem GdtReady.congr (h : GdtReady L S m stack)
    (hm : ∀ x, (L.gdt ≤ x ∧ x < L.gdt + 64) ∨ (L.tss ≤ x ∧ x < L.tss + 104) → m' x = m x) :
    GdtReady L S m' stack := by
  have hlen : gdtSegments.length = 6 := rfl
  refine ⟨h.gdtBase, h.gdtLimit, h.tssBase, h.tssLimit, fun i hi => ?_, ?_⟩
  · exact (read64_congr fun x h₁ h₂ => hm x (Or.inl (by omega))).trans (h.segments i hi)
  · exact (read64_congr fun x h₁ h₂ => hm x (Or.inr (by omega))).trans h.rsp0

/-- A selector of one of the six segments. -/
theorem GdtReady.descriptor (h : GdtReady L S m stack) (hflat : Flat S m L.Area) {selector : U16}
    (hlocal : selector.toNat / 4 % 2 = 0) {d : U64}
    (hd : gdtSegments[selector.toNat / 8]? = some d) : S.descriptor m selector = .ok d := by
  obtain ⟨hi, rfl⟩ := List.getElem?_eq_some_iff.1 hd
  have hlen : gdtSegments.length = 6 := rfl
  have hlow := L.low
  rw [System.descriptor_eq hlocal (by rw [h.gdtLimit]; omega), h.gdtBase]
  refine ((hflat.mapsTo (x := L.gdt + 8 * (selector.toNat / 8))
    (fun k hk => gdtLayout_area_gdt L (by omega) hk)
    ⟨rfl, by decide⟩ ?_).load 13).trans (congrArg Except.ok (h.segments _ hi))
  rw [BitVec.toNat_add, BitVec.toNat_ofNat, BitVec.toNat_ofNat]
  omega

/-- The stack that the processor takes for ring 0. -/
theorem GdtReady.tssStack (h : GdtReady L S m stack) (hflat : Flat S m L.Area) :
    S.tssStack m 4 = .ok stack := by
  have hlow := L.low
  rw [System.tssStack, if_neg (by rw [h.tssLimit]; omega), h.tssBase]
  refine ((hflat.mapsTo (x := L.tss + 4) (fun k hk => gdtLayout_area_rsp0 L hk) ⟨rfl,
    by decide⟩ ?_).load 13).trans (congrArg Except.ok h.rsp0)
  rw [BitVec.toNat_add, BitVec.toNat_ofNat, BitVec.toNat_ofNat]
  omega

/-- The fields of `low`, from the lowest on. -/
theorem toNat_tssDescriptorLow (base : U64) (limit : U32) :
    (tssDescriptorLow base limit).toNat = limit.toNat % 2 ^ 16 + base.toNat % 2 ^ 16 * 2 ^ 16 +
      base.toNat / 2 ^ 16 % 2 ^ 8 * 2 ^ 32 + 0x89 * 2 ^ 40 + limit.toNat / 2 ^ 16 % 2 ^ 4 * 2 ^ 48 +
      base.toNat / 2 ^ 24 % 2 ^ 8 * 2 ^ 56 := by
  have hlimit₀ : ((limit &&& 0xFFFF).setWidth 64 : U64).toNat = limit.toNat % 2 ^ 16 := by
    have h := Words.toNat_and_low limit (show 16 ≤ 32 by decide)
    rw [BitVec.toNat_setWidth, show (0xFFFF : U32) = BitVec.ofNat 32 (2 ^ 16 - 1) from rfl, h]
    omega
  have hbase₀ : (base &&& 0xFFFF).toNat = base.toNat % 2 ^ 16 :=
    Words.toNat_and_low base (show 16 ≤ 64 by decide)
  have hbase₁ : ((base >>> 16) &&& 0xFF).toNat = base.toNat / 2 ^ 16 % 2 ^ 8 :=
    (Words.toNat_and_low _ (show 8 ≤ 64 by decide)).trans
      (by rw [BitVec.toNat_ushiftRight, Nat.shiftRight_eq_div_pow])
  have hbase₂ : ((base >>> 24) &&& 0xFF).toNat = base.toNat / 2 ^ 24 % 2 ^ 8 :=
    (Words.toNat_and_low _ (show 8 ≤ 64 by decide)).trans
      (by rw [BitVec.toNat_ushiftRight, Nat.shiftRight_eq_div_pow])
  have hlimit₁ : (((limit >>> 16) &&& 0x0F).setWidth 64 : U64).toNat =
      limit.toNat / 2 ^ 16 % 2 ^ 4 := by
    have h := Words.toNat_and_low (limit >>> 16) (show 4 ≤ 32 by decide)
    rw [BitVec.toNat_setWidth, show (0x0F : U32) = BitVec.ofNat 32 (2 ^ 4 - 1) from rfl, h,
      BitVec.toNat_ushiftRight, Nat.shiftRight_eq_div_pow]
    omega
  have hkind : (0x89 : U64).toNat = 0x89 := rfl
  -- one field after the other is put above what there is
  have h₁ :=
    Words.toNat_or_shiftLeft (x := base &&& 0xFFFF) (y := (limit &&& 0xFFFF).setWidth 64) (k := 16)
    (by omega) (by omega)
  have h₂ := Words.toNat_or_shiftLeft (x := (base >>> 16) &&& 0xFF) (k := 32)
    (by rw [h₁]; omega) (by omega)
  have h₃ := Words.toNat_or_shiftLeft (x := (0x89 : U64)) (k := 40) (by rw [h₂]; omega) (by decide)
  have h₄ := Words.toNat_or_shiftLeft (x := ((limit >>> 16) &&& 0x0F).setWidth 64) (k := 48)
    (by rw [h₃]; omega) (by omega)
  have h₅ := Words.toNat_or_shiftLeft (x := (base >>> 24) &&& 0xFF) (k := 56)
    (by rw [h₄]; omega) (by omega)
  rw [tssDescriptorLow, h₅, h₄, h₃, h₂, h₁, hlimit₀, hbase₀, hbase₁, hlimit₁, hbase₂]
  rfl

/-- The descriptor of a task state segment gives back its address, its limit and its type. -/
theorem tssDescriptor_spec (base : U64) {limit : U32} (hlimit : limit.toNat < 2 ^ 20) :
    systemBase (tssDescriptorLow base limit) (tssDescriptorHigh base) = base ∧
      systemLimit (tssDescriptorLow base limit) = limit.toNat ∧
      systemType (tssDescriptorLow base limit) = 9 ∧
      isPresent (tssDescriptorLow base limit) = true := by
  have hlow := toNat_tssDescriptorLow base limit
  generalize tssDescriptorLow base limit = low at hlow
  have hbase := base.isLt
  -- the fields by themselves
  obtain ⟨b₀, hb₀⟩ : ∃ b₀, b₀ = base.toNat % 2 ^ 16 := ⟨_, rfl⟩
  obtain ⟨b₁, hb₁⟩ : ∃ b₁, b₁ = base.toNat / 2 ^ 16 % 2 ^ 8 := ⟨_, rfl⟩
  obtain ⟨b₂, hb₂⟩ : ∃ b₂, b₂ = base.toNat / 2 ^ 24 % 2 ^ 8 := ⟨_, rfl⟩
  obtain ⟨l₁, hl₁⟩ : ∃ l₁, l₁ = limit.toNat / 2 ^ 16 % 2 ^ 4 := ⟨_, rfl⟩
  obtain ⟨l₀, hl₀⟩ : ∃ l₀, l₀ = limit.toNat % 2 ^ 16 := ⟨_, rfl⟩
  have hsplit : base.toNat = b₀ + 2 ^ 16 * b₁ + 2 ^ 24 * b₂ + 2 ^ 32 * (base.toNat / 2 ^ 32) := by
    omega
  have hbounds : b₀ < 2 ^ 16 ∧ b₁ < 2 ^ 8 ∧ b₂ < 2 ^ 8 ∧ l₀ < 2 ^ 16 ∧ l₁ < 2 ^ 4 := by omega
  rw [← hb₀, ← hb₁, ← hb₂, ← hl₀, ← hl₁] at hlow
  have htop : low.toNat / 2 ^ 56 % 2 ^ 8 = b₂ := by
    clear hb₀ hb₁ hb₂ hl₀ hl₁ hsplit hbase
    omega
  have hmiddle : low.toNat / 2 ^ 16 % 2 ^ 24 = b₀ + 2 ^ 16 * b₁ := by
    clear hb₀ hb₁ hb₂ hl₀ hl₁ hsplit hbase htop
    omega
  have hupper : low.toNat / 2 ^ 48 % 2 ^ 4 = l₁ ∧ low.toNat % 2 ^ 16 = l₀ := by
    clear hb₀ hb₁ hb₂ hl₀ hl₁ hsplit hbase htop hmiddle
    omega
  have hkind : low.toNat / 2 ^ 40 % 2 ^ 8 = 0x89 := by
    clear hb₀ hb₁ hb₂ hl₀ hl₁ hsplit hbase htop hmiddle hupper
    omega
  clear hlow
  refine ⟨BitVec.eq_of_toNat_eq ?_, ?_, ?_, ?_⟩
  · have hhigh : ((tssDescriptorHigh base).setWidth 32).toNat = base.toNat / 2 ^ 32 := by
      rw [tssDescriptorHigh, Words.toNat_setWidth_and _ rfl, BitVec.toNat_ushiftRight,
        Nat.shiftRight_eq_div_pow]
      omega
    rw [systemBase, Words.toNat_append, Words.toNat_append, hhigh, BitVec.toNat_setWidth,
      BitVec.toNat_setWidth, BitVec.toNat_ushiftRight, BitVec.toNat_ushiftRight,
      Nat.shiftRight_eq_div_pow, Nat.shiftRight_eq_div_pow]
    omega
  · rw [systemLimit, Words.toNat_append, BitVec.toNat_setWidth, BitVec.toNat_setWidth,
      BitVec.toNat_ushiftRight, Nat.shiftRight_eq_div_pow]
    omega
  · rw [systemType, BitVec.toNat_ushiftRight, Nat.shiftRight_eq_div_pow]
    omega
  · rw [isPresent, BitVec.getLsbD, Nat.testBit_eq_decide_div_mod_eq, decide_eq_true_iff]
    omega

/-- The eight quadwords of the table before `ltr`. -/
def gdtEntries (L : GdtLayout) : List U64 :=
  gdtSegments ++ [tssDescriptorLow (BitVec.ofNat 64 L.tss) (104 - 1),
    tssDescriptorHigh (BitVec.ofNat 64 L.tss)]

/-- `gdt_init` writes the entries of the table. -/
theorem gdtStores_entry (L : GdtLayout) (m : Mem) {i : ℕ} {d : U64}
    (hd : (gdtEntries L)[i]? = some d) : read64 (gdtStores L m) (L.gdt + 8 * i) = d := by
  obtain ⟨hi, -⟩ := List.getElem?_eq_some_iff.1 hd
  have hlen : (gdtEntries L).length = 8 := rfl
  have happart := L.tables_apart
  -- the stores into the task state segment are elsewhere
  have hwords : read64 (gdtStores L m) (L.gdt + 8 * i) =
      read64 (writeWords m L.gdt (gdtEntries L)) (L.gdt + 8 * i) := by
    refine read64_congr fun x h₁ h₂ => ?_
    rw [gdtStores, writeLE_of_outside _ (by omega), gdtSetKernelStack,
      write64_of_outside _ _ (by omega), gdtWriteTssDescriptor, gdtEntries, writeWords_append]
    rfl
  rw [hwords]
  exact read64_writeWords m L.gdt hd

/-- It writes the stack pointer for ring 0. -/
theorem gdtStores_rsp0 (L : GdtLayout) (m : Mem) :
    read64 (gdtStores L m) (L.tss + 4) = BitVec.ofNat 64 L.stackTop := by
  rw [gdtStores, read64_congr fun x h₁ h₂ => writeLE_of_outside _ (by omega)]
  exact read64_write64 ..

/-- It writes nothing else. -/
theorem gdtStores_outside (L : GdtLayout) (m : Mem) {x : ℕ} (hx : ¬ L.Area x) :
    gdtStores L m x = m x := by
  unfold GdtLayout.Area at hx
  have hlen : (gdtEntries L).length = 8 := rfl
  rw [gdtStores, writeLE_of_outside _ (by omega), gdtSetKernelStack,
    write64_of_outside _ _ (by omega), gdtWriteTssDescriptor]
  have happend :=
    writeWords_append m L.gdt gdtSegments [tssDescriptorLow (BitVec.ofNat 64 L.tss) (104 - 1),
    tssDescriptorHigh (BitVec.ofNat 64 L.tss)]
  exact (congrFun happend x).symm.trans
    (writeWords_of_outside m (by rw [← gdtEntries, hlen]; omega))

/-- **`gdt_init` does what it is for**, wherever its tables are: the processor accepts the task
state segment, and the selectors and the stack are those of the headers. -/
theorem gdtInit_ready (L : GdtLayout) (hflat : Flat S m L.Area) :
    ∃ S' m', gdtInit L S m = .ok (S', m') ∧ GdtReady L S' m' (BitVec.ofNat 64 L.stackTop) ∧
      (S'.mmu = S.mmu ∧ S'.idt = S.idt ∧ S'.code = S.code) ∧ ∀ x, ¬ L.Area x → m' x = m x := by
  have hlow := L.low
  have happart := L.tables_apart
  obtain ⟨hbase, hlimit, htype, hpresent⟩ := tssDescriptor_spec (BitVec.ofNat 64 L.tss)
    (show (104 - 1 : U32).toNat < 2 ^ 20 by decide)
  have hfirst := gdtStores_entry L m (i := 6) rfl
  have hsecond := gdtStores_entry L m (i := 7) rfl
  have hstored : Flat S (gdtStores L m) L.Area := hflat.change fun x hx => gdtStores_outside L m hx
  let S₁ : System := { S with gdtBase := BitVec.ofNat 64 L.gdt, gdtLimit := 8 * 8 - 1 }
  have hmaps : ∀ i < 8, ∀ acc, KernelData acc → S₁.MapsTo (gdtStores L m) acc
      (BitVec.ofNat 64 L.gdt + BitVec.ofNat 64 (8 * i)) (L.gdt + 8 * i) := fun i hi acc hacc => by
    refine Flat.mapsTo (S := S₁) hstored (fun k hk => gdtLayout_area_gdt L hi hk) hacc ?_
    rw [BitVec.toNat_add, BitVec.toNat_ofNat, BitVec.toNat_ofNat]
    omega
  have hload₆ := (hmaps 6 (by decide) tableAccess ⟨rfl, by decide⟩).load 13
  have hload₇ := (hmaps 7 (by decide) tableAccess ⟨rfl, by decide⟩).load 13
  have hstore :=
    fun value => (hmaps 6 (by decide) ⟨false, .write, false⟩ ⟨rfl, by decide⟩).store 13 value
  rw [hfirst] at hload₆
  rw [hsecond] at hload₇
  have hdescriptor : S₁.descriptor (gdtStores L m) 0x30 =
      .ok (tssDescriptorLow (BitVec.ofNat 64 L.tss) (104 - 1)) :=
    (System.descriptor_eq (by decide) (show (0x30 : U16).toNat / 8 * 8 + 7 ≤ 63 by decide)).trans
      hload₆
  have hltr : gdtInit L S m = _ := System.ltr_eq (S := S₁) (by decide) hdescriptor
    (show (0x30 : U16).toNat / 8 * 8 + 15 ≤ 63 by decide) hload₇ htype hpresent (hstore _)
  rw [hbase, hlimit] at hltr
  refine ⟨_, _, hltr, ⟨rfl, rfl, rfl, rfl, fun i hi => ?_, ?_⟩, ⟨rfl, rfl, rfl⟩, fun x hx => ?_⟩
  · have hlen : gdtSegments.length = 6 := rfl
    rw [read64_write64_of_apart _ _ (by omega)]
    refine gdtStores_entry L m ?_
    rw [gdtEntries, List.getElem?_append_left hi]
    exact List.getElem?_eq_getElem hi
  · rw [read64_write64_of_apart _ _ (by omega)]
    exact gdtStores_rsp0 L m
  · rw [write64_of_outside _ _ (by unfold GdtLayout.Area at hx; omega)]
    exact gdtStores_outside L m hx

end Ready

/-! ### Gates -/

/-- A gate as the processor reads it. -/
def IdtEntry.gate (e : IdtEntry) : Gate where
  handler := e.handler
  selector := e.selector
  ist := e.ist.toNat % 8
  type := e.typeAttr.toNat % 16
  dpl := e.typeAttr.toNat / 32 % 4
  present := e.typeAttr.getLsbD 7

/-- What the processor reads from an entry of the IDT. -/
theorem gate_gateOf (handler : U64) (dpl : U8) :
    (gateOf handler dpl).gate = ⟨handler, 0x18, 0, 14, dpl.toNat % 4, true⟩ := by
  have hattr : ∀ d : U8, (0x8E ||| ((d &&& 3) <<< 5) : U8).toNat % 16 = 14 ∧
      (0x8E ||| ((d &&& 3) <<< 5) : U8).toNat / 32 % 4 = d.toNat % 4 ∧
      (0x8E ||| ((d &&& 3) <<< 5) : U8).getLsbD 7 = true := by decide
  obtain ⟨htype, hdpl, hpresent⟩ := hattr dpl
  rw [IdtEntry.gate, handler_gateOf]
  simp only [gateOf, htype, hdpl, hpresent]
  rfl

/-- A call that sets a gate. -/
inductive GateCall
  | handler (vector : U8) (handler : U64)
  | userHandler (vector : U8) (handler : U64)

/-- `interrupts_set_handler`. -/
def interruptsSetHandler (idt : U8 → IdtEntry) (vector : U8) (handler : U64) : U8 → IdtEntry :=
  idtSetGate idt vector handler 0

/-- `interrupts_set_user_handler`. -/
def interruptsSetUserHandler (idt : U8 → IdtEntry) (vector : U8) (handler : U64) : U8 → IdtEntry :=
  idtSetGate idt vector handler 3

def gateStep (idt : U8 → IdtEntry) : GateCall → U8 → IdtEntry
  | .handler vector handler => interruptsSetHandler idt vector handler
  | .userHandler vector handler => interruptsSetUserHandler idt vector handler

/-- The table after `interrupts_init` and the calls. -/
def gatesAfter (stub : ℕ → U64) (idt : U8 → IdtEntry) (calls : List GateCall) : U8 → IdtEntry :=
  calls.foldl gateStep (interruptsInit stub idt)

/-- The handler of a vector and the ring that may call it: those of the last call for it, and before
the first one the stub of the exception, or of exception 0. -/
def handlerOf (stub : ℕ → U64) (v : U8) : List GateCall → U64 × ℕ
  | [] => (if v.toNat < 32 then stub v.toNat else stub 0, 0)
  | .handler vector handler :: earlier =>
    if v = vector then (handler, 0) else handlerOf stub v earlier
  | .userHandler vector handler :: earlier =>
    if v = vector then (handler, 3) else handlerOf stub v earlier

/-- The vectors without an exception lead to the stub of exception 0. -/
theorem interruptsInit_rest (stub : ℕ → U64) (idt : U8 → IdtEntry) {v : U8} (hv : 32 ≤ v.toNat) :
    interruptsInit stub idt v = gateOf (stub 0) 0 := by
  have hne : ∀ {n : ℕ}, n < 256 → v.toNat ≠ n → v ≠ BitVec.ofNat 8 n := fun hn hne he => hne (by
    rw [he, BitVec.toNat_ofNat, Nat.mod_eq_of_lt (by omega)])
  -- the second loop stays below 32
  have hsecond : ∀ n ≤ 32, ∀ idt : U8 → IdtEntry,
      (List.range n).foldl (fun idt i => idtSetGate idt (BitVec.ofNat 8 i) (stub i) 0) idt v =
        idt v := by
    intro n hn idt
    induction n with
    | zero => rfl
    | succ n ih =>
      rw [List.range_succ, List.foldl_concat, idtSetGate,
        Function.update_of_ne (hne (by omega) (by omega))]
      exact ih (by omega)
  -- the first one comes by every vector
  have hfirst : ∀ n ≤ 256, v.toNat < n → (List.range n).foldl (fun idt i =>
      idtSetGate (Function.update idt (BitVec.ofNat 8 i) ⟨0, 0, 0, 0, 0, 0, 0⟩) (BitVec.ofNat 8 i)
        (stub 0) 0) idt v = gateOf (stub 0) 0 := by
    intro n hn hlt
    induction n with
    | zero => exact absurd hlt (Nat.not_lt_zero _)
    | succ n ih =>
      rw [List.range_succ, List.foldl_concat, idtSetGate]
      rcases Nat.lt_succ_iff_lt_or_eq.1 hlt with hlt | rfl
      · rw [Function.update_of_ne (hne (by omega) (by omega)),
          Function.update_of_ne (hne (by omega) (by omega))]
        exact ih (by omega) hlt
      · rw [BitVec.ofNat_toNat, BitVec.setWidth_eq, Function.update_self]
  rw [interruptsInit, hsecond 32 le_rfl]
  exact hfirst 256 le_rfl v.isLt

/-- **Gates over whole runs**: the processor finds the handler of the last call, for the ring of
that call. -/
theorem gatesAfter_gate (stub : ℕ → U64) (idt : U8 → IdtEntry) (calls : List GateCall) (v : U8) :
    (gatesAfter stub idt calls v).gate =
      ⟨(handlerOf stub v calls.reverse).1, 0x18, 0, 14, (handlerOf stub v calls.reverse).2,
        true⟩ := by
  induction calls using List.reverseRecOn with
  | nil =>
    change (interruptsInit stub idt v).gate = _
    rw [List.reverse_nil, handlerOf]
    rcases Nat.lt_or_ge v.toNat 32 with hlt | hge
    · rw [interruptsInit_exception stub idt hlt, if_pos hlt]
      exact gate_gateOf ..
    · rw [interruptsInit_rest stub idt hge, if_neg (by omega)]
      exact gate_gateOf ..
  | append_singleton calls call ih =>
    rw [gatesAfter, List.foldl_concat, ← gatesAfter, List.reverse_concat]
    cases call with
    | handler vector handler =>
      rw [gateStep, interruptsSetHandler, idtSetGate, handlerOf]
      split_ifs with h
      · rw [h, Function.update_self]
        exact gate_gateOf ..
      · rw [Function.update_of_ne h]
        exact ih
    | userHandler vector handler =>
      rw [gateStep, interruptsSetUserHandler, idtSetGate, handlerOf]
      split_ifs with h
      · rw [h, Function.update_self]
        exact gate_gateOf ..
      · rw [Function.update_of_ne h]
        exact ih

/-! ### Events in ring 3 -/

/-- The processor after `gdt_init`, `interrupts_init` and the calls, with memory `m`; `error` are
the codes that it pushes with some of the exceptions. -/
structure GatesReady (L : GdtLayout) (stub : ℕ → U64) (idt : U8 → IdtEntry) (calls : List GateCall)
    (error : U8 → U64) (S : System) (m : Mem) : Prop where
  flat : Flat S m L.Area
  ready : GdtReady L S m (BitVec.ofNat 64 L.stackTop)
  gates : ∀ v, S.idt v = (gatesAfter stub idt calls v).gate
  codes : ∀ v, S.code v = if v.toNat ∈ errorVectors then some (error v) else none

/-- The same, in ring 3. -/
structure InRing3 (L : GdtLayout) (stub : ℕ → U64) (idt : U8 → IdtEntry) (calls : List GateCall)
    (error : U8 → U64) (S : System) (s : Cpu) : Prop
    extends GatesReady L stub idt calls error S s.mem where
  ring : Protection.ring s = 3

/-- A handler cannot tell the two apart. -/
def SameEntry (t u : Cpu) : Prop := t.regs = u.regs ∧ t.mem = u.mem ∧ t.rip = u.rip ∧ t.cs = u.cs

section Events

variable {L : GdtLayout} {stub : ℕ → U64} {idt : U8 → IdtEntry} {calls : List GateCall}
    {error : U8 → U64}
  {S : System} {s : Cpu} {m : Mem}

/-- The gate of a vector after `idt_init` and later calls. -/
theorem GatesReady.gate (h : GatesReady L stub idt calls error S m) (v : U8) : S.idt v =
    ⟨(handlerOf stub v calls.reverse).1, 0x18, 0, 14, (handlerOf stub v calls.reverse).2, true⟩ :=
  (h.gates v).trans (gatesAfter_gate stub idt calls v)

/-- Every gate leads to kernel code. -/
theorem GatesReady.leadsInside (h : GatesReady L stub idt calls error S m) (v : U8) :
    S.LeadsInside m (S.idt v) := by
  have hcode : S.descriptor m 0x18 = .ok (segmentDescriptor 0x9A 0x0A) :=
    h.ready.descriptor h.flat (by decide) rfl
  rw [h.gate]
  exact ⟨rfl, rfl, show (0x18 : U16).toNat / 4 ≠
    0 by decide, _, hcode, by decide, by decide, by decide, by decide⟩

/-- The selector of every gate, in ring 0. -/
theorem GatesReady.selector (h : GatesReady L stub idt calls error S m) (v : U8) :
    BitVec.ofNat 64 ((S.idt v).selector.toNat / 4 * 4 + 0) = kernelCodeSelector := by
  rw [h.gate]
  show BitVec.ofNat 64 ((0x18 : U16).toNat / 4 * 4 + 0) = kernelCodeSelector
  decide

/-- From ring 3 the handlers run on the stack of the TSS. -/
theorem InRing3.handlerStack (h : InRing3 L stub idt calls error S s) (v : U8) :
    S.handlerStack s (S.idt v) 0 = .ok (BitVec.ofNat 64 L.stackTop) := by
  rw [h.gate, System.handlerStack, if_neg (by simp), if_pos (by rw [h.ring]; decide)]
  exact h.ready.tssStack h.flat

/-- The frame goes to the top of the kernel's stack. -/
theorem InRing3.pushes (h : InRing3 L stub idt calls error S s) (v : U8) {vs : List U64}
    (hvs : vs.length ≤ 6) :
    S.pushes (System.onStack s (S.idt v) 0 (BitVec.ofNat 64 L.stackTop)) vs =
      .ok (vs.foldl Cpu.push (System.onStack s (S.idt v) 0 (BitVec.ofNat 64 L.stackTop))) := by
  have hlow := L.low
  have hroom := L.stack_low
  have haligned := L.aligned
  have hopens : (Window.mk (L.stackTop - 16384) (L.stackTop - 16384) 16384).Opens S s.mem
      KernelData :=
    h.flat.opens (fun k hk => Or.inr (Or.inr ⟨by omega, by omega⟩)) (by omega)
  have htop : (BitVec.ofNat 64 L.stackTop &&& ~~~15 : U64).toNat = L.stackTop := by
    have hround := Words.toNat_and_not_low (BitVec.ofNat 64 L.stackTop) (show 4 ≤ 64 by decide)
      (show (15 : U64) = BitVec.ofNat 64 (2 ^ 4 - 1) from rfl)
    rw [hround, BitVec.toNat_ofNat]
    omega
  have hring : Protection.ring (System.onStack s (S.idt v) 0 (BitVec.ofNat 64 L.stackTop)) = 0 :=
    congrArg (fun cs : U64 => cs.toNat % 4) (h.selector v)
  refine Window.Opens.pushes_eq (n := 16384) (P := KernelData) rfl le_rfl hopens
    ⟨?_, by simp [accessBy]⟩ ?_
    (by omega)
  · rw [accessBy, hring]
    rfl
  · change ((s.set .rsp (BitVec.ofNat 64 L.stackTop &&& ~~~15)).regs .rsp).toNat = _
    rw [Cpu.set_self, htop]
    change L.stackTop = L.stackTop - 16384 + 16384
    omega

/-- **An event in ring 3**, as the handler finds it. -/
theorem InRing3.deliver_eq (h : InRing3 L stub idt calls error S s) (v : U8) (software : Bool)
    (hsoft : software = true → (handlerOf stub v calls.reverse).2 = 3) :
    ∃ t, S.deliver s software v = .ok t ∧ SameEntry t
      (if software then s.interrupt (BitVec.ofNat 64 L.stackTop) kernelCodeSelector
        (handlerOf stub v calls.reverse).1
      else exception s (BitVec.ofNat 64 L.stackTop) (gatesAfter stub idt calls v) v (error v)) := by
  have hgate := gatesAfter_gate stub idt calls v
  have hdpl : software = true → Protection.ring s ≤ (S.idt v).dpl := fun hs => by
    rw [h.ring, h.gate, hsoft hs]
  have hhandler : (gatesAfter stub idt calls v).handler = (handlerOf stub v calls.reverse).1 :=
    congrArg Gate.handler hgate
  have hselector : (gatesAfter stub idt calls v).selector = 0x18 := congrArg Gate.selector hgate
  have hcs := h.selector v
  have hrip : (S.idt v).handler = (handlerOf stub v calls.reverse).1 := by rw [h.gate]
  rw [(h.leadsInside v).deliver_eq hdpl (h.handlerStack v)]
  rcases Bool.eq_false_or_eq_true software with rfl | rfl
  · rw [h.pushes v (by simp)]
    exact ⟨_, rfl, rfl, rfl, hrip, hcs⟩
  · have hlength : (S.code v).toList.length ≤ 1 := Option.length_toList_le
    rw [if_neg Bool.false_ne_true, if_neg Bool.false_ne_true,
      h.pushes v (by simp only [List.length_append, List.length_cons, List.length_nil]; omega),
      exception, hhandler, hselector, h.codes v]
    rcases Decidable.em (v.toNat ∈ errorVectors) with hcode | hnone
    · rw [if_pos hcode, if_pos hcode]
      exact ⟨_, rfl, rfl, rfl, hrip, hcs⟩
    · rw [if_neg hnone, if_neg hnone]
      exact ⟨_, rfl, rfl, rfl, hrip, hcs⟩

/-- `int n` through a gate that is not for ring 3 is a protection fault, and that is an event as any
other. -/
theorem InRing3.deliver_denied (h : InRing3 L stub idt calls error S s) {v : U8}
    (hv : (handlerOf stub v calls.reverse).2 ≠ 3) :
    S.deliver s true v = .error 13 ∧ ∃ t, S.raise s 13 = .running t ∧
      SameEntry t (exception s (BitVec.ofNat 64 L.stackTop)
        (gatesAfter stub idt calls 13) 13 (error 13)) := by
  have hrings : ∀ l, (handlerOf stub v l).2 = 0 ∨ (handlerOf stub v l).2 = 3 := by
    intro l
    induction l with
    | nil => exact Or.inl rfl
    | cons call l ih =>
      cases call with
      | handler vector handler =>
        rw [handlerOf]
        split_ifs
        · exact Or.inl rfl
        · exact ih
      | userHandler vector handler =>
        rw [handlerOf]
        split_ifs
        · exact Or.inr rfl
        · exact ih
  obtain ⟨t, ht, hsame⟩ := h.deliver_eq 13 false (by simp)
  refine ⟨(h.leadsInside v).deliver_denied ?_, t, System.raise_eq ht, hsame⟩
  rw [h.gate, h.ring, (hrings _).resolve_right hv]
  exact Nat.zero_lt_succ 2

/-- `gdt_init` prepares ring 3, as long as its two tables are kept. -/
theorem gdtInit_inRing3 {S₀ : System} {m₀ m : Mem} (hflat₀ : Flat S₀ m₀ L.Area)
    (hinit : gdtInit L S₀ m₀ = .ok (S, m))
    (hgates : ∀ v, S₀.idt v = (gatesAfter stub idt calls v).gate)
    (hcodes : ∀ v, S₀.code v = if v.toNat ∈ errorVectors then some (error v) else none)
    (hflat : Flat S s.mem L.Area)
    (hkept : ∀ x, (L.gdt ≤ x ∧ x < L.gdt + 64) ∨ (L.tss ≤ x ∧ x < L.tss + 104) → s.mem x = m x)
    (hring : Protection.ring s = 3) : InRing3 L stub idt calls error S s := by
  obtain ⟨S', m', heq, hready, ⟨-, hidt, hcode⟩, -⟩ := gdtInit_ready L hflat₀
  obtain ⟨rfl, rfl⟩ := Prod.mk.inj (Except.ok.inj (heq.symm.trans hinit))
  exact ⟨⟨hflat, hready.congr hkept, fun v => hidt ▸ hgates v, fun v => hcode ▸ hcodes v⟩, hring⟩

/-- **The way back from ring 3.**  After `gdt_init`, `interrupts_init` and any calls that set gates,
with the tables kept since: every interrupt and exception in ring 3 enters the handler that was set
last, on the stack of `boot.S`, with the frame that the stubs expect.  `int n` does so through the
gates that `interrupts_set_user_handler` has set last; through any other it is reported as a
protection fault. -/
theorem ring3_events (L : GdtLayout) (stub : ℕ → U64) (idt : U8 → IdtEntry) (calls : List GateCall)
    (error : U8 → U64) (s : Cpu) {S₀ : System} {m₀ m : Mem} (hflat₀ : Flat S₀ m₀ L.Area)
    (hinit : gdtInit L S₀ m₀ = .ok (S, m))
    (hgates : ∀ v, S₀.idt v = (gatesAfter stub idt calls v).gate)
    (hcodes : ∀ v, S₀.code v = if v.toNat ∈ errorVectors then some (error v) else none)
    (hflat : Flat S s.mem L.Area)
    (hkept : ∀ x, (L.gdt ≤ x ∧ x < L.gdt + 64) ∨ (L.tss ≤ x ∧ x < L.tss + 104) → s.mem x = m x)
    (hring : Protection.ring s = 3) (v : U8) :
    (∃ t, S.deliver s false v = .ok t ∧
      SameEntry t (exception s (BitVec.ofNat 64 L.stackTop)
        (gatesAfter stub idt calls v) v (error v))) ∧
    ((handlerOf stub v calls.reverse).2 = 3 → ∃ t, S.deliver s true v = .ok t ∧ SameEntry t
      (s.interrupt (BitVec.ofNat 64 L.stackTop) kernelCodeSelector
        (handlerOf stub v calls.reverse).1)) ∧
    ((handlerOf stub v calls.reverse).2 ≠ 3 → S.deliver s true v = .error 13 ∧
      ∃ t, S.raise s 13 = .running t ∧
      SameEntry t (exception s (BitVec.ofNat 64 L.stackTop)
        (gatesAfter stub idt calls 13) 13 (error 13))) := by
  have h : InRing3 L stub idt calls error S s :=
    gdtInit_inRing3 hflat₀ hinit hgates hcodes hflat hkept hring
  exact ⟨h.deliver_eq v false (by simp), fun hv => h.deliver_eq v true fun _ => hv,
    h.deliver_denied⟩

end Events

/-- The tables at 2 MiB and 3 MiB, the stack below 1 MiB. -/
def lowLayout : GdtLayout where
  gdt := 0x200000
  tss := 0x300000
  stackTop := 0x100000
  aligned := by decide
  stack_low := by decide
  low := by decide
  tables_apart := by decide

/-- A processor without paging, with the gates of `kmain`. -/
def unpagedSystem : System where
  mmu _ _ va := some va.toNat
  gdtBase := 0
  gdtLimit := 0
  tssBase := 0
  tssLimit := 0
  idt v :=
    (gatesAfter (BitVec.ofNat 64) zeroIdt [.userHandler 0x80 0x5000, .handler 32 0x6000] v).gate
  code v := if v.toNat ∈ errorVectors then some 0 else none

/-- Without paging everything is mapped to itself. -/
theorem unpagedSystem_flat (L : GdtLayout) (m : Mem) {S : System} (hS : S.mmu = unpagedSystem.mmu) :
    Flat S m L.Area := by
  refine ⟨fun x hx => L.area_low hx, fun m' _ acc _ x hx => ?_⟩
  have hlow := L.area_low hx
  rw [hS]
  change some (BitVec.ofNat 64 x).toNat = some x
  rw [BitVec.toNat_ofNat, Nat.mod_eq_of_lt (by omega)]

/-- With the gates of `kmain`: a program gets into the kernel by `int 80h`, and not by `int 20h`,
the timer's vector. -/
theorem kmainGates_ring3 : ∃ S m, gdtInit lowLayout unpagedSystem (fun _ => 0) = .ok (S, m) ∧
    (∃ t, S.deliver { userCpu with mem := m } true 0x80 = .ok t ∧ t.rip = 0x5000) ∧
    S.deliver { userCpu with mem := m } true 32 = .error 13 := by
  obtain ⟨S, m, hinit, -, ⟨hmmu, -⟩, -⟩ :=
    gdtInit_ready (S := unpagedSystem) (m := fun _ => 0) lowLayout (unpagedSystem_flat _ _ rfl)
  have hevents := ring3_events lowLayout (BitVec.ofNat 64) zeroIdt
    [.userHandler 0x80 0x5000, .handler 32 0x6000] (fun _ => 0) { userCpu with mem := m }
    (unpagedSystem_flat _ _ rfl) hinit (fun _ => rfl) (fun _ => rfl) (unpagedSystem_flat _ _ hmmu)
    (fun _ _ => rfl) (show (0x23 : U64).toNat % 4 = 3 by decide)
  obtain ⟨t, ht, -, -, hrip, -⟩ := (hevents 0x80).2.1 (by decide)
  exact ⟨S, m, hinit, ⟨t, ht, hrip⟩, ((hevents 32).2.2 (by decide)).1⟩

end SuiraBox.Arch
