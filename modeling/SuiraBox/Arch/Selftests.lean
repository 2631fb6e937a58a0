/-
# The self-tests of the kernel

`vmm_selftest`, `heap_selftest` and `process_syscall_selftest` of `kernel/kernel.c`, which `kmain`
runs in this order after `vmm_init`.  Their loads and stores go through the paging unit.  What
`kmain` does between them is not in the model of this file: the window of the framebuffer, which
takes frames for its tables, `gdt_init` and the scheduler.

* The test of the mappings passes where three frames are free, and then leaves the allocator and the
  page tables as they were.  Where there are fewer it gives none of them back.
* The test of the heap returns the one frame it takes.
* The test of the processes leaves its process, and the frame of its PML4, behind.

So the three pass or fail together (`selftests_exact`).
-/

import SuiraBox.Arch.UserEntry
import SuiraBox.Exec.Preparation
import SuiraBox.Mm.LowMemory

namespace SuiraBox.Arch

open X64 ByteMem Forest Protection Mm Exec Runs

/-! ### The tests -/

/-- A store of eight bytes by the kernel. -/
def storeWord (S : System) (m : Mem) (va value : U64) : Except Vector Mem :=
  S.store64 m ⟨false, .write, false⟩ 13 va value

def loadWord (S : System) (m : Mem) (va : U64) : Except Vector U64 :=
  S.load64 m ⟨false, .read, false⟩ 13 va

/-- A store of one byte by the kernel. -/
def storeByte (S : System) (m : Mem) (va : U64) (value : U8) : Except Vector Mem :=
  match S.mmu m ⟨false, .write, false⟩ va with
  | none => .error 14
  | some pa => .ok (write8 m pa value)

def loadByte (S : System) (m : Mem) (va : U64) : Except Vector U8 :=
  match S.mmu m ⟨false, .read, false⟩ va with
  | none => .error 14
  | some pa => .ok (m pa)

/-- `test_virtual`. -/
def testVirtual : U64 := 0x0000004000000000

/-- `extra1` and `extra2` of `vmm_selftest`: a page that keeps a word, or `none`. -/
def extraPage (S : System) (σ : Phys) (value : U64) : Except Vector (Option U64 × Phys) :=
  let (page, pmm) := pmmAllocPage bootstrapLimit σ.pmm
  if page = 0 then .ok (none, { σ with pmm := pmm })
  else do
    let m ← storeWord S σ.mem page value
    let found ← loadWord S m page
    .ok (if found = value then some page else none, ⟨m, pmm⟩)

/-- `vmm_selftest` from `vmm_map_page` to `vmm_unmap_page`. -/
def mapTest (S : System) (pml4 page : U64) (σ : Phys) : Except Vector (Bool × Phys) :=
  let (rc, σ) := vmmMapPage σ pml4 testVirtual page vmmWritable
  if rc ≠ 0 then .ok (false, σ)
  else if vmmTranslate σ.mem pml4 testVirtual &&& vmmPageMask ≠ page &&& vmmPageMask
    then .ok (false, σ)
  else do
    let m ← storeWord S σ.mem testVirtual 0x5342554D4D544553
    let found ← loadWord S m testVirtual
    if found ≠ 0x5342554D4D544553 then .ok (false, { σ with mem := m })
    else
      match vmmUnmapPage { σ with mem := m } pml4 testVirtual with
      | (none, σ) => .ok (false, σ)
      | (some physical, σ) => .ok (physical &&& vmmPageMask = page &&& vmmPageMask, σ)

/-- `vmm_selftest`. -/
def vmmSelftest (S : System) (pml4 : U64) (σ : Phys) : Except Vector (Bool × Phys) :=
  let (page, pmm) := pmmAllocPage bootstrapLimit σ.pmm
  if page = 0 then .ok (false, { σ with pmm := pmm })
  else do
    let m ← storeWord S σ.mem page 0x5342554D4D544553
    match ← extraPage S ⟨m, pmm⟩ 0x1122334455667788 with
    | (none, σ) => .ok (false, σ)
    | (some extra1, σ) =>
      match ← extraPage S σ 0x8877665544332211 with
      | (none, σ) => .ok (false, σ)
      | (some extra2, σ) =>
        match ← mapTest S pml4 page σ with
        | (false, σ) => .ok (false, σ)
        | (true, σ) =>
          let pmm := pmmFreePage bootstrapLimit σ.pmm page
          let pmm := pmmFreePage bootstrapLimit pmm extra1
          .ok (true, { σ with pmm := pmmFreePage bootstrapLimit pmm extra2 })

/-- `heap_selftest`. -/
def heapSelftest (S : System) (K : Kernel) : Except Vector (Bool × Kernel) :=
  let before := pmmFreePages K.phys.pmm
  let (memory, K) := kheapAlloc { K with heap := kheapInit } 32
  if memory = 0 then .ok (false, K)
  else do
    let m ← storeByte S K.phys.mem memory 0xA5
    let m ← storeByte S m (memory + 1) 0x5A
    let m ← storeByte S m (memory + 2) 0x3C
    let m ← storeByte S m (memory + 3) 0xC3
    let K := { K with phys := { K.phys with mem := m } }
    let b₀ ← loadByte S m memory
    let b₁ ← loadByte S m (memory + 1)
    let b₂ ← loadByte S m (memory + 2)
    let b₃ ← loadByte S m (memory + 3)
    let K := kheapFree K memory
    if b₀ ≠ 0xA5 ∨ b₁ ≠ 0x5A ∨ b₂ ≠ 0x3C ∨ b₃ ≠ 0xC3 then .ok (false, K)
    else .ok (pmmFreePages K.phys.pmm = before, K)

/-- `process_syscall_selftest`; `syscall_init` does nothing. -/
def processSyscallSelftest (K : Kernel) : Bool × Kernel :=
  match processCreate (processInit K) 100 with
  | (none, K) => (false, K)
  | (some i, K) =>
    if K.processCount ≠ 1 then (false, K)
    else
      match processCreateThread K (some i) 1001 128 with
      | (none, K) => (false, K)
      | (some _, K) =>
        if (K.processes i).threadCount ≠ 1 then (false, K) else (processGet K 100 = some i, K)

/-! ### The kernel's own space -/

/-- The tables of `boot.S` and `vmm_init` are in use, with the first gibibyte mapped to itself. -/
structure KernelSpace (T : StaticTables) (σ : Phys) (a : PageSets) : Prop where
  booted : Booted T σ a
  low : LowMapped T True σ a

/-- The page holds a table. -/
def TablePage (T : StaticTables) (m : Mem) (page : ℕ) : Prop :=
  (∃ p f, HasTable allTables (T.address .pml4).toNat m p f ∧ page = f / 4096) ∨
    ∃ k, page = (T.address k).toNat / 4096

section Space

variable {T : StaticTables} {S : System} {c : Controls} {σ : Phys} {a a' : PageSets} {m' : Mem}
    {pmm' : Pmm} {page : ℕ}

/-- The boot leads to a kernel space. -/
theorem bootedVmm_space (T : StaticTables) (m : Mem) {pmm : Pmm} (hr : Refines bootstrapLimit pmm a)
    (htaken : ∀ k, (T.address k).toNat / 4096 ∉ a.free) :
    KernelSpace T (bootedVmm T m pmm).phys a :=
  ⟨bootedVmm_booted T m hr htaken, bootedVmm_lowMapped T m hr htaken⟩

/-- Pages of tables are not free. -/
theorem KernelSpace.not_free (h : KernelSpace T σ a) (hpage : TablePage T σ.mem page) :
    page ∉ a.free := by
  rcases hpage with ⟨p, f, hf, rfl⟩ | ⟨k, rfl⟩
  · exact h.booted.allTables_taken hf
  · exact h.low.taken k

/-- Memory and allocator may change where the tables are not. -/
theorem KernelSpace.change (h : KernelSpace T σ a) (hr : Refines bootstrapLimit pmm' a')
    (hfree : ∀ page, TablePage T σ.mem page → page ∉ a'.free)
    (hm : ∀ x, TablePage T σ.mem (x / 4096) → m' x = σ.mem x) : KernelSpace T ⟨m', pmm'⟩ a' := by
  have hslot : ∀ k {j}, j < 512 →
      slot m' (T.address k).toNat j = slot σ.mem (T.address k).toNat j := fun k _ hj =>
    slot_congr (T.aligned k) hj fun x hx => hm x (Or.inr ⟨k, hx⟩)
  have hall : ∀ {p f}, HasTable bootPaths (T.address .pml4).toNat σ.mem p f →
      HasTable allTables (T.address .pml4).toNat σ.mem p f := fun hf => hf.mono hf.path.1
  have htree :=
    (h.booted.tree.congr m' hr (fun hf => hfree _ (Or.inl ⟨_, _, hall hf, rfl⟩))
        fun {p f j} hf hp => by
    rw [subTable, subTable, slot_congr (h.booted.tree.table_aligned hf) (bootPaths.lt hp)
      fun x hx => hm x (Or.inl ⟨_, _, hall hf, hx⟩)]).1
  refine ⟨⟨htree, fun {k c j} hmem hc => ?_⟩, ⟨hr, fun k => hfree _ (Or.inr ⟨k, rfl⟩),
    fun k j hj => ?_⟩⟩
  · rw [smallTable, hslot k (h.booted.slot_table hmem).1]
    exact h.booted.child hmem hc
  · rw [hslot k hj]
    exact h.low.entry k j hj

/-- The address of the PML4 has no flag bits. -/
theorem tableFromEntry_pml4 (T : StaticTables) :
    tableFromEntry (T.address .pml4) = T.address .pml4 := by
  have hlow := T.low .pml4
  exact tableFromEntry_page (T.aligned .pml4) (by omega)

/-- Data that the kernel finds at its own addresses whatever is stored there. -/
theorem flat_of_access {m : Mem} {A : ℕ → Prop} (hmmu : S.mmu = paging c (T.address .pml4))
    (hlow : ∀ x, A x → x < 2 ^ 30)
    (haccess : ∀ m', (∀ x, ¬ A x → m' x = m x) → ∀ x, x < 2 ^ 30 →
      Mm.access m' (T.address .pml4) (BitVec.ofNat 64 x) = some ⟨BitVec.ofNat 64 x, true,
        false, false⟩) :
    Flat S m A := by
  refine ⟨hlow, fun m' hm acc hacc x hx => ?_⟩
  rw [hmmu]
  refine paging_kernel (hlow x hx) hacc ?_
  rw [tableFromEntry_pml4]
  exact haccess m' hm x (hlow x hx)

/-- The kernel's data, apart from the tables. -/
theorem KernelSpace.flat (h : KernelSpace T σ a) (hmmu : S.mmu = paging c (T.address .pml4))
    {A : ℕ → Prop} (hlow : ∀ x, A x → x < 2 ^ 30)
    (hapart : ∀ x, A x → ¬ TablePage T σ.mem (x / 4096)) : Flat S σ.mem A := by
  refine flat_of_access hmmu hlow fun m' hm x hx => ?_
  rw [access_congr (T.aligned .pml4) fun p f hf y hy => hm y fun hin =>
    hapart y hin (Or.inl ⟨p, f, hf, hy⟩)]
  exact h.low.access_eq hx

end Space

/-! ### Pages of the allocator -/

section Pages

variable {S : System} {σ : Phys} {a : PageSets} {F : Finset ℕ} {m : Mem} {page value : U64} {p : ℕ}
    {pmm : Pmm}

/-- The kernel finds the frames of `F` at their own addresses. -/
def Frames (S : System) (m : Mem) (F : Finset ℕ) : Prop := Flat S m fun x => x / 4096 ∈ F

/-- Writing to them changes nothing about that. -/
theorem Frames.change {m' : Mem} (h : Frames S m F) (hm : ∀ x, x / 4096 ∉ F → m' x = m x) :
    Frames S m' F :=
  Flat.change h hm

/-- On the tables of `vmm_init` it finds the free ones. -/
theorem KernelSpace.frames {T : StaticTables} {c : Controls} (h : KernelSpace T σ a)
    (hmmu : S.mmu = paging c (T.address .pml4)) : Frames S σ.mem a.free := by
  refine h.flat hmmu (fun x hx => ?_) fun x hx hpage => h.not_free hpage hx
  have hlt : _ < 65536 := h.low.refines.free_lt hx
  omega

/-- The first word of a frame. -/
theorem Frames.word (h : Frames S m F) (hp : p ∈ F) (hpage : page.toNat = 4096 * p) (value : U64) :
    storeWord S m page value = .ok (write64 m (4096 * p) value) ∧
    loadWord S m page = .ok (read64 m (4096 * p)) := by
  have hin : ∀ k < 8, (4096 * p + k) / 4096 ∈ F := fun k hk => by
    rw [show (4096 * p + k) / 4096 = p by omega]
    exact hp
  have hmaps := fun acc (hacc : KernelData acc) => Flat.mapsTo h hin hacc hpage
  exact ⟨(hmaps _ ⟨rfl, by simp⟩).store 13 value, (hmaps _ ⟨rfl, by simp⟩).load 13⟩

/-- A write at the start of a frame stays in it. -/
theorem write64_frame (hp : p ∈ F) (m : Mem) (value : U64) {x : ℕ} (hx : x / 4096 ∉ F) :
    write64 m (4096 * p) value x = m x := by
  refine write64_of_outside m value ?_
  rcases Nat.lt_or_ge x (4096 * p) with hlt | hge
  · exact Or.inl hlt
  · refine Or.inr (Nat.le_of_not_lt fun hlt => hx ?_)
    rw [show x / 4096 = p by omega]
    exact hp

/-- The allocator in a state that its calls can lead to, with its pages. -/
structure Allocator (pmm : Pmm) (a : PageSets) : Prop where
  refines : Refines bootstrapLimit pmm a
  reached : PmmReached pmm

/-- One call of `pmm_alloc_page`. -/
theorem Allocator.alloc (h : Allocator pmm a) (hzero : 0 ∉ a.free) :
    (a.free = ∅ ∧ pmmAllocPage bootstrapLimit pmm = (0, pmm)) ∨
    ∃ p ∈ a.free, ∃ page pmm', pmmAllocPage bootstrapLimit pmm = (page, pmm') ∧ page ≠ 0 ∧
      page.toNat = 4096 * p ∧ Allocator pmm' (a.take p) := by
  rcases h.refines.allocPage_cases with hempty | ⟨p, hp, -, hpage, hr⟩
  · exact Or.inl hempty
  · refine Or.inr ⟨p, hp, (pmmAllocPage bootstrapLimit pmm).1, (pmmAllocPage bootstrapLimit pmm).2,
      rfl, ?_, hpage, hr, h.reached.allocPage⟩
    exact h.refines.allocPage_ne_zero_iff.2 ⟨hzero, Finset.card_pos.2 ⟨p, hp⟩⟩

/-- `pmm_free_page` on a page that has been handed out. -/
theorem Allocator.free (h : Allocator pmm a) (hp : p ∈ a.allocated)
    (hpage : page.toNat = 4096 * p) :
    Allocator (pmmFreePage bootstrapLimit pmm page) (a.giveBack p) := by
  refine ⟨h.refines.freePage hp hpage, ?_⟩
  obtain ⟨s₀, boot, calls, rfl⟩ := h.reached
  exact ⟨s₀, boot, calls ++ [.freePage page], run_concat ..⟩

/-- One page of the test. -/
theorem extraPage_or (hf : Frames S σ.mem F) (h : Allocator σ.pmm a) (hF : a.free ⊆ F)
    (hzero : 0 ∉ a.free) (value : U64) :
    (a.free = ∅ ∧ extraPage S σ value = .ok (none, σ)) ∨
    ∃ p ∈ a.free, ∃ page σ', extraPage S σ value = .ok (some page, σ') ∧ page.toNat = 4096 * p ∧
      Allocator σ'.pmm (a.take p) ∧ ∀ x, x / 4096 ∉ F → σ'.mem x = σ.mem x := by
  rcases h.alloc hzero with ⟨hempty, halloc⟩ | ⟨p, hp, page, pmm, halloc, hne, hpage, h'⟩
  · refine Or.inl ⟨hempty, ?_⟩
    rw [extraPage, halloc]
    exact if_pos rfl
  · have hp' := hF hp
    have hf' := hf.change fun x => write64_frame hp' σ.mem value
    refine Or.inr ⟨p, hp, page, ⟨write64 σ.mem (4096 * p) value, pmm⟩, ?_, hpage, h', fun x =>
      write64_frame hp' σ.mem value⟩
    rw [extraPage, halloc]
    dsimp only
    rw [if_neg hne, (hf.word hp' hpage value).1]
    simp only [bind, Except.bind]
    rw [(hf'.word hp' hpage value).2, read64_write64]
    dsimp only
    rw [if_pos rfl]

end Pages

/-! ### The mapping -/

/-- The entries on the way to `test_virtual`, as `vmm_init` leaves them but for the last one. -/
structure TestWay (T : StaticTables) (m : Mem) (leaf : U64) : Prop where
  pml4 : slot m (T.address .pml4).toNat 0 = bootstrapEntry (T.address .pdpt)
  pdpt : slot m (T.address .pdpt).toNat 256 = bootstrapEntry (T.address .bootstrapPd)
  pd : slot m (T.address .bootstrapPd).toNat 0 = bootstrapEntry (T.address .bootstrapPt)
  pt : slot m (T.address .bootstrapPt).toNat 0 = leaf

/-- After the boot the test address has no page. -/
theorem bootedVmm_testWay (T : StaticTables) (m : Mem) (pmm : Pmm) :
    TestWay T (bootedVmm T m pmm).phys.mem 0 := by
  constructor
  · rw [bootedVmm_slot T m pmm .pml4 (by decide)]
    rfl
  · rw [bootedVmm_slot T m pmm .pdpt (by decide)]
    rfl
  · rw [bootedVmm_slot T m pmm .bootstrapPd (by decide)]
    rfl
  · rw [bootedVmm_slot T m pmm .bootstrapPt (by decide)]
    rfl

section Mapping

variable {T : StaticTables} {S : System} {c : Controls} {σ : Phys} {F : Finset ℕ} {m m' : Mem}
    {page leaf : U64} {p : ℕ}

theorem TestWay.congr (h : TestWay T m leaf) (hm : ∀ k x, x / 4096 = (T.address k).toNat / 4096 →
    m' x = m x) : TestWay T m' leaf := by
  have hslot : ∀ k {i}, i < 512 → slot m' (T.address k).toNat i = slot m (T.address k).toNat i :=
    fun k _ hi =>
    slot_congr (T.aligned k) hi (hm k)
  exact ⟨(hslot _ (by decide)).trans h.pml4, (hslot _ (by decide)).trans h.pdpt,
    (hslot _ (by decide)).trans h.pd, (hslot _ (by decide)).trans h.pt⟩

/-- A new leaf. -/
theorem TestWay.setLeaf (h : TestWay T m leaf) (leaf' : U64) :
    TestWay T (setSlot m (T.address .bootstrapPt).toNat 0 leaf') leaf' := by
  have h0 : 0 < 512 := by decide
  refine ⟨?_, ?_, ?_, ?_⟩
  · rw [T.slot_setSlot _ _ _ h0 h0, if_neg (by simp), h.pml4]
  · rw [T.slot_setSlot _ _ _ h0 (by decide), if_neg (by simp), h.pdpt]
  · rw [T.slot_setSlot _ _ _ h0 h0, if_neg (by simp), h.pd]
  · rw [T.slot_setSlot _ _ _ h0 h0, if_pos (by simp)]

/-- Raising an entry that is writable already is no change. -/
theorem setSlot_raise {t i : ℕ} {e : U64} (h : slot m t i = e)
    (he : e ||| (vmmWritable &&& (vmmWritable ||| vmmUser)) = e) :
    setSlot m t i (e ||| (vmmWritable &&& (vmmWritable ||| vmmUser))) = m := by
  funext x
  rw [he, ← h, setSlot, slot, write64_read64]
  exact ite_self _

/-- The entries of `vmm_init` are writable already. -/
theorem bootstrapEntry_raise (T : StaticTables) (k : StaticTable) :
    bootstrapEntry (T.address k) ||| (vmmWritable &&& (vmmWritable ||| vmmUser)) =
      bootstrapEntry (T.address k) := by
  rw [bootstrapEntry,
    show vmmWritable &&& (vmmWritable ||| vmmUser) = vmmWritable from by decide,
    BitVec.or_assoc, BitVec.or_self]

/-- `vmm_map_page` at `test_virtual`. -/
theorem TestWay.map (h : TestWay T σ.mem 0) (hpage : page.toNat % 4096 = 0) :
    vmmMapPage σ (T.address .pml4) testVirtual page vmmWritable =
      (0, { σ with
        mem := setSlot σ.mem (T.address .bootstrapPt).toNat 0 (vmmLeaf page vmmWritable) }) := by
  have hok : ¬ (testVirtual &&& ~~~vmmPageMask ≠ 0 ∨ page &&& ~~~vmmPageMask ≠ 0) := by
    rw [not_or, not_not, not_not, and_not_pageMask_iff page]
    exact ⟨by decide, hpage⟩
  have hstep : ∀ {k c : StaticTable} {i : ℕ},
      slot σ.mem (T.address k).toNat i = bootstrapEntry (T.address c) →
      ensureTable σ (T.address k) i vmmWritable = (T.address c, σ) := fun {k c i} hslot => by
    rw [ensureTable_bootstrap hslot, setSlot_raise hslot (bootstrapEntry_raise T c)]
  rw [vmmMapPage_eq, if_neg hok, show tablePathOf testVirtual = [0, 256, 0] from by decide,
    show ptIndex testVirtual = 0 from by decide, ensurePath, hstep h.pml4]
  dsimp only
  rw [if_neg (T.ne_zero _), ensurePath, hstep h.pdpt]
  dsimp only
  rw [if_neg (T.ne_zero _), ensurePath, hstep h.pd]
  dsimp only
  rw [if_neg (T.ne_zero _), ensurePath, mapLeaf, if_neg (T.ne_zero _), if_neg]
  rw [h.pt]
  exact not_not.2 BitVec.zero_and

/-- `vmm_unmap_page` there. -/
theorem TestWay.unmap (h : TestWay T σ.mem leaf) (hleaf : leaf.getLsbD 0 = true) :
    vmmUnmapPage σ (T.address .pml4) testVirtual =
      (some (tableFromEntry leaf),
        { σ with mem := setSlot σ.mem (T.address .bootstrapPt).toNat 0 0 }) := by
  have hstep : ∀ {k c : StaticTable} {i : ℕ},
      slot σ.mem (T.address k).toNat i = bootstrapEntry (T.address c) →
      smallTable σ.mem (T.address k).toNat i = some (T.address c).toNat := fun {k c i} hslot => by
    obtain ⟨htarget, hpresent, hsmall⟩ := bootstrapEntry_spec T c
    exact smallTable_eq_some.2
      ⟨by rw [hslot]; exact hpresent, by rw [hslot]; exact hsmall, by rw [hslot, htarget]⟩
  rw [vmmUnmapPage_eq, if_neg (by decide),
    show tablePathOf testVirtual = [0, 256, 0] from by decide,
    show ptIndex testVirtual = 0 from by decide, walk, hstep h.pml4, Option.bind_some, walk,
    hstep h.pdpt, Option.bind_some, walk, hstep h.pd, Option.bind_some, walk]
  dsimp only
  rw [h.pt, if_neg ((present_iff leaf).2 hleaf)]
  rfl

/-- What the processor finds at `test_virtual`. -/
theorem TestWay.access_eq (h : TestWay T m (vmmLeaf page vmmWritable))
    (hpage : page.toNat % 4096 = 0) (hsmall : page.toNat < 2 ^ 52) {k : ℕ} (hk : k < 4096) :
    Mm.access m (T.address .pml4) (testVirtual + BitVec.ofNat 64 k) =
      some ⟨page + BitVec.ofNat 64 k, true, false, false⟩ := by
  obtain ⟨hpath, hlow⟩ := pathOf_add (show testVirtual.toNat % 4096 = 0 by decide) hk
  obtain ⟨h₄, hu₄⟩ := bootstrapEntry_leadsTo T .pdpt
  obtain ⟨h₃, hu₃⟩ := bootstrapEntry_leadsTo T .bootstrapPd
  obtain ⟨h₂, hu₂⟩ := bootstrapEntry_leadsTo T .bootstrapPt
  obtain ⟨htarget, hbits⟩ :=
    entry_spec page vmmWritable vmmPresent (vmmWritable ||| vmmUser ||| vmmNx) hpage hsmall
    (by decide) (by decide)
  change tableFromEntry (vmmLeaf page vmmWritable) = page at htarget
  have hleaf : (vmmLeaf page vmmWritable).getLsbD 0 = true ∧
      (vmmLeaf page vmmWritable).getLsbD 1 = true ∧
      (vmmLeaf page vmmWritable).getLsbD 2 = false ∧
      (vmmLeaf page vmmWritable).getLsbD 63 = false :=
    ⟨(hbits 0 (by decide)).trans (by decide), (hbits 1 (by decide)).trans (by decide),
      (hbits 2 (by decide)).trans (by decide), (hbits 63 (by decide)).trans (by decide)⟩
  obtain ⟨hpresent, hwritable, huser, hexec⟩ := hleaf
  rw [access, hpath, show pathOf testVirtual = [0, 256, 0, 0] from by decide, trail_four]
  dsimp only
  rw [h.pml4, h₄.target, h.pdpt, h₃.target, h.pd, h₂.target, h.pt,
    trailStep_table h₄.present (by rw [h₄.small]; simp),
    trailStep_table h₃.present (by rw [h₃.small]; simp),
    trailStep_table h₂.present (by rw [h₂.small]; simp), trailStep_table hpresent (by simp)]
  simp only [Option.map_some, List.all_cons, List.all_nil, List.any_cons, List.any_nil, h₄.writable,
    h₃.writable, h₂.writable, hwritable, hu₄, huser, h₄.exec, h₃.exec, h₂.exec, hexec,
    Bool.and_true, Bool.false_and, Bool.or_false, Option.some.injEq]
  congr 1
  refine BitVec.eq_of_toNat_eq ((toNat_physical (vmmLeaf page vmmWritable) _).trans ?_)
  rw [htarget, hlow, BitVec.toNat_add, BitVec.toNat_ofNat]
  omega

/-- The first word there. -/
theorem TestWay.word (h : TestWay T m (vmmLeaf page vmmWritable))
    (hmmu : S.mmu = paging c (T.address .pml4)) (hpage : page.toNat = 4096 * p) (hp : p < 65536)
    (value : U64) : storeWord S m testVirtual value = .ok (write64 m (4096 * p) value) ∧
      loadWord S m testVirtual = .ok (read64 m (4096 * p)) := by
  have hmaps : ∀ acc, KernelData acc → S.MapsTo m acc testVirtual (4096 * p) := by
    intro acc hacc
    refine ⟨by decide, by decide, fun k hk => ?_⟩
    rw [hmmu]
    refine paging_eq_some.2 ⟨Or.inl ?_, _, by
      rw [tableFromEntry_page (T.aligned .pml4) (by have := T.low .pml4; omega)]
      exact h.access_eq (by omega) (by omega) (by omega), ?_, ?_⟩
    · rw [BitVec.toNat_add, BitVec.toNat_ofNat, show testVirtual.toNat = 2 ^ 38 from rfl]
      omega
    · obtain ⟨user, kind, ac⟩ := acc
      obtain ⟨rfl, hkind⟩ := hacc
      cases kind with
      | read => simp [grants]
      | write => simp [grants]
      | fetch => exact absurd rfl hkind
    · rw [BitVec.toNat_add, BitVec.toNat_ofNat]
      omega
  exact ⟨(hmaps _ ⟨rfl, by simp⟩).store 13 value, (hmaps _ ⟨rfl, by simp⟩).load 13⟩

/-- **The part of the test that maps a page.**  It passes, and writes to the page only. -/
theorem mapTest_eq (h : TestWay T σ.mem 0) (hmmu : S.mmu = paging c (T.address .pml4)) (hp : p ∈ F)
    (hpage : page.toNat = 4096 * p) (hF : ∀ q ∈ F, q < 65536)
    (htables : ∀ k, (T.address k).toNat / 4096 ∉ F) :
    ∃ m', mapTest S (T.address .pml4) page σ = .ok (true, ⟨m', σ.pmm⟩) ∧ ∀ x, x / 4096 ∉ F →
      m' x = σ.mem x := by
  have hlow := hF p hp
  have haligned : page.toNat % 4096 = 0 := by omega
  have hsmall : page.toNat < 2 ^ 52 := by omega
  have h₁ := h.setLeaf (vmmLeaf page vmmWritable)
  let m₁ := setSlot σ.mem (T.address .bootstrapPt).toNat 0 (vmmLeaf page vmmWritable)
  let m₂ := write64 m₁ (4096 * p) 0x5342554D4D544553
  have htranslate : vmmTranslate m₁ (T.address .pml4) testVirtual = page := by
    have haccess := h₁.access_eq haligned hsmall (k := 0) (by decide)
    rw [BitVec.add_zero, BitVec.add_zero, Mm.access, Option.map_eq_some_iff] at haccess
    obtain ⟨l, htrail, hphysical⟩ := haccess
    rw [vmmTranslate_eq, htrail]
    exact congrArg Mm.Access.physical hphysical
  have h₂ : TestWay T m₂ (vmmLeaf page vmmWritable) :=
    h₁.congr fun k x hx => write64_frame hp _ _ (hx ▸ htables k)
  obtain ⟨htarget, hpresent⟩ := vmmLeaf_spec vmmWritable haligned hsmall
  refine ⟨setSlot m₂ (T.address .bootstrapPt).toNat 0 0, ?_, fun x hx => ?_⟩
  · have hmap := h.map haligned
    change _ = (0, (⟨m₁, σ.pmm⟩ : Phys)) at hmap
    rw [mapTest, hmap]
    dsimp only
    rw [if_neg (by simp), htranslate, if_neg (by simp), (h₁.word hmmu hpage hlow _).1]
    simp only [bind, Except.bind]
    rw [(h₂.word hmmu hpage hlow 0).2, read64_write64]
    dsimp only
    rw [if_neg (by simp), TestWay.unmap (σ := ⟨m₂, σ.pmm⟩) h₂ hpresent, htarget]
    dsimp only
    rw [decide_eq_true rfl]
  · rw [setSlot, ← h.pt, slot, write64_read64]
    split_ifs with hin
    · rfl
    · change write64 m₁ (4096 * p) _ x = _
      rw [write64_frame hp _ _ hx]
      exact write64_of_outside _ _ (by omega)

end Mapping

/-! ### What the tests leave -/

section Tests

variable {T : StaticTables} {S : System} {c : Controls} {σ : Phys} {a : PageSets}

/-- The three pages of the test, given back in the order in which they were taken. -/
theorem giveBack_take {a : PageSets} {p q r : ℕ} (hp : p ∈ a.free) (hq : q ∈ (a.take p).free)
    (hr : r ∈ ((a.take p).take q).free) :
    (((((a.take p).take q).take r).giveBack p).giveBack q).giveBack r = a := by
  rw [PageSets.free_take, Finset.mem_erase] at hq hr
  rw [PageSets.free_take, Finset.mem_erase] at hr
  have hp' := (PageSets.mem_free.1 hp).2.2
  have hq' := (PageSets.mem_free.1 hq.2).2.2
  have hr' := (PageSets.mem_free.1 hr.2.2).2.2
  obtain ⟨usable, reserved, allocated⟩ := a
  simp only [PageSets.take, PageSets.giveBack, PageSets.mk.injEq, true_and]
  ext x
  simp only [Finset.mem_erase, Finset.mem_insert]
  constructor
  · rintro ⟨hxr, hxq, hxp, h | h | h | h⟩
    · exact absurd h hxr
    · exact absurd h hxq
    · exact absurd h hxp
    · exact h
  · intro hx
    exact ⟨fun h => hr' (h ▸ hx), fun h => hq' (h ▸ hx), fun h => hp' (h ▸ hx),
      Or.inr (Or.inr (Or.inr hx))⟩

/-- **`vmm_selftest`.** -/
theorem vmmSelftest_eq (hway : TestWay T σ.mem 0) (hmmu : S.mmu = paging c (T.address .pml4))
    (hf : Frames S σ.mem a.free) (h : Allocator σ.pmm a) (hzero : 0 ∉ a.free)
    (htables : ∀ k, (T.address k).toNat / 4096 ∉ a.free) :
    ∃ σ' a', vmmSelftest S (T.address .pml4) σ = .ok (decide (3 ≤ a.free.card), σ') ∧
      Allocator σ'.pmm a' ∧ a'.free = (if 3 ≤ a.free.card then a.free else ∅) ∧
      ∀ x, x / 4096 ∉ a.free → σ'.mem x = σ.mem x := by
  have hF : ∀ q ∈ a.free, q < 65536 := fun q hq => h.refines.free_lt hq
  have hfails : ∀ (σ' : Phys) {a' : PageSets}, a.free.card < 3 → a'.free = ∅ → Allocator σ'.pmm a' →
      (∀ x, x / 4096 ∉ a.free → σ'.mem x = σ.mem x) →
      vmmSelftest S (T.address .pml4) σ = .ok (false, σ') →
      ∃ σ' a', vmmSelftest S (T.address .pml4) σ = .ok (decide (3 ≤ a.free.card), σ') ∧
        Allocator σ'.pmm a' ∧ a'.free = (if 3 ≤ a.free.card then a.free else ∅) ∧
        ∀ x, x / 4096 ∉ a.free → σ'.mem x = σ.mem x := by
    intro σ' a' hfew hempty h' hmem heq
    refine ⟨σ', a', ?_, h', ?_, hmem⟩
    · rw [heq, decide_eq_false (by omega)]
    · rw [if_neg (by omega), hempty]
  rcases h.alloc hzero with ⟨hempty, halloc⟩ | ⟨p, hp, page, pmm, halloc, hne, hpage, h₁⟩
  · refine hfails σ (by rw [hempty]; decide) hempty h (fun _ _ => rfl) ?_
    rw [vmmSelftest, halloc]
    exact if_pos rfl
  have hcard₁ := PageSets.card_free_take hp
  have hsub₁ : (a.take p).free ⊆ a.free := by
    rw [PageSets.free_take]
    exact Finset.erase_subset ..
  have hstore := (hf.word hp hpage 0x5342554D4D544553).1
  have hmem₁ : ∀ x, x / 4096 ∉ a.free →
      write64 σ.mem (4096 * p) 0x5342554D4D544553 x = σ.mem x := fun x =>
    write64_frame hp σ.mem _
  rcases extraPage_or (σ := ⟨write64 σ.mem (4096 * p) 0x5342554D4D544553, pmm⟩)
    (hf.change hmem₁) h₁ hsub₁ (fun h0 => hzero (hsub₁ h0)) 0x1122334455667788
    with ⟨hempty, hextra⟩ | ⟨q, hq, extra₁, σ₁, hextra, hpage₁, h₂, hmem₂⟩
  · refine hfails ⟨write64 σ.mem (4096 * p) 0x5342554D4D544553, pmm⟩
      (by rw [hempty, Finset.card_empty] at hcard₁; omega) hempty h₁ hmem₁ ?_
    rw [vmmSelftest, halloc]
    dsimp only
    rw [if_neg hne, hstore]
    simp only [bind, Except.bind]
    rw [hextra]
  have hcard₂ := PageSets.card_free_take hq
  have hsub₂ : ((a.take p).take q).free ⊆ a.free := by
    rw [PageSets.free_take]
    exact (Finset.erase_subset ..).trans hsub₁
  have hmem₂' : ∀ x, x / 4096 ∉ a.free → σ₁.mem x = σ.mem x :=
    fun x hx => (hmem₂ x hx).trans (hmem₁ x hx)
  rcases extraPage_or (hf.change hmem₂') h₂ hsub₂ (fun h0 => hzero (hsub₂ h0)) 0x8877665544332211
    with ⟨hempty, hextra₂⟩ | ⟨r, hr, extra₂, σ₂, hextra₂, hpage₂, h₃, hmem₃⟩
  · refine hfails σ₁ (by rw [hempty, Finset.card_empty] at hcard₂; omega) hempty h₂ hmem₂' ?_
    rw [vmmSelftest, halloc]
    dsimp only
    rw [if_neg hne, hstore]
    simp only [bind, Except.bind]
    rw [hextra]
    dsimp only
    rw [hextra₂]
  -- all three are there
  have hcard₃ := PageSets.card_free_take hr
  have hmem₃' : ∀ x, x / 4096 ∉ a.free → σ₂.mem x = σ.mem x :=
    fun x hx => (hmem₃ x hx).trans (hmem₂' x hx)
  obtain ⟨m', htest, hmem₄⟩ :=
    mapTest_eq (hway.congr fun k x hx => hmem₃' x (hx ▸ htables k)) hmmu hp hpage hF htables
  have hallocated : p ∈ (((a.take p).take q).take r).allocated ∧
      q ∈ ((((a.take p).take q).take r).giveBack p).allocated ∧
      r ∈ (((((a.take p).take q).take r).giveBack p).giveBack q).allocated := by
    have hqp : q ≠ p := fun h => by simp [PageSets.free_take, h] at hq
    have hrq : r ≠ q := fun h => by simp [PageSets.free_take, h] at hr
    have hrp : r ≠ p := fun h => by simp [PageSets.free_take, h] at hr
    simp [PageSets.take, PageSets.giveBack, hqp, hrq, hrp]
  have hback := ((h₃.free hallocated.1 hpage).free hallocated.2.1 hpage₁).free hallocated.2.2 hpage₂
  rw [giveBack_take hp hq hr] at hback
  refine ⟨⟨m', _⟩, a, ?_, hback, ?_, fun x hx => (hmem₄ x hx).trans (hmem₃' x hx)⟩
  · rw [vmmSelftest, halloc, decide_eq_true (by omega)]
    dsimp only
    rw [if_neg hne, hstore]
    simp only [bind, Except.bind]
    rw [hextra]
    dsimp only
    rw [hextra₂]
    dsimp only
    rw [htest]
    rfl
  · rw [if_pos (by omega)]

/-- A byte of a frame. -/
theorem Frames.byte {F : Finset ℕ} {m : Mem} {page : U64} {p : ℕ} (h : Frames S m F) (hp : p ∈ F)
    (hpage : page.toNat = 4096 * p) {k : ℕ} (hk : k < 4096) {va : U64}
    (hva : va = page + BitVec.ofNat 64 k) (value : U8) :
    storeByte S m va value = .ok (write8 m (4096 * p + k) value) ∧
    loadByte S m va = .ok (m (4096 * p + k)) := by
  have hin : (4096 * p + k) / 4096 ∈ F := by
    rw [show (4096 * p + k) / 4096 = p by omega]
    exact hp
  have hlow := h.1 _ hin
  have heq : va = BitVec.ofNat 64 (4096 * p + k) := by
    refine BitVec.eq_of_toNat_eq ?_
    rw [hva, BitVec.toNat_add, BitVec.toNat_ofNat, BitVec.toNat_ofNat, hpage]
    omega
  have hmmu := fun acc (hacc : KernelData acc) => h.2 m (fun _ _ => rfl) acc hacc _ hin
  rw [storeByte, loadByte, heq, hmmu _ ⟨rfl, by simp⟩, hmmu _ ⟨rfl, by simp⟩]
  exact ⟨rfl, rfl⟩

/-- A write of a byte stays in its frame. -/
theorem write8_frame {F : Finset ℕ} {p k : ℕ} (hp : p ∈ F) (hk : k < 4096) (m : Mem)
    (value : U8) {x : ℕ} (hx : x / 4096 ∉ F) : write8 m (4096 * p + k) value x = m x := by
  refine if_neg fun heq => hx ?_
  rw [heq, show (4096 * p + k) / 4096 = p by omega]
  exact hp

/-- **`heap_selftest`** passes where a frame is free, and gives it back. -/
theorem heapSelftest_eq {K : Kernel} (hf : Frames S K.phys.mem a.free) (h : Allocator K.phys.pmm a)
    (hzero : 0 ∉ a.free) : ∃ m', heapSelftest S K =
        .ok (decide (0 < a.free.card), { K with phys := ⟨m', K.phys.pmm⟩, heap := kheapInit }) ∧
      ∀ x, x / 4096 ∉ a.free → m' x = K.phys.mem x := by
  have hsize : roundUpPages 32 = 1 := by decide
  rcases h.alloc hzero with ⟨hempty, halloc⟩ | ⟨p, hp, page, pmm, halloc, hne, hpage, -⟩
  · refine ⟨K.phys.mem, ?_, fun _ _ => rfl⟩
    have hkheap : kheapAlloc { K with heap := kheapInit } 32 =
        (0, { K with heap := kheapInit }) := by
      rw [kheapAlloc, if_neg (by simp [kheapInit]), if_neg (by rw [hsize]; simp), halloc]
      exact if_pos rfl
    rw [heapSelftest, hkheap, hempty]
    exact if_pos rfl
  · have hkheap : kheapAlloc { K with heap := kheapInit } 32 =
        (page, { K with phys := ⟨K.phys.mem, pmm⟩, heap := ⟨page, 1, 32, 32, true⟩ }) := by
      rw [kheapAlloc, if_neg (by simp [kheapInit]), if_neg (by rw [hsize]; simp), halloc]
      exact if_neg hne
    have hback : pmmFreePage bootstrapLimit pmm page = K.phys.pmm := by
      have := h.refines.freePage_allocPage ⟨p, hp⟩
      rwa [halloc] at this
    have hstep : ∀ {m k}, Frames S m a.free → k < 4096 → ∀ value : U8,
        Frames S (write8 m (4096 * p + k) value) a.free := fun {m k} hm hk value =>
      hm.change fun x => write8_frame hp hk m value
    let m₀ := write8 K.phys.mem (4096 * p + 0) 0xA5
    let m₁ := write8 m₀ (4096 * p + 1) 0x5A
    let m₂ := write8 m₁ (4096 * p + 2) 0x3C
    let m₃ := write8 m₂ (4096 * p + 3) 0xC3
    have hf₀ : Frames S m₀ a.free := hstep hf (by decide) _
    have hf₁ : Frames S m₁ a.free := hstep hf₀ (by decide) _
    have hf₂ : Frames S m₂ a.free := hstep hf₁ (by decide) _
    have hf₃ : Frames S m₃ a.free := hstep hf₂ (by decide) _
    have hva : page = page + BitVec.ofNat 64 0 := (BitVec.add_zero page).symm
    have hs₀ : storeByte S K.phys.mem page 0xA5 = .ok m₀ := (hf.byte hp hpage (by decide) hva _).1
    have hs₁ : storeByte S m₀ (page + 1) 0x5A = .ok m₁ := (hf₀.byte hp hpage (by decide) rfl _).1
    have hs₂ : storeByte S m₁ (page + 2) 0x3C = .ok m₂ := (hf₁.byte hp hpage (by decide) rfl _).1
    have hs₃ : storeByte S m₂ (page + 3) 0xC3 = .ok m₃ := (hf₂.byte hp hpage (by decide) rfl _).1
    have hl₀ : loadByte S m₃ page = .ok 0xA5 :=
      (hf₃.byte hp hpage (by decide) hva 0).2.trans (by simp [m₀, m₁, m₂, m₃, write8])
    have hl₁ : loadByte S m₃ (page + 1) = .ok 0x5A :=
      (hf₃.byte hp hpage (by decide : 1 < 4096) rfl 0).2.trans (by simp [m₁, m₂, m₃, write8])
    have hl₂ : loadByte S m₃ (page + 2) = .ok 0x3C :=
      (hf₃.byte hp hpage (by decide : 2 < 4096) rfl 0).2.trans (by simp [m₂, m₃, write8])
    have hl₃ : loadByte S m₃ (page + 3) = .ok 0xC3 :=
      (hf₃.byte hp hpage (by decide : 3 < 4096) rfl 0).2.trans (by simp [m₃, write8])
    have hkfree : kheapFree { K with phys := ⟨m₃, pmm⟩, heap := ⟨page, 1, 32, 32, true⟩ } page =
        { K with phys := ⟨m₃, K.phys.pmm⟩, heap := kheapInit } := by
      rw [kheapFree, if_neg (by simpa using hne), ← hback]
      rfl
    refine ⟨m₃, ?_, fun x hx => ?_⟩
    · rw [heapSelftest, hkheap, decide_eq_true (Finset.card_pos.2 ⟨p, hp⟩)]
      dsimp only
      rw [if_neg hne, hs₀]
      simp only [bind, Except.bind, hs₁, hs₂, hs₃, hl₀, hl₁, hl₂, hl₃, hkfree]
      simp
    · exact (write8_frame hp (by decide) _ _ hx).trans ((write8_frame hp (by decide) _ _ hx).trans
        ((write8_frame hp (by decide) _ _ hx).trans (write8_frame hp (by decide) _ _ hx)))

/-- **`process_syscall_selftest`** passes where a frame is free; the process it makes, in slot 0,
stays. -/
theorem processSyscallSelftest_eq {K : Kernel} (h : Allocator K.phys.pmm a) (hzero : 0 ∉ a.free) :
    let r := processSyscallSelftest K
    r.1 = decide (0 < a.free.card) ∧
      (r.2.phys = (addressSpaceCreate K.phys K.cr3).2 ∧ r.2.cr3 = K.cr3) ∧
      (∀ j, r.2.live j ↔ 0 < a.free.card ∧ j = 0) ∧
      r.2.processCount = if 0 < a.free.card then 1 else 0 := by
  have hcreate : processCreate (processInit K) 100 = createIn (processInit K) 0 100 := rfl
  have hne := h.refines.allocPage_ne_zero_iff
  have hfst := addressSpaceCreate_fst_eq K.phys K.cr3
  unfold processSyscallSelftest
  rw [hcreate, createIn, show (processInit K).phys = K.phys from rfl,
    show (processInit K).cr3 = K.cr3 from rfl]
  rcases hspace : addressSpaceCreate K.phys K.cr3 with ⟨_ | pml4, σ'⟩
  · have hcard : ¬ 0 < a.free.card := fun hcard => by
      rw [hspace, if_neg (hne.2 ⟨hzero, hcard⟩)] at hfst
      exact absurd hfst (by simp)
    rw [if_neg hcard, decide_eq_false hcard]
    refine ⟨rfl, ⟨rfl, rfl⟩, fun j => iff_of_false (not_not.2 ?_) fun hj => hcard hj.1, rfl⟩
    change (Function.update (fun _ => Process.zero) 0 _ j).state = .unused
    rw [Function.update_apply]
    split_ifs
    · rfl
    · rfl
  · have hcard : 0 < a.free.card := by
      rw [hspace] at hfst
      split_ifs at hfst with hfail
      exact (hne.1 hfail).2
    rw [if_pos hcard, decide_eq_true hcard]
    dsimp only
    refine ⟨rfl, ⟨rfl, rfl⟩, fun j => ?_, rfl⟩
    rw [and_iff_right hcard]
    rcases eq_or_ne j 0 with rfl | hj
    · refine iff_of_true ?_ rfl
      change ProcessState.created ≠ .unused
      simp
    · refine iff_of_false (not_not.2 ?_) hj
      change (Function.update (Function.update (fun _ => Process.zero) 0 _) 0 _ j).state = .unused
      rw [Function.update_of_ne hj, Function.update_of_ne hj]
      rfl

/-- The frame of a new PML4. -/
theorem Allocator.addressSpaceCreate (h : Allocator σ.pmm a) (hzero : 0 ∉ a.free) (cr3 : U64) :
    ∃ a', Allocator (Mm.addressSpaceCreate σ cr3).2.pmm a' ∧ a'.free ⊆ a.free ∧
      a'.free.card = a.free.card - 1 ∧
      ∀ x, x / 4096 ∉ a.free → (Mm.addressSpaceCreate σ cr3).2.mem x = σ.mem x := by
  have hpmm := addressSpaceCreate_pmm σ cr3
  rcases h.alloc hzero with ⟨hempty, halloc⟩ | ⟨p, hp, page, pmm, halloc, hne, hpage, h'⟩
  · refine ⟨a, ?_, Finset.Subset.refl _, by rw [hempty]; rfl, fun x _ => ?_⟩
    · rw [hpmm, halloc]
      exact h
    · rw [Mm.addressSpaceCreate, halloc]
      rfl
  · have hcard := PageSets.card_free_take hp
    refine ⟨a.take p, ?_, ?_, by omega, fun x hx => ?_⟩
    · rw [hpmm, halloc]
      exact h'
    · rw [PageSets.free_take]
      exact Finset.erase_subset ..
    · have hsome : Mm.addressSpaceCreate σ cr3 = (some page, (Mm.addressSpaceCreate σ cr3).2) := by
        refine Prod.ext ?_ rfl
        rw [addressSpaceCreate_fst_eq, halloc, if_neg hne]
      have hn := addressSpaceCreate_some h.refines hsome
      exact hn.other x fun heq => hx (heq ▸ hn.free)

/-- The three tests in their order, with nothing between them. -/
def kernelSelftests (S : System) (pml4 : U64) (K : Kernel) :
    Except Vector ((Bool × Bool × Bool) × Kernel) := do
  let (vmm, σ) ← vmmSelftest S pml4 K.phys
  let (heap, K) ← heapSelftest S { K with phys := σ }
  let (process, K) := processSyscallSelftest K
  .ok ((vmm, heap, process), K)

/-- **The self-tests.**  After `vmm_init`, with any number of free frames, none of the tests faults.
With three frames or more all of them pass, and one frame is gone, with the PML4 of the process that
is left behind.  With fewer none passes, and no frame is left for any process.  Whatever is not in a
free frame, the page tables among it, is as it was. -/
theorem selftests_exact (T : StaticTables) (m : Mem) {pmm : Pmm} (hpmm : PmmReached pmm)
    (hzero : 0 ∉ freeSet bootstrapLimit pmm)
    (htaken : ∀ k, (T.address k).toNat / 4096 ∉ freeSet bootstrapLimit pmm)
    (hmmu : S.mmu = paging c (T.address .pml4)) (K : Kernel)
    (hphys : K.phys = (bootedVmm T m pmm).phys) : let frames := (freeSet bootstrapLimit pmm).card
    let passed := decide (3 ≤ frames)
    ∃ K', kernelSelftests S (T.address .pml4) K = .ok ((passed, passed, passed), K') ∧
      (freeSet bootstrapLimit K'.phys.pmm).card = (if 3 ≤ frames then frames - 1 else 0) ∧
      (∀ j, K'.live j ↔ 3 ≤ frames ∧ j = 0) ∧ K'.processCount = (if 3 ≤ frames then 1 else 0) ∧
      ∀ x, x / 4096 ∉ freeSet bootstrapLimit pmm → K'.phys.mem x = K.phys.mem x := by
  obtain ⟨a, hr⟩ := hpmm.refines
  rw [hr.freeSet_eq] at hzero htaken ⊢
  have hspace := bootedVmm_space T m hr htaken
  have hway := bootedVmm_testWay T m pmm
  rw [← hphys] at hspace hway
  have hstart : K.phys.pmm = pmm := by
    rw [hphys, bootedVmm, vmmInit, if_neg (by simp)]
  obtain ⟨σ₁, a₁, hvmm, h₁, hfree, hmem₁⟩ := vmmSelftest_eq hway hmmu (hspace.frames hmmu)
    (by rw [hstart]; exact ⟨hr, hpmm⟩) hzero htaken
  have hsub : a₁.free ⊆ a.free := by
    rw [hfree]
    split_ifs
    · exact Finset.Subset.refl _
    · exact Finset.empty_subset _
  have hcard : 0 < a₁.free.card ↔ 3 ≤ a.free.card := by
    rw [hfree]
    split_ifs with hthree
    · exact iff_of_true (by omega) hthree
    · exact iff_of_false (by simp) hthree
  have hzero₁ : 0 ∉ a₁.free := fun h0 => hzero (hsub h0)
  have hspace₁ : KernelSpace T σ₁ a₁ := hspace.change h₁.refines
    (fun page hpage hin => hspace.not_free hpage (hsub hin)) fun x hx =>
      hmem₁ x (hspace.not_free hx)
  obtain ⟨m₂, hheap, hmem₂⟩ :=
    heapSelftest_eq (K := { K with phys := σ₁ }) (hspace₁.frames hmmu) h₁ hzero₁
  obtain ⟨hpass, ⟨hphys', -⟩, hlive, hcount⟩ := processSyscallSelftest_eq
    (K := { K with phys := ⟨m₂, σ₁.pmm⟩, heap := kheapInit }) h₁ hzero₁
  obtain ⟨a₃, h₃, -, hcard₃, hmem₃⟩ :=
    Allocator.addressSpaceCreate (σ := ⟨m₂, σ₁.pmm⟩) h₁ hzero₁ K.cr3
  refine ⟨(processSyscallSelftest { K with phys := ⟨m₂, σ₁.pmm⟩, heap := kheapInit }).2, ?_, ?_,
    fun j => ?_, ?_, fun x hx => ?_⟩
  · rw [kernelSelftests, hvmm]
    simp only [bind, Except.bind]
    rw [hheap]
    dsimp only
    rw [hpass]
    simp only [hcard]
  · rw [hphys', h₃.refines.freeSet_eq, hcard₃, hfree]
    split_ifs
    · rfl
    · rfl
  · rw [hlive j, hcard]
  · rw [hcount]
    simp only [hcard]
  · have hx₁ : x / 4096 ∉ a₁.free := fun hin => hx (hsub hin)
    rw [hphys']
    exact (hmem₃ x hx₁).trans ((hmem₂ x hx₁).trans (hmem₁ x hx))

end Tests

/-! ### A machine that passes -/

theorem lowTables_low (k : StaticTable) : (lowTables.address k).toNat / 4096 < 7 := by
  cases k <;> decide

/-- The tables of the examples are not free. -/
theorem lowTables_booted (k : StaticTable) :
    (lowTables.address k).toNat / 4096 ∉ bootedPages.free := by
  rw [mem_bootedPages_free]
  have := lowTables_low k
  omega

/-- With the frames from 2 MiB to 256 MiB free all three tests pass, and the process of the last one
is left. -/
theorem bootedMachine_passes :
    ∃ K', kernelSelftests
        { unpagedSystem with mmu := paging ⟨true, true, false, false⟩ (lowTables.address .pml4) }
        (lowTables.address .pml4)
        { bootedKernel with phys := (bootedVmm lowTables (fun _ => 0) bootedPmm).phys } =
      .ok ((true, true, true), K') ∧ K'.live 0 ∧ K'.processCount = 1 := by
  have hroom := bootedPages_room.2
  have htake := PageSets.card_free_take (mem_bootedPages_free.2 ⟨Nat.le_refl 512, by omega⟩)
  have hfree : 3 ≤ (freeSet bootstrapLimit bootedPmm).card := by
    rw [bootedPmm_refines.freeSet_eq]
    omega
  obtain ⟨K', hrun, -, hlive, hcount, -⟩ := selftests_exact
    (S := { unpagedSystem with mmu := paging ⟨true, true, false, false⟩ (lowTables.address .pml4) })
    lowTables (fun _ => 0) bootedPmm_reached
    (fun hzero => absurd (mem_bootedPmm_free.1 hzero).1 (by omega))
    (fun k => by rw [bootedPmm_refines.freeSet_eq]; exact lowTables_booted k) rfl
    { bootedKernel with phys := (bootedVmm lowTables (fun _ => 0) bootedPmm).phys } rfl
  rw [decide_eq_true hfree] at hrun
  rw [if_pos hfree] at hcount
  exact ⟨K', hrun, (hlive 0).2 ⟨hfree, rfl⟩, hcount⟩

end SuiraBox.Arch
