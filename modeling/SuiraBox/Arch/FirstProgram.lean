/-
# The first program

The end of `kmain` (`kernel/kernel.c`): `prepare_init_process`, `process_activate` and
`arch_enter_user`, on the machine that the earlier calls have left.

The stages hand over to each other.  The tables of `boot.S` and `vmm_init` map the first gibibyte to
itself whatever is mapped after them (`Mm.LowMapped`); so `gdt_init` finds its own tables, and so do
the processor and the kernel once a process is made that has the first slot of the PML4 in common
with them (`KernelUp`).  With that, whether the program runs depends on the module, on the frames
and on two bits of the processor, and on nothing else (`first_program`).

What `kmain` does in between is left to the assumptions of `AtInit`: no table in use is written to
or freed, and neither are the descriptor tables.  `timer_init`, which `kmain` calls between the
preparation and the activation, is left out (`startInit`).
-/

import SuiraBox.Arch.Selftests

namespace SuiraBox.Arch

open X64 ByteMem Protection Mm Exec Runs

/-! ### The machine at the call of `prepare_init_process` -/

/-- Memory and allocator after `boot.S`, `vmm_init` and any calls that map pages of the kernel or
unmap pages. -/
def VmmReached (T : StaticTables) (σ : Phys) : Prop :=
  ∃ m pmm a ops, Refines bootstrapLimit pmm a ∧ (∀ k, (T.address k).toNat / 4096 ∉ a.free) ∧
    NoUser ops ∧ σ = (run (vmmOpStep T) (bootedVmm T m pmm) ops).phys

/-- The page tables of `σ` are those of `m`. -/
def TablesKept (T : StaticTables) (σ : Phys) (m : Mem) : Prop :=
  ∀ p f, HasTable allTables (T.address .pml4).toNat σ.mem p f → ∀ x, x / 4096 = f / 4096 →
    m x = σ.mem x

/-- The gates, and the error codes that the processor pushes. -/
def withGates (S : System) (stub : ℕ → U64) (idt : U8 → IdtEntry) (calls : List GateCall)
    (error : U8 → U64) : System :=
  { S with
    idt := fun v => (gatesAfter stub idt calls v).gate
    code := fun v => if v.toNat ∈ errorVectors then some (error v) else none }

/-- `vmm_init` has been run, and later `gdt_init`, which has left the system `S`; since then their
tables have been kept. -/
structure AtInit (T : StaticTables) (L : GdtLayout) (c : Controls) (σ : Phys) (S : System)
    (K : Kernel) : Prop where
  vmm : VmmReached T σ
  cr3 : K.cr3 = T.address .pml4
  tables : TablesKept T σ K.phys.mem
  taken : ∀ p f, HasTable allTables (T.address .pml4).toNat σ.mem p f →
    f / 4096 ∉ freeSet bootstrapLimit K.phys.pmm
  gdt : ∃ S₀ m₀ m, S₀.mmu = paging c K.cr3 ∧ TablesKept T σ m₀ ∧ gdtInit L S₀ m₀ = .ok (S, m) ∧
    ∀ x, (L.gdt ≤ x ∧ x < L.gdt + 64) ∨ (L.tss ≤ x ∧ x < L.tss + 104) → K.phys.mem x = m x
  used : ∀ x, L.Area x → x / 4096 ∉ freeSet bootstrapLimit K.phys.pmm
  apart : ∀ x, L.Area x → ∀ p f, HasTable allTables (T.address .pml4).toNat σ.mem p f →
    x / 4096 ≠ f / 4096

/-- The end of `kmain`: `none` when the module finder does not come to an end, and `some none` when
`kmain` goes on to its halt loop.

`timer_init(100u)`, which comes before `process_activate`, is not in it.  It turns interrupts on,
and the stub of the timer does not give `al` back: a tick between `process_activate` and the test of
its result makes a failure of the 0 in `eax`, and `kmain` halts.  So this is the end of `kmain` when
no tick comes before the `cli` of `arch_enter_user`. -/
def startInit (c : Controls) (S : System) (K : Kernel) (fuel : ℕ) (multibootInfo moduleName : U64)
    (image : ProcessImage) (s : Cpu) : Option (Option System.Outcome) :=
  match prepareInitProcess K fuel multibootInfo moduleName (some image) with
  | none => none
  | some (some i, some image, K) => some (enterProcess c S K i image s)
  | some (_, _, _) => some none

section Up

variable {T : StaticTables} {L : GdtLayout} {c : Controls} {σ : Phys} {S : System} {K : Kernel}
    {a : PageSets}
  {m : Mem}

/-- The kernel's own addresses, wherever the tables are kept. -/
theorem VmmReached.access_low (h : VmmReached T σ) (hm : TablesKept T σ m) {x : ℕ}
    (hx : x < 2 ^ 30) :
    Mm.access m (T.address .pml4) (BitVec.ofNat 64 x) =
      some ⟨BitVec.ofNat 64 x, true, false, false⟩ := by
  obtain ⟨m₀, pmm, a, ops, hr, htaken, -, rfl⟩ := h
  obtain ⟨-, a', hlow⟩ := lowReady_run T m₀ hr htaken ops
  rw [access_congr (T.aligned .pml4) hm]
  exact hlow.access_eq hx

/-- The kernel's data on the tables of `vmm_init`. -/
theorem VmmReached.flat (h : VmmReached T σ) (hm : TablesKept T σ m)
    (hapart : ∀ x, L.Area x → ∀ p f, HasTable allTables (T.address .pml4).toNat σ.mem p f →
      x / 4096 ≠ f / 4096)
    (hmmu : S.mmu = paging c (T.address .pml4)) : Flat S m L.Area := by
  refine flat_of_access hmmu (fun x hx => L.area_low hx) fun m' hm' x hx => h.access_low ?_ hx
  exact fun p f hf y hy => (hm' y fun harea => hapart y harea p f hf hy).trans (hm p f hf y hy)

/-- The first slot of the PML4 is closed to ring 3. -/
theorem VmmReached.supervisor (h : VmmReached T σ) :
    (slot σ.mem (T.address .pml4).toNat 0).getLsbD 2 = false := by
  obtain ⟨m₀, pmm, a, ops, hr, htaken, hno, rfl⟩ := h
  obtain ⟨-, a', hlow⟩ := lowReady_run T m₀ hr htaken ops
  exact (hlow.entry .pml4 0 (by decide)).2 hno

/-- CR3 holds the kernel's PML4. -/
theorem AtInit.tableFromEntry_cr3 (h : AtInit T L c σ S K) :
    tableFromEntry K.cr3 = T.address .pml4 := by
  rw [h.cr3, tableFromEntry_pml4]

/-- The heap uses the same table. -/
theorem AtInit.kernelTable (h : AtInit T L c σ S K) : K.kernelTable = (T.address .pml4).toNat :=
  congrArg BitVec.toNat h.tableFromEntry_cr3

/-- The tables of the kernel are those of `vmm_init` and the calls after it. -/
theorem AtInit.hasTable_iff (h : AtInit T L c σ S K) (p : List ℕ) (f : ℕ) :
    HasTable allTables K.kernelTable K.phys.mem p f ↔
    HasTable allTables (T.address .pml4).toNat σ.mem p f := by
  rw [h.kernelTable]
  exact hasTable_congr (T.aligned .pml4) h.tables p f

/-- `gdt_init` has been able to use its tables. -/
theorem AtInit.gdtReady (h : AtInit T L c σ S K) :
    GdtReady L S K.phys.mem (BitVec.ofNat 64 L.stackTop) := by
  obtain ⟨S₀, m₀, m, hmmu, htables, hinit, hkept⟩ := h.gdt
  rw [h.cr3] at hmmu
  obtain ⟨S', m', heq, hready, -⟩ := gdtInit_ready L (h.vmm.flat htables h.apart hmmu)
  obtain ⟨rfl, rfl⟩ := Prod.mk.inj (Except.ok.inj (heq.symm.trans hinit))
  exact hready.congr hkept

/-- **The kernel is up.** -/
theorem AtInit.kernelUp (h : AtInit T L c σ S K) (hr : Refines bootstrapLimit K.phys.pmm a)
    (stub : ℕ → U64) (idt : U8 → IdtEntry) (calls : List GateCall) (error : U8 → U64) :
    KernelUp L stub idt calls error (withGates S stub idt calls error) K a := by
  have hready := h.gdtReady
  refine ⟨⟨hr, fun p f hf => ?_, ?_⟩, fun x hx => ?_, fun x hx => ?_, fun x hx p f hf => ?_,
    ⟨hready.gdtBase, hready.gdtLimit, hready.tssBase, hready.tssLimit, hready.segments,
      hready.rsp0⟩, fun _ => rfl,
    fun _ => rfl⟩
  · rw [← hr.freeSet_eq]
    exact h.taken p f ((h.hasTable_iff p f).1 hf)
  · rw [h.kernelTable, slot_congr (T.aligned .pml4) (by decide)
      (h.tables [] _ (hasTable_nil.2 rfl))]
    exact h.vmm.supervisor
  · rw [h.tableFromEntry_cr3]
    exact h.vmm.access_low h.tables (L.area_low hx)
  · rw [← hr.freeSet_eq]
    exact h.used x hx
  · exact h.apart x hx p f ((h.hasTable_iff p f).1 hf)

end Up

/-! ### The end of `kmain` -/

section Result

variable {T : StaticTables} {L : GdtLayout} {c : Controls} {σ : Phys} {S : System} {K : Kernel}
  {multibootInfo moduleName : U64} {tags : List Boot.Tag} {fuel : ℕ}

/-- Making a thread changes no memory and no space. -/
theorem processCreateThread_same {K K' : Kernel} {i : Slot} {tid : U64} {priority : U32}
    {n : Fin 16} (h : processCreateThread K (some i) tid priority = (some n, K')) :
    K'.phys = K.phys ∧ (K'.processes i).pml4Physical = (K.processes i).pml4Physical := by
  unfold processCreateThread at h
  dsimp only at h
  split_ifs at h
  · exact absurd (congrArg Prod.fst h) (by simp)
  · obtain rfl := congrArg Prod.snd h
    refine ⟨rfl, ?_⟩
    rw [setProcess_self]
  · exact absurd (congrArg Prod.fst h) (by simp)

/-- What has been prepared is entered, if the stack of the program can be written. -/
theorem AtInit.enter (h : AtInit T L c σ S K) (hi : InitReady K multibootInfo moduleName tags)
    (hfuel : (read32 K.phys.mem multibootInfo.toNat).toNat + tags.length < fuel)
    (hcan : InitPossible K tags) (stub : ℕ → U64) (idt : U8 → IdtEntry) (calls : List GateCall)
    (error : U8 → U64) (image : ProcessImage) (s : Cpu)
    (hring : ring s = 0) : ∃ start stop pml4 outcome, initModule tags = some (start, stop) ∧
      startInit c (withGates S stub idt calls error) K fuel multibootInfo moduleName image s =
        some (some outcome) ∧
      (CanEnter c s.rflags → ∃ t, outcome = .running t ∧
        t.rip = loadBias K.phys.mem start + (headerAt K.phys.mem start.toNat).entry ∧ t.cs = 0x23 ∧
        t.ss = 0x2B ∧ t.regs .rsp = userStackTop ∧ t.rflags.getLsbD 9 = true ∧
        InRing3 L stub idt calls error { withGates S stub idt calls error
          with mmu := paging c pml4 } t) ∧
      (¬ CanEnter c s.rflags → outcome = .shutdown) := by
  obtain ⟨a, hr⟩ := hi.pmm.refines
  have hup := h.kernelUp hr stub idt calls error
  obtain ⟨start, stop, i, K₁, info, K₂, n, K₃, hmodule, hcreate, -, hprepare, hthread, -, -, heq⟩ :=
    hi.prepared hfuel hcan image
  have hkept : ∀ x, InImage start (stop - start) x → x / 4096 ∉ a.free := fun x hx =>
    hr.freeSet_eq ▸ hi.moduleKept start stop hmodule x hx
  obtain ⟨hprepared, hpml4, hinfo, hentry⟩ :=
    processPrepareElf_prepared hr hup.kept.taken hcreate hkept
    (congrArg Prod.fst hprepare)
  rw [hprepare] at hprepared hpml4 hinfo
  dsimp only at hprepared hpml4 hinfo
  obtain ⟨hphys, hsame⟩ := processCreateThread_same hthread
  obtain ⟨program, hprogram⟩ : ∃ program : ProcessImage, program = ⟨loadBias K.phys.mem start +
    (headerAt K.phys.mem start.toNat).entry, userStackTop, userStackBottom⟩ := ⟨_, rfl⟩
  have hpoint : program.entryPoint =
      loadBias K.phys.mem start + (headerAt K.phys.mem start.toNat).entry := by
    rw [hprogram]
  have hstack : program.userStackTop = userStackTop := by
    rw [hprogram]
  rw [← hprogram] at hinfo
  rw [← hpoint] at hentry
  have hstart : startInit c (withGates S stub idt calls error) K fuel multibootInfo
      moduleName image s =
      some (enterProcess c (withGates S stub idt calls error) K₃ i program s) := by
    rw [startInit, heq, hinfo]
  obtain ⟨hyes, hno⟩ := enterProcess_prepared hup hprepared
    (addressSpaceCreate_ne_zero (processCreate_space hcreate).1) hphys (hsame.trans hpml4) hentry
      hstack c s hring
  rw [hstart]
  by_cases henter : CanEnter c s.rflags
  · obtain ⟨t, hrun, hrip, hrest⟩ := hyes henter
    rw [hrun]
    exact ⟨start, stop, _, _, hmodule, rfl, fun _ => ⟨t, rfl, hrip.trans hpoint, hrest⟩,
      fun hno => absurd henter hno⟩
  · rw [hno henter]
    exact ⟨start, stop, 0, _, hmodule, rfl, fun hyes => absurd hyes henter, fun _ => rfl⟩

/-- **The first program.**  The information block is well formed, and the block, the name and the
module are not in free memory (`InitReady`); and no tick of the timer comes before `arch_enter_user`
(`startInit`).  Then the end of `kmain` comes to an end.  Where the first process can be prepared,
and ring 0 can write to the stack of the program, the program of the module `user-hello` is entered
in ring 3 at its entry point, with interrupts on, and every event from then on is handled.  Where it
cannot be prepared, `kmain` halts; and where ring 0 cannot write to the stack, the processor shuts
down. -/
theorem first_program (h : AtInit T L c σ S K) (hi : InitReady K multibootInfo moduleName tags)
    (hfuel : (read32 K.phys.mem multibootInfo.toNat).toNat + tags.length < fuel) (stub : ℕ → U64)
    (idt : U8 → IdtEntry) (calls : List GateCall) (error : U8 → U64)
    (image : ProcessImage) (s : Cpu) (hring : ring s = 0) :
    let S := withGates S stub idt calls error
    let outcome := startInit c S K fuel multibootInfo moduleName image s
    (InitPossible K tags → CanEnter c s.rflags → ∃ start stop pml4 t,
      initModule tags = some (start, stop) ∧
      outcome = some (some (.running t)) ∧
      t.rip = loadBias K.phys.mem start + (headerAt K.phys.mem start.toNat).entry ∧
      t.cs = 0x23 ∧ t.ss = 0x2B ∧ t.regs .rsp = userStackTop ∧ t.rflags.getLsbD 9 = true ∧
      InRing3 L stub idt calls error { S with mmu := paging c pml4 } t) ∧
    (InitPossible K tags → ¬ CanEnter c s.rflags → outcome = some (some .shutdown)) ∧
    (¬ InitPossible K tags → outcome = some none) := by
  intro S outcome
  refine ⟨fun hcan hyes => ?_, fun hcan hno => ?_, fun hno => ?_⟩
  · obtain ⟨start, stop, pml4, r, hmodule, hstart, hrun, -⟩ :=
      h.enter hi hfuel hcan stub idt calls error image s hring
    obtain ⟨t, rfl, hrest⟩ := hrun hyes
    exact ⟨start, stop, pml4, t, hmodule, hstart, hrest⟩
  · obtain ⟨start, stop, pml4, r, -, hstart, -, hshut⟩ :=
      h.enter hi hfuel hcan stub idt calls error image s hring
    rw [hshut hno] at hstart
    exact hstart
  · obtain ⟨info, K', heq, -, -⟩ := hi.refused hfuel hno image
    change startInit c S K fuel multibootInfo moduleName image s = _
    rw [startInit, heq]

end Result

/-! ### A machine with a program -/

/-- The descriptor tables and the stack in the first megabyte. -/
def firstLayout : GdtLayout where
  gdt := 0x20000
  tss := 0x21000
  stackTop := 0x30000
  aligned := by decide
  stack_low := by decide
  low := by decide
  tables_apart := by decide

/-- The machine after `vmm_init`. -/
def firstPhys : Phys := (bootedVmm lowTables (fun _ => 0) bootedPmm).phys

/-- Its tables, and the information block and the module of `initMem`. -/
def firstMem : Mem := fun x => if x < 0x7000 then firstPhys.mem x else initMem x

/-- The memory of the examples is reached from the boot. -/
theorem firstPhys_reached : VmmReached lowTables firstPhys :=
  ⟨fun _ => 0, bootedPmm, bootedPages, [], bootedPmm_refines, lowTables_booted, fun _ _ _ hmem =>
    absurd hmem (by simp), rfl⟩

/-- Its tables are in the first pages. -/
theorem firstPhys_tables {p : List ℕ} {f : ℕ}
    (hf : HasTable allTables (lowTables.address .pml4).toNat firstPhys.mem p f) : f / 4096 < 7 := by
  have hbooted := bootedVmm_booted lowTables (fun _ => 0) bootedPmm_refines lowTables_booted
  obtain ⟨q, -, hq⟩ := hbooted.hasTable_bootPaths hf
  obtain ⟨k, -, rfl⟩ := bootedVmm_tables lowTables (fun _ => 0) bootedPmm hq
  exact lowTables_low k

theorem firstLayout_area {x : ℕ} (hx : firstLayout.Area x) : 0x20000 ≤ x ∧ x < 0x30000 := by
  unfold GdtLayout.Area at hx
  simp only [firstLayout] at hx
  omega

/-- The kernel on this machine, once `gdt_init` has been run. -/
def firstKernel (m : Mem) : Kernel := { bootedKernel with phys := ⟨m, bootedPmm⟩ }

section First

variable {m : Mem} (hm : ∀ x, 0x7000 ≤ x → ¬ (0x20000 ≤ x ∧ x < 0x30000) → m x = initMem x)

include hm

/-- The information block is that of `initKernel`. -/
theorem firstKernel_ready :
    InitReady (firstKernel m) 0x10000 0x10030 [.module 0x100000 0x10007C userHello] ∧
    (read32 m (0x10000 : U64).toNat).toNat + 1 < 50 := by
  have hstart : (0x10000 : U64).toNat = 0x10000 := rfl
  have htotal : (read32 initKernel.phys.mem (0x10000 : U64).toNat).toNat = 48 := by decide +kernel
  have hblock : ∀ x, (0x10000 : U64).toNat ≤ x → x < (0x10000 : U64).toNat +
      (read32 initKernel.phys.mem (0x10000 : U64).toNat).toNat → m x = initMem x := fun x hlo hhi =>
    hm x (by omega) (by omega)
  refine ⟨initKernel_ready.congr rfl hblock fun x hlo hhi => ?_, ?_⟩
  · rw [show (0x10030 : U64).toNat = 0x10030 from rfl] at hlo hhi
    rw [show userHello.length = 10 from rfl] at hhi
    exact hm x (by omega) (by omega)
  · rw [read32_congr fun x hlo hhi => hblock x hlo (by omega)]
    exact htotal ▸ (by decide)

/-- So is the module. -/
theorem firstKernel_possible :
    InitPossible (firstKernel m) [.module 0x100000 0x10007C userHello] := by
  have himage : SameImage 0x100000 124 (imageMem sampleImage) m := fun x hx => by
    have hlo : 0x100000 ≤ x := hx.1
    rw [hm x (by omega) (by omega), initMem, if_neg (by omega)]
  obtain ⟨hp, henough⟩ := sampleImage_isProgram
  have hcount : (firstKernel m).processCount = 0 := rfl
  refine ⟨by rw [hcount]; decide, ⟨0, fun hlive => hlive rfl⟩, fun hzero => ?_, 0x100000,
    0x10007C, by decide, IsProgram.congr himage hp, ?_⟩
  · exact absurd (mem_bootedPmm_free.1 hzero).1 (by omega)
  · change (framePaths (programPages m 0x100000)).card < (freeSet bootstrapLimit bootedPmm).card
    rw [himage.programPages_eq (elf64Validate_spec hp.valid)]
    exact henough

end First

/-- `gdt_init` on this machine, whatever the controls of the processor are. -/
theorem firstKernel_atInit (c : Controls) :
    ∃ S m, AtInit lowTables firstLayout c firstPhys S (firstKernel m) ∧
    ∀ x, 0x7000 ≤ x → ¬ (0x20000 ≤ x ∧ x < 0x30000) → m x = initMem x := by
  have hkept : TablesKept lowTables firstPhys firstMem := fun p f hf x hx => by
    have := firstPhys_tables hf
    rw [firstMem, if_pos (by omega)]
  have hapart : ∀ x, firstLayout.Area x → ∀ p f,
      HasTable allTables (lowTables.address .pml4).toNat firstPhys.mem p f →
          x / 4096 ≠ f / 4096 := fun x hx p f hf => by
    have := firstPhys_tables hf
    have := firstLayout_area hx
    omega
  obtain ⟨S, m, hinit, -, -, hm⟩ :=
    gdtInit_ready (S := { unpagedSystem with mmu := paging c (lowTables.address .pml4) })
    firstLayout (firstPhys_reached.flat hkept hapart rfl)
  refine ⟨S, m, ⟨firstPhys_reached, rfl, fun p f hf x hx => ?_, fun p f hf hfree => ?_,
    ⟨_, _, _, rfl, hkept, hinit, fun _ _ => rfl⟩, fun x hx hfree => ?_, hapart⟩, fun x hx hno => ?_⟩
  · exact (hm x fun harea => hapart x harea p f hf hx).trans (hkept p f hf x hx)
  · have := firstPhys_tables hf
    have := (mem_bootedPmm_free.1 hfree).1
    omega
  · have := firstLayout_area hx
    have := (mem_bootedPmm_free.1 hfree).1
    omega
  · rw [hm x fun harea => hno (firstLayout_area harea), firstMem, if_neg (by omega)]

/-- With `EFER.NXE` the program is entered, without it the processor shuts down. -/
theorem firstKernel_enters :
    (∃ S m t,
      startInit ⟨true, true, false, false⟩ (withGates S (BitVec.ofNat 64) zeroIdt [] fun _ => 0)
        (firstKernel m) 50 0x10000 0x10030 ⟨0, 0, 0⟩ { userCpu with cs := 0x18 } =
          some (some (.running t)) ∧
      t.cs = 0x23) ∧
    ∃ S m,
      startInit ⟨false, true, false, false⟩ (withGates S (BitVec.ofNat 64) zeroIdt [] fun _ => 0)
        (firstKernel m) 50 0x10000 0x10030 ⟨0, 0, 0⟩ { userCpu with cs := 0x18 } =
          some (some .shutdown) := by
  obtain ⟨S, m, hat, hm⟩ := firstKernel_atInit ⟨true, true, false, false⟩
  obtain ⟨S', m', hat', hm'⟩ := firstKernel_atInit ⟨false, true, false, false⟩
  obtain ⟨hready, hfuel⟩ := firstKernel_ready hm
  obtain ⟨hready', hfuel'⟩ := firstKernel_ready hm'
  obtain ⟨hrun, -, -⟩ :=
    first_program hat hready hfuel (BitVec.ofNat 64) zeroIdt [] (fun _ => 0) ⟨0, 0, 0⟩
      { userCpu with cs := 0x18 } (by decide)
  obtain ⟨-, hshut, -⟩ :=
    first_program hat' hready' hfuel' (BitVec.ofNat 64) zeroIdt [] (fun _ => 0) ⟨0, 0, 0⟩
      { userCpu with cs := 0x18 } (by decide)
  obtain ⟨start, stop, pml4, t, -, hstart, -, hcs, -⟩ :=
    hrun (firstKernel_possible hm) ⟨rfl, fun h => absurd h (by simp)⟩
  exact ⟨⟨S, m, t, hstart, hcs⟩, S', m',
    hshut (firstKernel_possible hm') fun hcan => absurd hcan.1 (by simp)⟩

end SuiraBox.Arch
