/-
# The process table over whole runs

What the calls of `kernel/process.c` and `kernel/process_exec.c` make of the table of processes and
of its counter, from `process_init` on.  `tableEffect` says once what a call does to the table:
which slot it writes and what is in the record afterwards.  Everything here follows from that, and
what happens to the pages does not matter any more.

The first law of the table is that a pid names one process.  `process_create` does not look whether
a live process has the pid already, and with two of them `process_get` finds only the first; the law
holds in all runs that avoid this.
-/

import SuiraBox.Library.Runs
import SuiraBox.Exec.Loading

namespace SuiraBox.Exec

open Runs Mm

/-! ### What a call does to the table -/

/-- The ways in which a call can change the table. -/
inductive TableEffect
  | nothing
  /-- `process_create` found a slot, but no page -/
  | refuse (i : Slot)
  | create (i : Slot) (pid pml4 : U64)
  | thread (i : Slot) (n : Fin 16) (tid : U64) (priority : U32)
  /-- `process_prepare_elf` failed, with an address space -/
  | space (i : Slot) (pml4 : U64)
  | load (i : Slot) (pml4 entry : U64)
  | destroy (i : Slot)

/-- The slot that is written. -/
def TableEffect.slot : TableEffect → Option Slot
  | nothing => none
  | refuse i => some i
  | create i _ _ => some i
  | thread i _ _ _ => some i
  | space i _ => some i
  | load i _ _ => some i
  | destroy i => some i

/-- What is made of the record in that slot. -/
def TableEffect.record (process : Process) : TableEffect → Process
  | nothing => process
  | refuse _ => { process with pid := 0, state := .unused, threadCount := 0 }
  | create _ pid pml4 =>
    { process with pid := pid, state := .created, threadCount := 0, pml4Physical := pml4 }
  | thread _ n tid priority =>
    { process with
      threadCount := process.threadCount + 1
      threads := Function.update process.threads n ⟨tid, 0, priority, .created⟩ }
  | space _ pml4 => { process with pml4Physical := pml4 }
  | load _ pml4 entry =>
    { process with
      pml4Physical := pml4, state := .created, entryPoint := entry, userStackTop := userStackTop }
  | destroy _ => { process with pml4Physical := 0, state := .unused, pid := 0, threadCount := 0 }

/-- The table afterwards. -/
def TableEffect.table (e : TableEffect) (processes : Slot → Process) : Slot → Process :=
  match e.slot with
  | none => processes
  | some i => Function.update processes i (e.record (processes i))

/-- The counter afterwards. -/
def TableEffect.count (count : U32) : TableEffect → U32
  | create _ _ _ => count + 1
  | destroy _ => if 0 < count then count - 1 else count
  | _ => count

def createEffect (K : Kernel) (pid : U64) : TableEffect :=
  if pid = 0 ∨ 32 ≤ K.processCount then .nothing
  else match (List.finRange 32).find? fun i => (K.processes i).state = .unused with
    | none => .nothing
    | some i =>
      match (addressSpaceCreate K.phys K.cr3).1 with
      | none => .refuse i
      | some pml4 => .create i pid pml4

def threadEffect (K : Kernel) (process : Option Slot) (tid : U64) (priority : U32) : TableEffect :=
  match process with
  | none => .nothing
  | some i =>
    if h : (K.processes i).threadCount.toNat < 16 then
      if tid = 0 ∨ (K.processes i).state = .unused ∨ (K.processes i).state = .exited then .nothing
      else .thread i ⟨(K.processes i).threadCount.toNat, h⟩ tid priority
    else .nothing

/-- The entry point of a program that is loaded with its stack, if that succeeds. -/
def loadedEntry (K : Kernel) (i : Slot) (image imageSize : U64) : Option U64 :=
  match elf64LoadImage K.phys (K.processes i).pml4Physical image imageSize with
  | (none, _) => none
  | (some entry, σ) =>
    match mapUserStack σ (K.processes i).pml4Physical userStackBottom userStackTop with
    | .error _ => none
    | .ok _ => some entry

def prepareEffect (K : Kernel) (process : Option Slot) (image imageSize : U64)
    (imageInfo : Option ProcessImage) : TableEffect :=
  match process, imageInfo with
  | some i, some _ =>
    if image = 0 ∨ imageSize = 0 then .nothing
    else if (prepareSpace K i).1 = false then .nothing
    else
      let pml4 := ((prepareSpace K i).2.processes i).pml4Physical
      match loadedEntry (prepareSpace K i).2 i image imageSize with
      | none => .space i pml4
      | some entry => .load i pml4 entry
  | _, _ => .nothing

def destroyEffect (K : Kernel) (process : Option Slot) : TableEffect :=
  match process with
  | none => .nothing
  | some i => if (K.processes i).state = .unused then .nothing else .destroy i

/-- What a call does to the table. -/
def tableEffect (K : Kernel) : KernelCall → TableEffect
  | .create pid => createEffect K pid
  | .createThread process tid priority => threadEffect K process tid priority
  | .prepareElf process image imageSize imageInfo =>
    prepareEffect K process image imageSize imageInfo
  | .destroy process => destroyEffect K process
  | _ => .nothing

/-- The table and the counter change as the effect says. -/
def Effects (K K' : Kernel) (e : TableEffect) : Prop :=
  K'.processes = e.table K.processes ∧ K'.processCount = e.count K.processCount

variable {K K' : Kernel} {i j : Slot}

theorem processCreate_effects (K : Kernel) (pid : U64) :
    Effects K (processCreate K pid).2 (createEffect K pid) ∧
      ((processCreate K pid).1 = some i ↔ ∃ pml4, createEffect K pid = .create i pid pml4) := by
  unfold processCreate createEffect
  split_ifs with hargs
  · exact ⟨⟨rfl, rfl⟩, by simp⟩
  · cases (List.finRange 32).find? fun i => (K.processes i).state = .unused with
    | none => exact ⟨⟨rfl, rfl⟩, by simp⟩
    | some j =>
      dsimp only [createIn]
      rcases addressSpaceCreate K.phys K.cr3 with ⟨_ | pml4, σ⟩
      · exact ⟨⟨rfl, rfl⟩, by simp⟩
      · exact ⟨⟨rfl, rfl⟩, by simp⟩

theorem processCreateThread_effects (K : Kernel) (process : Option Slot) (tid : U64)
    (priority : U32) :
    Effects K (processCreateThread K process tid priority).2
    (threadEffect K process tid priority) := by
  unfold processCreateThread threadEffect
  cases process with
  | none => exact ⟨rfl, rfl⟩
  | some i =>
    dsimp only
    split_ifs
    · exact ⟨rfl, rfl⟩
    · exact ⟨rfl, rfl⟩
    · exact ⟨rfl, rfl⟩

theorem processDestroy_effects (K : Kernel) (process : Option Slot) :
    Effects K (processDestroy K process) (destroyEffect K process) := by
  unfold processDestroy destroyEffect
  cases process with
  | none => exact ⟨rfl, rfl⟩
  | some i =>
    dsimp only
    by_cases h : (K.processes i).state = .unused
    · rw [if_pos h, if_pos h]
      exact ⟨rfl, rfl⟩
    · rw [if_neg h, if_neg h]
      exact ⟨rfl, rfl⟩

/-- The address space of a process is there, or is made. -/
theorem prepareSpace_table (K : Kernel) (i : Slot) :
    ((prepareSpace K i).1 = false ∧ (prepareSpace K i).2.processes = K.processes ∨
      (prepareSpace K i).1 = true ∧ (prepareSpace K i).2.processes = Function.update K.processes i
        { K.processes i with pml4Physical := ((prepareSpace K i).2.processes i).pml4Physical }) ∧
      (prepareSpace K i).2.processCount = K.processCount := by
  rw [prepareSpace]
  split_ifs
  · rcases addressSpaceCreate K.phys K.cr3 with ⟨_ | pml4, σ⟩
    · exact ⟨Or.inl ⟨rfl, rfl⟩, rfl⟩
    · refine ⟨Or.inr ⟨rfl, ?_⟩, rfl⟩
      dsimp only
      rw [setProcess_self]
      rfl
  · exact ⟨Or.inr ⟨rfl, (Function.update_eq_self i K.processes).symm⟩, rfl⟩

theorem prepareImage_table (K : Kernel) (i : Slot) (image imageSize : U64) (info : ProcessImage) :
    (prepareImage K i image imageSize info).2.2.processes =
      (match loadedEntry K i image imageSize with
      | none => K.processes
      | some entry => Function.update K.processes i
        { K.processes i with
          state := .created, entryPoint := entry, userStackTop := userStackTop }) ∧
      (prepareImage K i image imageSize info).2.2.processCount = K.processCount := by
  unfold prepareImage loadedEntry
  dsimp only
  rcases elf64LoadImage K.phys (K.processes i).pml4Physical image imageSize with ⟨_ | entry, σ⟩
  · exact ⟨rfl, rfl⟩
  · dsimp only
    cases mapUserStack σ (K.processes i).pml4Physical userStackBottom userStackTop with
    | error σ => exact ⟨rfl, rfl⟩
    | ok σ => exact ⟨rfl, rfl⟩

theorem processPrepareElf_effects (K : Kernel) (process : Option Slot) (image imageSize : U64)
    (imageInfo : Option ProcessImage) :
    Effects K (processPrepareElf K process image imageSize imageInfo).2.2
      (prepareEffect K process image imageSize imageInfo) := by
  unfold processPrepareElf prepareEffect
  cases process with
  | none => exact ⟨rfl, rfl⟩
  | some i =>
    cases imageInfo with
    | none => exact ⟨rfl, rfl⟩
    | some info =>
      dsimp only
      by_cases hargs : image = 0 ∨ imageSize = 0
      · rw [if_pos hargs, if_pos hargs]
        exact ⟨rfl, rfl⟩
      · rw [if_neg hargs, if_neg hargs]
        obtain ⟨⟨hspace, htable⟩ | ⟨hspace, htable⟩, hcount⟩ := prepareSpace_table K i
        · rw [hspace]
          exact ⟨htable, hcount⟩
        · obtain ⟨htable', hcount'⟩ :=
            prepareImage_table (prepareSpace K i).2 i image imageSize info
          rw [hspace]
          refine ⟨htable'.trans ?_, ?_⟩
          · rw [if_neg Bool.noConfusion]
            cases loadedEntry (prepareSpace K i).2 i image imageSize with
            | none => exact htable
            | some entry =>
              dsimp only [TableEffect.table, TableEffect.slot, TableEffect.record]
              generalize ((prepareSpace K i).2.processes i).pml4Physical = pml4 at htable ⊢
              rw [htable, Function.update_idem, Function.update_self]
          · rw [if_neg Bool.noConfusion]
            refine (hcount'.trans hcount).trans ?_
            cases loadedEntry (prepareSpace K i).2 i image imageSize with
            | none => rfl
            | some entry => rfl

theorem kernelStep_effects (K : Kernel) (call : KernelCall) :
    Effects K (kernelStep K call).2 (tableEffect K call) := by
  cases call with
  | create pid => exact (processCreate_effects (i := 0) K pid).1
  | createThread process tid priority => exact processCreateThread_effects K process tid priority
  | prepareElf process image imageSize imageInfo =>
    exact processPrepareElf_effects K process image imageSize imageInfo
  | destroy process => exact processDestroy_effects K process
  | heapAlloc size =>
    rw [kernelStep, kheapAlloc]
    rcases pmmAllocPage bootstrapLimit K.phys.pmm with ⟨first, pmm⟩
    dsimp only
    split_ifs <;> exact ⟨rfl, rfl⟩
  | heapFree ptr =>
    rw [kernelStep, kheapFree]
    split_ifs <;> exact ⟨rfl, rfl⟩
  | store address value =>
    rw [kernelStep, kernelStore]
    split_ifs <;> exact ⟨rfl, rfl⟩

/-- A process can be created: the table has a slot and the allocator has a page. -/
def Kernel.canCreate (K : Kernel) : Prop :=
  K.processCount < 32 ∧ (∃ i, (K.processes i).state = .unused) ∧
    (pmmAllocPage bootstrapLimit K.phys.pmm).1 ≠ 0

/-- A thread can be created in a process. -/
def Kernel.canThread (K : Kernel) (i : Slot) : Prop :=
  (K.processes i).threadCount.toNat < 16 ∧ (K.processes i).state ≠ .unused ∧
    (K.processes i).state ≠ .exited

/-- A program can be loaded: there is an address space or a page for one, the loader accepts the
image, and the stack can be mapped. -/
def Kernel.canLoad (K : Kernel) (i : Slot) (image imageSize : U64) : Prop :=
  (prepareSpace K i).1 = true ∧ (loadedEntry (prepareSpace K i).2 i image imageSize).isSome

theorem createEffect_cases (K : Kernel) (pid : U64) :
    (¬ (pid ≠ 0 ∧ K.canCreate) ∧ (createEffect K pid = .nothing ∨
      ∃ i, createEffect K pid = .refuse i ∧ (K.processes i).state = .unused)) ∨
    ((pid ≠ 0 ∧ K.canCreate) ∧ ∃ i pml4, createEffect K pid = .create i pid pml4 ∧
      (K.processes i).state = .unused) := by
  unfold createEffect Kernel.canCreate
  split_ifs with hargs
  · refine Or.inl ⟨?_, Or.inl rfl⟩
    rintro ⟨hpid, hcount, -⟩
    exact hargs.elim hpid (BitVec.not_le.2 hcount)
  · rw [not_or, BitVec.not_le] at hargs
    cases hfind : (List.finRange 32).find? fun i => (K.processes i).state = .unused with
    | none =>
      refine Or.inl ⟨?_, Or.inl rfl⟩
      rintro ⟨-, -, ⟨i, hi⟩, -⟩
      exact absurd hi (by simpa using List.find?_eq_none.1 hfind i (List.mem_finRange i))
    | some i =>
      have hunused : (K.processes i).state = .unused := by simpa using List.find?_some hfind
      rw [addressSpaceCreate_fst_eq]
      split_ifs with hpage
      · exact Or.inl ⟨fun h => h.2.2.2 hpage, Or.inr ⟨i, rfl, hunused⟩⟩
      · exact Or.inr ⟨⟨hargs.1, hargs.2, ⟨i, hunused⟩, hpage⟩, i, _, rfl, hunused⟩

/-- A thread is made exactly for a nonzero tid with room. -/
theorem threadEffect_cases (K : Kernel) (i : Slot) (tid : U64) (priority : U32) :
    (¬ (tid ≠ 0 ∧ K.canThread i) ∧ threadEffect K (some i) tid priority = .nothing) ∨
    ((tid ≠ 0 ∧ K.canThread i) ∧
      ∃ n, threadEffect K (some i) tid priority = .thread i n tid priority) := by
  unfold threadEffect Kernel.canThread
  dsimp only
  split_ifs with hcount hargs
  · refine Or.inl ⟨?_, rfl⟩
    rintro ⟨htid, -, hstate, hstate'⟩
    exact hargs.elim htid fun h => h.elim hstate hstate'
  · rw [not_or, not_or] at hargs
    exact Or.inr ⟨⟨hargs.1, hcount, hargs.2⟩, _, rfl⟩
  · exact Or.inl ⟨fun h => hcount h.2.1, rfl⟩

theorem prepareEffect_cases (K : Kernel) (i : Slot) (image imageSize : U64) (info : ProcessImage) :
    (¬ (image ≠ 0 ∧ imageSize ≠ 0 ∧ K.canLoad i image imageSize) ∧
      (prepareEffect K (some i) image imageSize (some info) = .nothing ∨
        ∃ pml4, prepareEffect K (some i) image imageSize (some info) = .space i pml4)) ∨
    ((image ≠ 0 ∧ imageSize ≠ 0 ∧ K.canLoad i image imageSize) ∧
      ∃ pml4 entry, prepareEffect K (some i) image imageSize (some info) = .load i pml4 entry) := by
  unfold prepareEffect Kernel.canLoad
  dsimp only
  split_ifs with hargs hspace
  · refine Or.inl ⟨?_, Or.inl rfl⟩
    rintro ⟨himage, hsize, -⟩
    exact hargs.elim himage hsize
  · refine Or.inl ⟨?_, Or.inl rfl⟩
    rintro ⟨-, -, hcan, -⟩
    exact absurd (hspace.symm.trans hcan) Bool.noConfusion
  · rw [not_or] at hargs
    rw [Bool.not_eq_false] at hspace
    cases loadedEntry (prepareSpace K i).2 i image imageSize with
    | none => exact Or.inl ⟨fun h => Bool.noConfusion h.2.2.2, Or.inr ⟨_, rfl⟩⟩
    | some entry => exact Or.inr ⟨⟨hargs.1, hargs.2, hspace, rfl⟩, _, _, rfl⟩

/-- A process is destroyed exactly when it is live. -/
theorem destroyEffect_cases (K : Kernel) (i : Slot) :
    (¬ K.live i ∧ destroyEffect K (some i) = .nothing) ∨
      (K.live i ∧ destroyEffect K (some i) = .destroy i) := by
  unfold destroyEffect Kernel.live
  dsimp only
  split_ifs with hstate
  · exact Or.inl ⟨not_not.2 hstate, rfl⟩
  · exact Or.inr ⟨hstate, rfl⟩

/-- A null pointer does nothing. -/
theorem prepareEffect_null {process : Option Slot} {imageInfo : Option ProcessImage}
    (h : process = none ∨ imageInfo = none) (image imageSize : U64) :
    prepareEffect K process image imageSize imageInfo = .nothing := by
  rcases h with rfl | rfl
  · rfl
  · cases process with
    | none => rfl
    | some i => rfl

/-- The first slot that passes a test. -/
theorem find_first {p : Slot → Bool} (hi : p i = true) (hbefore : ∀ j < i, p j = false) :
    (List.finRange 32).find? p = some i := by
  refine List.find?_eq_some_iff_getElem.2 ⟨hi, i.val, ?_, ?_, fun j hj => ?_⟩
  · simp
  · simp
  · simpa using hbefore ⟨j, hj.trans i.isLt⟩ hj

/-- A process is created in the first slot that is not in use. -/
theorem createEffect_first {pid page : U64} (hpid : pid ≠ 0) (hcount : K.processCount < 32)
    (hi : ¬ K.live i) (hbefore : ∀ j < i, K.live j)
    (hpage : (pmmAllocPage bootstrapLimit K.phys.pmm).1 = page) (hne : page ≠ 0) :
    createEffect K pid = .create i pid page := by
  have hfind : ((List.finRange 32).find? fun i => (K.processes i).state = .unused) = some i :=
    find_first (decide_eq_true (not_not.1 hi)) fun j hj => decide_eq_false (hbefore j hj)
  rw [createEffect, if_neg (not_or.2 ⟨hpid, BitVec.not_le.2 hcount⟩), hfind]
  dsimp only
  rw [addressSpaceCreate_fst_eq, hpage, if_neg hne]

/-- The call that an effect comes from, and what holds before it. -/
def TableEffect.Cause (K : Kernel) (call : KernelCall) : TableEffect → Prop
  | nothing => True
  | refuse i => (∃ pid, call = .create pid) ∧ ¬ K.live i
  | create i pid _ => call = .create pid ∧ ¬ K.live i ∧ pid ≠ 0 ∧ K.canCreate
  | thread i _ tid priority =>
    call = .createThread (some i) tid priority ∧ tid ≠ 0 ∧ K.canThread i
  | space i _ => ∃ image imageSize info, call = .prepareElf (some i) image imageSize (some info)
  | load i _ _ => ∃ image imageSize info, call = .prepareElf (some i) image imageSize (some info) ∧
      image ≠ 0 ∧ imageSize ≠ 0 ∧ K.canLoad i image imageSize
  | destroy i => call = .destroy (some i) ∧ K.live i

theorem tableEffect_cause (K : Kernel) (call : KernelCall) : (tableEffect K call).Cause K call := by
  cases call with
  | create pid =>
    rw [tableEffect]
    rcases createEffect_cases K pid
      with ⟨-, heq | ⟨i, heq, hunused⟩⟩ | ⟨hcan, i, pml4, heq, hunused⟩
    · rw [heq]
      trivial
    · rw [heq]
      exact ⟨⟨pid, rfl⟩, not_not.2 hunused⟩
    · rw [heq]
      exact ⟨rfl, not_not.2 hunused, hcan⟩
  | createThread process tid priority =>
    cases process with
    | none => trivial
    | some i =>
      rw [tableEffect]
      rcases threadEffect_cases K i tid priority with ⟨-, heq⟩ | ⟨hcan, n, heq⟩
      · rw [heq]
        trivial
      · rw [heq]
        exact ⟨rfl, hcan⟩
  | prepareElf process image imageSize imageInfo =>
    cases process with
    | none =>
      rw [tableEffect, prepareEffect_null (Or.inl rfl)]
      trivial
    | some i =>
      cases imageInfo with
      | none =>
        rw [tableEffect, prepareEffect_null (Or.inr rfl)]
        trivial
      | some info =>
        rw [tableEffect]
        rcases prepareEffect_cases K i image imageSize info with
          ⟨-, heq | ⟨pml4, heq⟩⟩ | ⟨hcan, pml4, entry, heq⟩
        · rw [heq]
          trivial
        · rw [heq]
          exact ⟨image, imageSize, info, rfl⟩
        · rw [heq]
          exact ⟨image, imageSize, info, rfl, hcan⟩
  | destroy process =>
    cases process with
    | none => trivial
    | some i =>
      rw [tableEffect]
      rcases destroyEffect_cases K i with ⟨-, heq⟩ | ⟨hlive, heq⟩
      · rw [heq]
        trivial
      · rw [heq]
        exact ⟨rfl, hlive⟩
  | heapAlloc size => trivial
  | heapFree ptr => trivial
  | store address value => trivial

/-- A record is what the effect makes of it if it is the one that is written, and as before
otherwise. -/
theorem TableEffect.table_apply (e : TableEffect) (processes : Slot → Process) (j : Slot) :
    e.table processes j = if e.slot = some j then e.record (processes j) else processes j := by
  unfold table
  cases h : e.slot with
  | none => rfl
  | some i =>
    dsimp only
    split_ifs with hij
    · obtain rfl := Option.some.inj hij
      exact Function.update_self ..
    · exact Function.update_of_ne (fun hji => hij (congrArg some hji.symm)) ..

/-! ### A machine with an image -/

section Sample

variable (bytes : List U8)

/-- The page after the first one. -/
theorem imagePhys_alloc : (pmmAllocPage bootstrapLimit (imagePhys bytes).pmm).1 = 0x201000 := by
  have hfree : ∀ q, q ∈ (bootedPages.take 512).free ↔ q ≠ 512 ∧ 512 ≤ q ∧ q < 65536 := by
    intro q
    rw [PageSets.free_take, Finset.mem_erase, mem_bootedPages_free]
  refine ((imagePhys_refines bytes).allocPage_eq (p := 513) ((hfree 513).2 (by omega))
    fun q hq => ?_).1
  have := (hfree q).1 hq
  omega

theorem imageKernel_run {bytes : List U8} (hlen : bytes.length ≤ 4096) :
    run kernelStep (processInit (imageKernel bytes)) [.create 1] = imageProcess bytes := by
  have hinit : processInit (imageKernel bytes) = imageKernel bytes := rfl
  rw [hinit, run_cons, run_nil, kernelStep]
  dsimp only
  rw [imageKernel_create hlen]

/-- Destroying the process gives back the page, whatever has become of its record. -/
theorem imageProcess_destroy {process : Process} (hstate : process.state ≠ .unused)
    (hpml4 : process.pml4Physical = 0x200000) :
    processDestroy ((imageProcess bytes).setProcess 0 process) (some 0) =
      (imageKernel bytes).setProcess 0
        { process with pml4Physical := 0, state := .unused, pid := 0, threadCount := 0 } := by
  have hback : pmmFreePage bootstrapLimit (pmmAllocPage bootstrapLimit bootedPmm).2 0x200000 =
      bootedPmm := by
    have := bootedPmm_refines.freePage_allocPage ⟨512, mem_bootedPages_free.2 (by omega)⟩
    rwa [bootedPmm_alloc.1] at this
  have hphys : addressSpaceDestroy (imagePhys bytes) 0x200000 = (imageKernel bytes).phys := by
    rw [addressSpaceDestroy, if_neg (by decide)]
    dsimp only [imagePhys, imageKernel]
    rw [hback]
  have hprocesses : ∀ process',
      Function.update (Function.update (imageProcess bytes).processes 0 process) 0
      process' = Function.update (imageKernel bytes).processes 0 process' := by
    intro process'
    rw [Function.update_idem]
    exact Function.update_idem ..
  unfold processDestroy Kernel.setProcess
  dsimp only
  rw [Function.update_self, if_neg hstate, hpml4, hprocesses,
    show (imageProcess bytes).phys = imagePhys bytes from rfl, hphys,
    show (imageProcess bytes).processCount = 1 from rfl, if_pos (by decide)]
  rfl

/-- A process can be created in the first slot again. -/
theorem imageKernel_creates {process : Process} (hstate : process.state = .unused) {pid : U64}
    (hpid : pid ≠ 0) :
    (processCreate ((imageKernel bytes).setProcess 0 process) pid).1 = some 0 := by
  have hcount : ((imageKernel bytes).setProcess 0 process).processCount = 0 := rfl
  have hunused : ¬ ((imageKernel bytes).setProcess 0 process).live 0 := by
    rw [Kernel.live, setProcess_self]
    exact not_not.2 hstate
  exact (processCreate_effects _ _).2.2 ⟨_, createEffect_first hpid (hcount ▸ by decide) hunused
    (fun j hj => absurd hj (Nat.not_lt_zero j)) bootedPmm_alloc.1 (by decide)⟩

/-- A thread of the process is written into its record. -/
theorem imageProcess_thread : ∃ process : Process,
    (processCreateThread (imageProcess bytes) (some 0) 9 128).2 =
      (imageProcess bytes).setProcess 0 process ∧
      process.state ≠ .unused ∧ process.pml4Physical = 0x200000 ∧ (process.threads 0).tid = 9 := by
  have hcount : ((imageProcess bytes).processes 0).threadCount.toNat < 16 := by
    rw [imageProcess, setProcess_self]
    decide
  have hstate : ((imageProcess bytes).processes 0).state = .created := rfl
  rw [processCreateThread]
  dsimp only
  rw [dif_pos hcount, if_neg (by rw [hstate]; decide)]
  exact ⟨_, rfl, ProcessState.noConfusion, rfl, rfl⟩

/-- Nothing is left of a process without threads and program. -/
theorem imageProcess_destroyed :
    processDestroy (imageProcess bytes) (some 0) = imageKernel bytes := by
  have hself : (imageProcess bytes).setProcess 0 ((imageProcess bytes).processes 0) =
      imageProcess bytes :=
    congrArg (fun processes => { imageProcess bytes with processes := processes })
      (Function.update_eq_self 0 (imageProcess bytes).processes)
  have h := imageProcess_destroy bytes (show ((imageProcess bytes).processes 0).state ≠ .unused from
    ProcessState.noConfusion) rfl
  rw [hself] at h
  refine h.trans ?_
  exact congrArg (fun processes => { imageKernel bytes with processes := processes })
    (Function.update_eq_self 0 (imageKernel bytes).processes)

end Sample

theorem imageKernel_rerun :
    run kernelStep (processInit (imageKernel sampleImage)) ([.create 1] ++ [.destroy (some 0)]) =
      imageKernel sampleImage := by
  rw [run_concat, imageKernel_run sampleImage_length]
  exact imageProcess_destroyed sampleImage

/-! ### The pids -/

/-- Process `i` was created with this pid and has not been destroyed since. -/
def CreatedAs (K₀ : Kernel) (calls : List KernelCall) (pid : U64) (i : Slot) : Prop :=
  ∃ before after, calls = before ++ .create pid :: after ∧
    (processCreate (run kernelStep (processInit K₀) before) pid).1 = some i ∧
    KernelCall.destroy (some i) ∉ after

/-- Process `i` is live and has this pid. -/
def Kernel.named (K : Kernel) (pid : U64) (i : Slot) : Prop :=
  pid ≠ 0 ∧ K.live i ∧ (K.processes i).pid = pid

/-- A slot that is not in use has no pid. -/
def PidsCleared (K : Kernel) : Prop :=
  ∀ i, (K.processes i).state = .unused → (K.processes i).pid = 0

theorem kernelStep_pidsCleared (K : Kernel) (call : KernelCall) (h : PidsCleared K) :
    PidsCleared (kernelStep K call).2 := by
  intro i
  rw [(kernelStep_effects K call).1, TableEffect.table_apply]
  split_ifs with hi
  · generalize tableEffect K call = e
    cases e with
    | nothing => exact h i
    | refuse j => exact fun _ => rfl
    | create j pid pml4 => exact fun hstate => ProcessState.noConfusion hstate
    | thread j n tid priority => exact h i
    | space j pml4 => exact h i
    | load j pml4 entry => exact fun hstate => ProcessState.noConfusion hstate
    | destroy j => exact fun _ => rfl
  · exact h i

/-- A call returns a new process exactly when its effect is the creation. -/
theorem created_iff {call : KernelCall} {pid : U64} :
    (call = .create pid ∧ (processCreate K pid).1 = some i) ↔
      ∃ pml4, tableEffect K call = .create i pid pml4 := by
  constructor
  · rintro ⟨rfl, hi⟩
    exact (processCreate_effects K pid).2.1 hi
  · rintro ⟨pml4, heq⟩
    have hcause := tableEffect_cause K call
    rw [heq] at hcause
    obtain ⟨rfl, -⟩ := hcause
    exact ⟨rfl, (processCreate_effects K pid).2.2 ⟨pml4, heq⟩⟩

/-- A live process is destroyed by `process_destroy` only. -/
theorem destroyed_iff (hi : K.live i) {call : KernelCall} :
    call = .destroy (some i) ↔ tableEffect K call = .destroy i := by
  constructor
  · rintro rfl
    exact ((destroyEffect_cases K i).resolve_left fun h => h.1 hi).2
  · intro heq
    have hcause := tableEffect_cause K call
    rw [heq] at hcause
    exact hcause.1

/-- What a call does to the names: a creation gives one, a destruction takes it. -/
theorem named_step (h : PidsCleared K) (call : KernelCall) {pid : U64} :
    (kernelStep K call).2.named pid i ↔
      (∃ pml4, tableEffect K call = .create i pid pml4) ∨
        (K.named pid i ∧ tableEffect K call ≠ .destroy i) := by
  have hi := congrFun (kernelStep_effects K call).1 i
  have hcause := tableEffect_cause K call
  rw [TableEffect.table_apply] at hi
  unfold Kernel.named Kernel.live
  rw [hi]
  generalize tableEffect K call = e at hcause ⊢
  by_cases hslot : e.slot = some i
  · rw [if_pos hslot]
    cases e with
    | nothing => exact absurd hslot (by simp [TableEffect.slot])
    | refuse j =>
      obtain rfl := Option.some.inj hslot
      have hunused := not_not.1 hcause.2
      simp [TableEffect.record, hunused]
    | create j pid' pml4 =>
      obtain rfl := Option.some.inj hslot
      obtain ⟨-, hunused, hne, -⟩ := hcause
      have hunused := not_not.1 hunused
      simp only [TableEffect.record, hunused]
      constructor
      · rintro ⟨-, -, rfl⟩
        exact Or.inl ⟨pml4, rfl⟩
      · rintro (⟨pml4', heq⟩ | hold)
        · obtain ⟨-, rfl, -⟩ := TableEffect.create.inj heq
          exact ⟨hne, by simp, rfl⟩
        · exact absurd rfl hold.1.2.1
    | thread j n tid priority => simp [TableEffect.record]
    | space j pml4 => simp [TableEffect.record]
    | load j pml4 entry =>
      obtain rfl := Option.some.inj hslot
      simp only [TableEffect.record]
      constructor
      · rintro ⟨hne, -, rfl⟩
        exact Or.inr ⟨⟨hne, fun hunused => hne (h j hunused), rfl⟩, by simp⟩
      · rintro (⟨pml4', heq⟩ | hold)
        · exact TableEffect.noConfusion heq
        · exact ⟨hold.1.1, by simp, hold.1.2.2⟩
    | destroy j =>
      obtain rfl := Option.some.inj hslot
      simp [TableEffect.record]
  · rw [if_neg hslot]
    have hcreate : ¬ ∃ pml4, e = .create i pid pml4 := by
      rintro ⟨pml4, rfl⟩
      exact hslot rfl
    have hdestroy : e ≠ .destroy i := by
      rintro rfl
      exact hslot rfl
    rw [or_iff_right hcreate, and_iff_left hdestroy]

theorem createdAs_concat (K₀ : Kernel) (calls : List KernelCall) (call : KernelCall) (pid : U64)
    (i : Slot) : CreatedAs K₀ (calls ++ [call]) pid i ↔
      (call = .create pid ∧ (processCreate (run kernelStep (processInit K₀) calls) pid).1 =
        some i) ∨ (CreatedAs K₀ calls pid i ∧ call ≠ .destroy (some i)) := by
  constructor
  · rintro ⟨before, after, heq, hcreate, hafter⟩
    rcases List.eq_nil_or_concat after with rfl | ⟨rest, last, rfl⟩
    · obtain ⟨rfl, hlast⟩ := List.append_inj' heq rfl
      exact Or.inl ⟨List.cons.inj hlast |>.1, hcreate⟩
    · rw [List.concat_eq_append] at heq hafter
      rw [← List.cons_append, ← List.append_assoc] at heq
      obtain ⟨rfl, hlast⟩ := List.append_inj' heq rfl
      obtain rfl := (List.cons.inj hlast).1
      rw [List.mem_append, not_or, List.mem_singleton] at hafter
      exact Or.inr ⟨⟨before, rest, rfl, hcreate, hafter.1⟩, fun hcall => hafter.2 hcall.symm⟩
  · rintro (⟨rfl, hcreate⟩ | ⟨⟨before, after, rfl, hcreate, hafter⟩, hcall⟩)
    · exact ⟨calls, [], rfl, hcreate, List.not_mem_nil⟩
    · refine ⟨before, after ++ [call], by rw [List.append_assoc, List.cons_append], hcreate, ?_⟩
      rw [List.mem_append, not_or, List.mem_singleton]
      exact ⟨hafter, fun h => hcall h.symm⟩

/-- The live processes with a pid are those that were created and not destroyed. -/
theorem createdAs_iff_named (K₀ : Kernel) (calls : List KernelCall) (pid : U64) (i : Slot) :
    CreatedAs K₀ calls pid i ↔ (run kernelStep (processInit K₀) calls).named pid i := by
  induction calls using List.reverseRecOn with
  | nil =>
    refine iff_of_false ?_ fun h => h.2.1 rfl
    rintro ⟨before, after, heq, -⟩
    exact absurd heq.symm (by simp)
  | append_singleton calls call ih =>
    have hcleared : PidsCleared (run kernelStep (processInit K₀) calls) :=
      run_invariant kernelStep_pidsCleared calls fun _ _ => rfl
    rw [createdAs_concat, run_concat, named_step hcleared, ih, created_iff]
    exact or_congr_right (and_congr_right fun hn => not_congr (destroyed_iff hn.2.1))

/-- No two live processes have the same pid. -/
def NamesOne (K : Kernel) : Prop := ∀ pid i j, K.named pid i → K.named pid j → i = j

theorem named_of_processGet {pid : U64} (h : processGet K pid = some i) : K.named pid i := by
  unfold processGet at h
  split_ifs at h with hzero
  have hi := List.find?_some h
  rw [decide_eq_true_eq] at hi
  exact ⟨hzero, hi⟩

theorem processGet_isSome {pid : U64} (h : K.named pid i) : (processGet K pid).isSome := by
  rw [processGet, if_neg h.1, List.find?_isSome]
  exact ⟨i, List.mem_finRange i, decide_eq_true h.2⟩

/-- `process_get` finds every live process exactly when their pids are different. -/
theorem processGet_named_iff :
    (∀ pid i, K.named pid i → processGet K pid = some i) ↔ NamesOne K := by
  constructor
  · intro hget pid i j hi hj
    exact Option.some.inj ((hget pid i hi).symm.trans (hget pid j hj))
  · intro hone pid i hi
    obtain ⟨j, hj⟩ := Option.isSome_iff_exists.1 (processGet_isSome hi)
    rw [hj, hone pid i j hi (named_of_processGet hj)]

/-- The call creates no process with the pid of a live one. -/
def FreshPid (K : Kernel) : KernelCall → Prop
  | .create pid => pid ≠ 0 → K.canCreate → ∀ j, K.live j → (K.processes j).pid ≠ pid
  | _ => True

/-- The pids and a call. -/
theorem namesOne_step (hcleared : PidsCleared K) (call : KernelCall) (h : NamesOne K) :
    NamesOne (kernelStep K call).2 ↔ FreshPid K call := by
  constructor
  · intro hone
    cases call with
    | create pid =>
      intro hpid hcan j hj hjpid
      obtain ⟨-, i, pml4, heq, hunused⟩ :=
        (createEffect_cases K pid).resolve_left fun hno => hno.1 ⟨hpid, hcan⟩
      have heffect : tableEffect K (.create pid) = .create i pid pml4 := heq
      have hi := (named_step hcleared (.create pid)).2 (Or.inl ⟨pml4, heffect⟩)
      have hj' := (named_step hcleared (.create pid)).2
        (Or.inr ⟨⟨hpid, hj, hjpid⟩, by rw [heffect]; simp⟩)
      obtain rfl := hone pid i j hi hj'
      exact hj hunused
    | createThread process tid priority => trivial
    | prepareElf process image imageSize imageInfo => trivial
    | destroy process => trivial
    | heapAlloc size => trivial
    | heapFree ptr => trivial
    | store address value => trivial
  · intro hfresh pid i j hi hj
    have hcause := tableEffect_cause K call
    -- a process that was there already does not have the pid of the new one
    have hclash : ∀ i j, (∃ pml4, tableEffect K call = .create i pid pml4) → ¬ K.named pid j := by
      rintro i j ⟨pml4, heq⟩ hnamed
      rw [heq] at hcause
      obtain ⟨rfl, -, hpid, hcan⟩ := hcause
      exact hfresh hpid hcan j hnamed.2.1 hnamed.2.2
    rcases (named_step hcleared call).1 hi with hnew | hold
    · rcases (named_step hcleared call).1 hj with hnew' | hold'
      · obtain ⟨pml4, heq⟩ := hnew
        obtain ⟨pml4', heq'⟩ := hnew'
        exact (TableEffect.create.inj (heq.symm.trans heq')).1
      · exact absurd hold'.1 (hclash i j hnew)
    · rcases (named_step hcleared call).1 hj with hnew' | hold'
      · exact absurd hold.1 (hclash j i hnew')
      · exact h pid i j hold.1 hold'.1

/-- **A pid names one process.**  In every run from `process_init`, `process_get` finds every
process that was created and not destroyed, in all states, if and only if no call creates a process
with the pid of a live one. -/
theorem process_get_iff (K₀ : Kernel) (calls : List KernelCall) :
    (∀ done, done <+: calls → ∀ pid i, CreatedAs K₀ done pid i →
      processGet (run kernelStep (processInit K₀) done) pid = some i) ↔
      ∀ done call, done ++ [call] <+: calls →
        FreshPid (run kernelStep (processInit K₀) done) call := by
  simp only [createdAs_iff_named, processGet_named_iff]
  exact run_prefix_iff (I := PidsCleared) (P := NamesOne) kernelStep_pidsCleared
    (fun K call hcleared => namesOne_step hcleared call) calls (fun _ _ => rfl)
    fun pid i j hi _ => absurd rfl hi.2.1

/-- Two processes with pid 1: `process_get` does not find the second. -/
theorem twoOfOnePid_lost :
    let calls : List KernelCall := [.create 1, .create 1]
    CreatedAs (imageKernel sampleImage) calls 1 1 ∧
      processGet (run kernelStep (processInit (imageKernel sampleImage)) calls) 1 = some 0 := by
  have hrun := imageKernel_run sampleImage_length
  have heffect : createEffect (imageProcess sampleImage) 1 = .create 1 1 0x201000 := by
    refine createEffect_first (by decide) (by decide) (not_not.2 rfl) (fun j hj => ?_)
      (imagePhys_alloc sampleImage) (by decide)
    obtain rfl : j = 0 := Fin.ext (Nat.lt_one_iff.1 hj)
    exact ProcessState.noConfusion
  refine ⟨⟨[.create 1], [], rfl, ?_, List.not_mem_nil⟩, ?_⟩
  · rw [hrun]
    exact (processCreate_effects _ _).2.2 ⟨_, heffect⟩
  · have htable := (kernelStep_effects (imageProcess sampleImage) (.create 1)).1
    rw [tableEffect, heffect] at htable
    change processGet (kernelStep (run kernelStep (processInit (imageKernel sampleImage))
      [.create 1]) (.create 1)).2 1 = some 0
    rw [hrun, processGet, if_neg (by decide), htable]
    exact find_first (by decide) fun j hj => absurd hj (Nat.not_lt_zero j)

end SuiraBox.Exec
