/-
# What the process table shows

Two more laws of the table in `kernel/process.c` and `kernel/process_exec.c`, over whole runs from
`process_init` on: the counter is the number of live processes, and a slot that is used again shows
nothing of the process before.  Both are broken by an omission.

* `process_prepare_elf` makes a process `CREATED` that `process_destroy` has made `UNUSED`, without
  counting it.
* Neither `process_create` nor `process_destroy` clears the entry point, the stack or the thread
  records, so a slot shows what was written into it by an earlier process.

Whether a call of `process_prepare_elf` comes so far is a matter of the machine before it: the image
is a program and there are frames for it (`canLoad_iff_fits`), as long as loading does not write
over what it reads.
-/

import SuiraBox.Exec.Lifetime

namespace SuiraBox.Exec

open Runs Mm

variable {K K' : Kernel} {i j : Slot} {image imageSize : U64}

/-! ### Which loads succeed -/

/-- `process_prepare_elf` from the address space on returns 0 when it has an entry point. -/
theorem prepareImage_eq_zero_iff (K : Kernel) (i : Slot) (image imageSize : U64)
    (info : ProcessImage) :
    (prepareImage K i image imageSize info).1 = 0 ↔ (loadedEntry K i image imageSize).isSome := by
  unfold prepareImage loadedEntry
  dsimp only
  rcases elf64LoadImage K.phys (K.processes i).pml4Physical image imageSize with ⟨_ | entry, σ⟩
  · exact iff_of_false (by simp) (by simp)
  · dsimp only
    cases mapUserStack σ (K.processes i).pml4Physical userStackBottom userStackTop with
    | error σ => exact iff_of_false (by simp) (by simp)
    | ok σ => exact iff_of_true rfl rfl

/-- It returns 0 exactly when the program can be loaded. -/
theorem processPrepareElf_eq_zero_iff (K : Kernel) (i : Slot) (image imageSize : U64)
    (info : ProcessImage) : (processPrepareElf K (some i) image imageSize (some info)).1 = 0 ↔
      image ≠ 0 ∧ imageSize ≠ 0 ∧ K.canLoad i image imageSize := by
  rw [processPrepareElf, Kernel.canLoad, ← prepareImage_eq_zero_iff _ _ _ _ info]
  dsimp only
  by_cases hargs : image = 0 ∨ imageSize = 0
  · rw [if_pos hargs]
    exact iff_of_false (by simp) fun hc => hargs.elim hc.1 hc.2.1
  · rw [if_neg hargs]
    rw [not_or] at hargs
    rw [and_iff_right hargs.1, and_iff_right hargs.2]
    cases (prepareSpace K i).1 with
    | false => exact iff_of_false (by simp) (by simp)
    | true => exact (and_iff_right rfl).symm

/-- A program fits into process `i`: it is a program, and there are frames for its pages, its stack
and the tables that are missing; where there is no address space yet, one more for the PML4. -/
def Kernel.fits (K : Kernel) (i : Slot) (image imageSize : U64) : Prop :=
  if (K.processes i).pml4Physical = 0 then
    IsProgram K.phys.mem image imageSize ∧ 0 ∉ freeSet bootstrapLimit K.phys.pmm ∧
      (framePaths (programPages K.phys.mem image)).card < (freeSet bootstrapLimit K.phys.pmm).card
  else ∃ a, LiveSpace K i a ∧ LoadFits K i a image imageSize

/-- Loading does not write over what it reads: the image is not in memory that the allocator may
hand out, and an address space that is there already is a tree of frames apart from it. -/
def LoadSafe (K : Kernel) (i : Slot) (image imageSize : U64) : Prop :=
  if (K.processes i).pml4Physical = 0 then
    PmmReached K.phys.pmm ∧
      ∀ x, InImage image imageSize x → x / 4096 ∉ freeSet bootstrapLimit K.phys.pmm
  else ∃ a, LiveSpace K i a ∧ ImageSafe K i a image imageSize

/-- Only the free pages count. -/
theorem LoadFits.congr {a a' : PageSets} (h : LoadFits K i a image imageSize)
    (hfree : a'.free = a.free) : LoadFits K i a' image imageSize := by
  obtain ⟨hprogram, hzero, hnonzero, hpage, hfresh, hdistinct, henough⟩ := h
  refine ⟨hprogram, ?_, hnonzero, hpage, hfresh, hdistinct, ?_⟩
  · rw [hfree]
    exact hzero
  · rw [hfree]
    exact henough

/-- In an address space that is there already. -/
theorem fits_iff_live (hpml4 : (K.processes i).pml4Physical ≠ 0)
    (hsafe : LoadSafe K i image imageSize) (info : ProcessImage) :
    (processPrepareElf K (some i) image imageSize (some info)).1 = 0 ↔
    K.fits i image imageSize := by
  rw [LoadSafe, if_neg hpml4] at hsafe
  obtain ⟨a, hlive, hapart⟩ := hsafe
  rw [Kernel.fits, if_neg hpml4, hlive.prepareElf_ok_iff (some info) hapart,
    show (some info).isSome = true from rfl, and_iff_right rfl]
  constructor
  · exact fun hfits => ⟨a, hlive, hfits⟩
  · rintro ⟨a', hlive', hfits⟩
    exact hfits.congr (hlive.tables.refines.freeSet_eq.symm.trans hlive'.tables.refines.freeSet_eq)

/-- In an address space that is made first. -/
theorem fits_iff_new (hpml4 : (K.processes i).pml4Physical = 0)
    (hsafe : LoadSafe K i image imageSize) (info : ProcessImage) :
    (processPrepareElf K (some i) image imageSize (some info)).1 = 0 ↔
    K.fits i image imageSize := by
  rw [LoadSafe, if_pos hpml4] at hsafe
  obtain ⟨hpmm, hkept⟩ := hsafe
  rw [Kernel.fits, if_pos hpml4]
  by_cases hargs : image = 0 ∨ imageSize = 0
  · rw [processPrepareElf, if_pos hargs]
    exact iff_of_false (by simp) fun hfits => hfits.1.args hargs
  rw [processPrepareElf, if_neg hargs, prepareSpace, if_pos hpml4]
  have hpage := addressSpaceCreate_fst_eq K.phys K.cr3
  obtain ⟨a, hr⟩ := hpmm.refines
  cases hspace : addressSpaceCreate K.phys K.cr3 with
  | mk page σ₁ =>
    rw [hspace] at hpage
    cases page with
    | none =>
      -- there is no page for the PML4
      refine iff_of_false (by simp) ?_
      rintro ⟨-, hzero, hcard⟩
      rw [hr.freeSet_eq] at hzero hcard
      have hne := hr.allocPage_ne_zero_iff.2 ⟨hzero, by omega⟩
      rw [if_neg hne] at hpage
      exact absurd hpage (by simp)
    | some pml4 =>
      obtain ⟨hzero, -, -, -, hfresh⟩ := addressSpaceCreate_ready hpmm hspace
      rw [and_iff_right hzero, ← fits_create_iff hpmm hspace hkept]
      dsimp only
      rw [if_neg (by simp)]
      generalize hnew : { K with phys := σ₁ }.setProcess i
        { K.processes i with pml4Physical := pml4 } = K₁
      have hphys : K₁.phys = σ₁ := by rw [← hnew]; rfl
      have hroot : (K₁.processes i).pml4Physical = pml4 := by rw [← hnew, setProcess_self]
      rw [prepareImage_ok_iff (by rw [hphys, hroot]; exact hfresh hkept), hphys]

/-- **Which loads succeed**, in terms of the machine before the call. -/
theorem canLoad_iff_fits (hsafe : LoadSafe K i image imageSize) :
    (image ≠ 0 ∧ imageSize ≠ 0 ∧ K.canLoad i image imageSize) ↔ K.fits i image imageSize := by
  rw [← processPrepareElf_eq_zero_iff K i image imageSize ⟨0, 0, 0⟩]
  by_cases hpml4 : (K.processes i).pml4Physical = 0
  · exact fits_iff_new hpml4 hsafe _
  · exact fits_iff_live hpml4 hsafe _

/-- The call does not load an image that loading writes over. -/
def CallSafe (K : Kernel) : KernelCall → Prop
  | .prepareElf (some i) image imageSize (some _) => LoadSafe K i image imageSize
  | _ => True

/-! ### The counter -/

/-- The number of live processes. -/
def liveCount (processes : Slot → Process) : ℕ :=
  (Finset.univ.filter fun i => (processes i).state ≠ .unused).card

/-- `process_count` is the number of live processes. -/
def CountsLive (K : Kernel) : Prop := (processCount K).toNat = liveCount K.processes

/-- One record more or less. -/
theorem liveCount_update (processes : Slot → Process) (i : Slot) (process : Process) :
    liveCount (Function.update processes i process) + (if (processes i).state = .unused
      then 0 else 1) = liveCount processes + if process.state = .unused then 0 else 1 := by
  have hcount : ∀ processes : Slot → Process, liveCount processes =
      (if (processes i).state = .unused then 0 else 1) +
        ((Finset.univ.erase i).filter fun j => (processes j).state ≠ .unused).card := by
    intro processes
    rw [liveCount, ← Finset.insert_erase (Finset.mem_univ i), Finset.filter_insert,
      Finset.insert_erase (Finset.mem_univ i)]
    by_cases h : (processes i).state = .unused
    · rw [if_pos h, if_neg (not_not.2 h), Nat.zero_add]
    · rw [if_neg h, if_pos h, Finset.card_insert_of_notMem (by simp), Nat.add_comm]
  have hrest : ((Finset.univ.erase i).filter fun j =>
      (Function.update processes i process j).state ≠ .unused) =
      (Finset.univ.erase i).filter fun j => (processes j).state ≠ .unused :=
    Finset.filter_congr fun j hj => by rw [Function.update_of_ne (Finset.ne_of_mem_erase hj)]
  rw [hcount, hcount processes, hrest, Function.update_self]
  omega

/-- The call loads no program into a process that is not live. -/
def LoadsLive (K : Kernel) : KernelCall → Prop
  | .prepareElf (some i) image imageSize (some _) =>
    image ≠ 0 → imageSize ≠ 0 → K.canLoad i image imageSize → K.live i
  | _ => True

/-- The same, said of the machine before the call: no program that fits is loaded into a process
that is not live. -/
def FitsLive (K : Kernel) : KernelCall → Prop
  | .prepareElf (some i) image imageSize (some _) => K.fits i image imageSize → K.live i
  | _ => True

theorem loadsLive_iff_fits {call : KernelCall} (hsafe : CallSafe K call) :
    LoadsLive K call ↔ FitsLive K call := by
  unfold CallSafe at hsafe
  unfold LoadsLive FitsLive
  split
  · rw [← canLoad_iff_fits hsafe]
    exact ⟨fun h hc => h hc.1 hc.2.1 hc.2.2, fun h himage hsize hcan => h ⟨himage, hsize, hcan⟩⟩
  · exact Iff.rfl

theorem loadsLive_iff {call : KernelCall} :
    LoadsLive K call ↔ ∀ i pml4 entry, tableEffect K call = .load i pml4 entry → K.live i := by
  constructor
  · intro h i pml4 entry heq
    have hcause := tableEffect_cause K call
    rw [heq] at hcause
    obtain ⟨image, imageSize, info, rfl, himage, hsize, hcan⟩ := hcause
    exact h himage hsize hcan
  · intro h
    unfold LoadsLive
    split
    · rename_i i image imageSize info
      intro himage hsize hcan
      obtain ⟨-, pml4, entry, heq⟩ :=
        (prepareEffect_cases K i image imageSize info).resolve_left fun hno =>
          hno.1 ⟨himage, hsize, hcan⟩
      exact h i pml4 entry heq
    · trivial

theorem liveCount_table {e : TableEffect} (hslot : e.slot = some i) (processes : Slot → Process) :
    liveCount (e.table processes) + (if (processes i).state = .unused then 0 else 1) =
      liveCount processes + if (e.record (processes i)).state = .unused then 0 else 1 := by
  rw [TableEffect.table, hslot]
  exact liveCount_update ..

/-- The counter and a call. -/
theorem countsLive_step (K : Kernel) (call : KernelCall) (h : CountsLive K) :
    CountsLive (kernelStep K call).2 ↔ LoadsLive K call := by
  obtain ⟨htable, hcount⟩ := kernelStep_effects K call
  have hcause := tableEffect_cause K call
  unfold CountsLive processCount at h ⊢
  rw [htable, hcount, loadsLive_iff]
  generalize tableEffect K call = e at hcause ⊢
  cases e with
  | nothing => exact iff_of_true h (by simp)
  | refuse i =>
    have hlive := liveCount_table (e := .refuse i) rfl K.processes
    rw [if_pos (not_not.1 hcause.2)] at hlive
    exact iff_of_true (h.trans hlive.symm) (by simp)
  | create i pid pml4 =>
    obtain ⟨-, hunused, -, hlt, -⟩ := hcause
    have hlive := liveCount_table (e := .create i pid pml4) rfl K.processes
    rw [if_pos (not_not.1 hunused)] at hlive
    refine iff_of_true (Eq.trans ?_ hlive.symm) (by simp)
    change (K.processCount + 1).toNat = liveCount K.processes + 1
    rw [← h]
    bv_omega
  | thread i n tid priority =>
    have hlive := liveCount_table (e := .thread i n tid priority) rfl K.processes
    exact iff_of_true (h.trans (Nat.add_right_cancel hlive).symm) (by simp)
  | space i pml4 =>
    have hlive := liveCount_table (e := .space i pml4) rfl K.processes
    exact iff_of_true (h.trans (Nat.add_right_cancel hlive).symm) (by simp)
  | load i pml4 entry =>
    -- the process is live now, and the counter is as before
    have hlive := liveCount_table (e := .load i pml4 entry) rfl K.processes
    change _ = _ + 1 at hlive
    change K.processCount.toNat = _ ↔ _
    rw [h]
    split_ifs at hlive with hunused
    · exact iff_of_false (by omega) fun hall => hall i pml4 entry rfl hunused
    · refine iff_of_true (by omega) fun j pml4' entry' heq => ?_
      obtain ⟨rfl, -⟩ := TableEffect.load.inj heq
      exact hunused
  | destroy i =>
    have hlive := liveCount_table (e := .destroy i) rfl K.processes
    change _ = _ + 0 at hlive
    rw [if_neg hcause.2] at hlive
    refine iff_of_true ?_ (by simp)
    change (if 0 < K.processCount then K.processCount - 1 else K.processCount).toNat = _
    rw [if_pos (by bv_omega)]
    bv_omega

theorem countsLive_init (K₀ : Kernel) : CountsLive (processInit K₀) :=
  (Finset.card_eq_zero.2 (Finset.filter_eq_empty_iff.2 fun _ _ hlive => hlive rfl)).symm

/-- **The counter over whole runs.**  In every run from `process_init` whose loads do not write over
the image, `process_count` is the number of live processes in all states if and only if no program
that fits is loaded into a process that is not live.  In general it is so if and only if no load
into a process that is not live comes to its end. -/
theorem process_count_iff (K₀ : Kernel) (calls : List KernelCall) :
    let after := run kernelStep (processInit K₀)
    ((∀ done call, done ++ [call] <+: calls → CallSafe (after done) call) →
      ((∀ done, done <+: calls → CountsLive (after done)) ↔
        ∀ done call, done ++ [call] <+: calls → FitsLive (after done) call)) ∧
    ((∀ done, done <+: calls → CountsLive (after done)) ↔
      ∀ done call, done ++ [call] <+: calls → LoadsLive (after done) call) := by
  intro after
  have hgeneral : (∀ done, done <+: calls → CountsLive (after done)) ↔
      ∀ done call, done ++ [call] <+: calls → LoadsLive (after done) call :=
    run_prefix_iff (I := fun _ => True) (fun _ _ _ => trivial)
      (fun K call _ => countsLive_step K call)
      calls trivial (countsLive_init K₀)
  refine ⟨fun hsafe => hgeneral.trans ?_, hgeneral⟩
  exact forall₃_congr fun done call hpre => loadsLive_iff_fits (hsafe done call hpre)

/-- A program that is loaded into a new process is counted with it. -/
theorem loadedOnce_counts :
    let K := run kernelStep (processInit (imageKernel sampleImage))
      ([.create 1] ++ [.prepareElf (some 0) 0x100000 124 (some ⟨0, 0, 0⟩)])
    CountsLive K := by
  have hstate := imageKernel_run sampleImage_length
  have hlive : (imageProcess sampleImage).live 0 := ProcessState.noConfusion
  have hsafe : LoadSafe (imageProcess sampleImage) 0 0x100000 124 := by
    rw [LoadSafe, if_neg (by decide)]
    exact ⟨_, imageProcess_live sampleImage_length,
      (imagePhys_sees sampleImage_length (by decide : (124 : U64).toNat ≤ 4096)).apart⟩
  have hcalls : ∀ done call, done ++ [call] <+:
      ([.create 1] ++ [.prepareElf (some 0) 0x100000 124 (some ⟨0, 0, 0⟩)] : List KernelCall) →
      call = .create 1 ∨ done = [.create 1] ∧
        call = .prepareElf (some 0) 0x100000 124 (some ⟨0, 0, 0⟩) := by
    intro done call hpre
    rcases List.prefix_concat_iff.1 hpre with heq | hpre
    · obtain ⟨rfl, hcall⟩ := List.append_inj' heq rfl
      exact Or.inr ⟨rfl, (List.cons.inj hcall).1⟩
    · exact Or.inl (List.mem_singleton.1 (hpre.subset (by simp)))
  refine ((process_count_iff (imageKernel sampleImage) _).1 fun done call hpre => ?_).2
    (fun done call hpre => ?_) _ List.prefix_rfl
  · rcases hcalls done call hpre with rfl | ⟨rfl, rfl⟩
    · trivial
    · rw [hstate]
      exact hsafe
  · rcases hcalls done call hpre with rfl | ⟨rfl, rfl⟩
    · trivial
    · rw [hstate]
      exact fun _ => hlive

theorem sampleImage_loadedEntry (h : K.phys = imagePhys sampleImage)
    (hpml4 : (K.processes i).pml4Physical = 0x200000) : (loadedEntry K i 0x100000 124).isSome := by
  have hok := sampleImage_prepared ⟨0, 0, 0⟩
  rw [processPrepareElf_live_rc (by decide) (by decide) (by decide)] at hok
  obtain ⟨e, σ₁, σ₂, hload, hstack, -⟩ := prepareImage_ok hok
  rw [show ((imageProcess sampleImage).processes 0).pml4Physical = 0x200000 from rfl]
    at hload hstack
  rw [show (imageProcess sampleImage).phys = imagePhys sampleImage from rfl] at hload
  rw [loadedEntry, h, hpml4, hload]
  dsimp only
  rw [hstack]
  rfl

/-- Without a process the address space is made anew, and the image can be loaded. -/
theorem sampleImage_canLoad (hphys : K.phys = (imageKernel sampleImage).phys)
    (hcr3 : K.cr3 = (imageKernel sampleImage).cr3) (hi : (K.processes i).pml4Physical = 0) :
    K.canLoad i 0x100000 124 := by
  have hspace : prepareSpace K i = (true, { K with phys := imagePhys sampleImage }.setProcess i
      { K.processes i with pml4Physical := 0x200000 }) := by
    rw [prepareSpace, if_pos hi, hphys, hcr3, imageKernel_space sampleImage_length]
  rw [Kernel.canLoad, hspace]
  exact ⟨rfl, sampleImage_loadedEntry rfl (by rw [setProcess_self])⟩

/-- A program that is loaded into a process that is not live is not counted. -/
theorem uncounted_of_load {image imageSize : U64} {info : ProcessImage} (hcounts : CountsLive K)
    (hi : ¬ K.live i) (himage : image ≠ 0) (hsize : imageSize ≠ 0)
    (hcan : K.canLoad i image imageSize) :
    ¬ CountsLive (kernelStep K (.prepareElf (some i) image imageSize (some info))).2 := by
  rw [countsLive_step K _ hcounts]
  exact fun hall => hi (hall himage hsize hcan)

/-- A process that is created, destroyed and loaded is live, but is not counted. -/
theorem loadedAgain_uncounted :
    ¬ CountsLive (run kernelStep (processInit (imageKernel sampleImage))
      [.create 1, .destroy (some 0), .prepareElf (some 0) 0x100000 124 (some ⟨0, 0, 0⟩)]) := by
  have hinit : processInit (imageKernel sampleImage) = imageKernel sampleImage := rfl
  have hcounts := countsLive_init (imageKernel sampleImage)
  have hcalls : ∀ call : KernelCall, [.create 1, .destroy (some 0), call] =
      ([.create 1] ++ [.destroy (some 0)]) ++ [call] := fun _ => rfl
  rw [hinit] at hcounts
  rw [hcalls, run_concat, imageKernel_rerun]
  exact uncounted_of_load hcounts (not_not.2 rfl) (by decide) (by decide)
    (sampleImage_canLoad rfl rfl rfl)

/-! ### What an earlier process leaves in a slot -/

/-- The record shows no thread, no entry point and no stack. -/
def Blank (process : Process) : Prop :=
  process.threads = Process.zero.threads ∧ process.entryPoint = 0 ∧ process.userStackTop = 0

/-- The record shows a thread or a stack. -/
def Marked (process : Process) : Prop :=
  (∃ n, (process.threads n).tid ≠ 0) ∨ process.userStackTop ≠ 0

theorem Marked.not_blank {process : Process} (h : Marked process) : ¬ Blank process := by
  rintro ⟨hthreads, -, hstack⟩
  rcases h with ⟨n, hn⟩ | hmarked
  · rw [hthreads] at hn
    exact hn rfl
  · exact hmarked hstack

/-- The call writes a thread record of process `i`, or its entry point and stack. -/
def Writes (K : Kernel) (i : Slot) : KernelCall → Prop
  | .createThread (some j) tid _ => j = i ∧ tid ≠ 0 ∧ K.canThread i
  | .prepareElf (some j) image imageSize (some _) =>
    j = i ∧ image ≠ 0 ∧ imageSize ≠ 0 ∧ K.canLoad i image imageSize
  | _ => False

/-- The same, said of the machine before the call. -/
def MayWrite (K : Kernel) (i : Slot) : KernelCall → Prop
  | .createThread (some j) tid _ => j = i ∧ tid ≠ 0 ∧ K.canThread i
  | .prepareElf (some j) image imageSize (some _) => j = i ∧ K.fits i image imageSize
  | _ => False

theorem writes_iff_mayWrite {call : KernelCall} (hsafe : CallSafe K call) :
    Writes K i call ↔ MayWrite K i call := by
  unfold CallSafe at hsafe
  cases call with
  | prepareElf process image imageSize imageInfo =>
    cases process with
    | none => exact Iff.rfl
    | some j =>
      cases imageInfo with
      | none => exact Iff.rfl
      | some info =>
        refine and_congr_right fun hj => ?_
        rw [← hj]
        exact canLoad_iff_fits hsafe
  | createThread process tid priority => cases process <;> exact Iff.rfl
  | _ => exact Iff.rfl

theorem writes_iff {call : KernelCall} : Writes K i call ↔
    (∃ n tid priority, tableEffect K call = .thread i n tid priority) ∨
      ∃ pml4 entry, tableEffect K call = .load i pml4 entry := by
  constructor
  · intro h
    unfold Writes at h
    split at h
    · rename_i j tid priority
      obtain ⟨rfl, hcan⟩ := h
      obtain ⟨-, n, heq⟩ := (threadEffect_cases K j tid priority).resolve_left fun hno => hno.1 hcan
      exact Or.inl ⟨n, tid, priority, heq⟩
    · rename_i j image imageSize info
      obtain ⟨rfl, hcan⟩ := h
      obtain ⟨-, pml4, entry, heq⟩ :=
        (prepareEffect_cases K j image imageSize info).resolve_left fun hno => hno.1 hcan
      exact Or.inr ⟨pml4, entry, heq⟩
    · exact h.elim
  · have hcause := tableEffect_cause K call
    rintro (⟨n, tid, priority, heq⟩ | ⟨pml4, entry, heq⟩)
    · rw [heq] at hcause
      obtain ⟨rfl, hcan⟩ := hcause
      exact ⟨rfl, hcan⟩
    · rw [heq] at hcause
      obtain ⟨image, imageSize, info, rfl, hcan⟩ := hcause
      exact ⟨rfl, hcan⟩

/-- A record with the same threads, entry point and stack. -/
def SameMarks (process process' : Process) : Prop :=
  process'.threads = process.threads ∧ process'.entryPoint = process.entryPoint ∧
    process'.userStackTop = process.userStackTop

/-- A call writes these fields of a record, or leaves them. -/
theorem sameMarks_step (K : Kernel) (call : KernelCall) (i : Slot) :
    (Writes K i call ∧ Marked ((kernelStep K call).2.processes i)) ∨
      (¬ Writes K i call ∧ SameMarks (K.processes i) ((kernelStep K call).2.processes i)) := by
  have hi := congrFun (kernelStep_effects K call).1 i
  have hcause := tableEffect_cause K call
  rw [TableEffect.table_apply] at hi
  rw [hi, writes_iff]
  generalize tableEffect K call = e at hcause ⊢
  by_cases hslot : e.slot = some i
  · rw [if_pos hslot]
    cases e with
    | nothing => exact absurd hslot (by simp [TableEffect.slot])
    | refuse j => exact Or.inr ⟨by simp, rfl, rfl, rfl⟩
    | create j pid pml4 => exact Or.inr ⟨by simp, rfl, rfl, rfl⟩
    | thread j n tid priority =>
      obtain rfl := Option.some.inj hslot
      refine Or.inl ⟨Or.inl ⟨n, tid, priority, rfl⟩, Or.inl ⟨n, ?_⟩⟩
      change (Function.update (K.processes j).threads n ⟨tid, 0, priority, .created⟩ n).tid ≠ 0
      rw [Function.update_self]
      exact hcause.2.1
    | space j pml4 => exact Or.inr ⟨by simp, rfl, rfl, rfl⟩
    | load j pml4 entry =>
      obtain rfl := Option.some.inj hslot
      exact Or.inl ⟨Or.inr ⟨pml4, entry, rfl⟩, Or.inr (show userStackTop ≠ 0 by decide)⟩
    | destroy j => exact Or.inr ⟨by simp, rfl, rfl, rfl⟩
  · rw [if_neg hslot]
    refine Or.inr ⟨?_, rfl, rfl, rfl⟩
    rintro (⟨n, tid, priority, rfl⟩ | ⟨pml4, entry, rfl⟩)
    · exact hslot rfl
    · exact hslot rfl

/-- Some call of the run has written the slot. -/
def Written (K₀ : Kernel) (calls : List KernelCall) (i : Slot) : Prop :=
  ∃ done call, done ++ [call] <+: calls ∧ Writes (run kernelStep (processInit K₀) done) i call

theorem written_concat (K₀ : Kernel) (calls : List KernelCall) (call : KernelCall) (i : Slot) :
    Written K₀ (calls ++ [call]) i ↔
      Written K₀ calls i ∨ Writes (run kernelStep (processInit K₀) calls) i call := by
  constructor
  · rintro ⟨done, last, hpre, hwrites⟩
    rcases List.prefix_concat_iff.1 hpre with heq | hpre
    · obtain ⟨rfl, hlast⟩ := List.append_inj' heq rfl
      obtain rfl := (List.cons.inj hlast).1
      exact Or.inr hwrites
    · exact Or.inl ⟨done, last, hpre, hwrites⟩
  · rintro (⟨done, last, hpre, hwrites⟩ | hwrites)
    · exact ⟨done, last, hpre.trans (List.prefix_append calls [call]), hwrites⟩
    · exact ⟨calls, call, List.prefix_rfl, hwrites⟩

/-- A slot that was written is marked, and one that was not is blank. -/
theorem written_marked (K₀ : Kernel) (calls : List KernelCall) (i : Slot) :
    (Written K₀ calls i ∧ Marked ((run kernelStep (processInit K₀) calls).processes i)) ∨
      (¬ Written K₀ calls i ∧ Blank ((run kernelStep (processInit K₀) calls).processes i)) := by
  induction calls using List.reverseRecOn with
  | nil =>
    refine Or.inr ⟨?_, rfl, rfl, rfl⟩
    rintro ⟨done, call, hpre, -⟩
    exact absurd (List.prefix_nil.1 hpre) (by simp)
  | append_singleton calls call ih =>
    rw [written_concat, run_concat]
    rcases sameMarks_step (run kernelStep (processInit K₀) calls) call i with
      ⟨hwrites, hmarked⟩ | ⟨hno, hthreads, hentry, hstack⟩
    · exact Or.inl ⟨Or.inr hwrites, hmarked⟩
    · unfold Marked Blank at ih ⊢
      rw [hthreads, hentry, hstack, or_iff_left hno]
      exact ih

/-- Two records that differ in the address space at most. -/
def SameButSpace (process process' : Process) : Prop :=
  { process with pml4Physical := 0 } = { process' with pml4Physical := 0 }

theorem SameButSpace.threads {process process' : Process} (h : SameButSpace process process') :
    process.threads = process'.threads := by
  unfold SameButSpace at h
  exact (Process.mk.inj h).2.2.2.1

/-- What `process_create` leaves in the slot that it returns. -/
theorem processCreate_record {pid : U64} (h : (processCreate K pid).1 = some i) :
    SameButSpace ((processCreate K pid).2.processes i)
      { K.processes i with pid := pid, state := .created, threadCount := 0 } := by
  obtain ⟨pml4, heq⟩ := (processCreate_effects K pid).2.1 h
  rw [(processCreate_effects (i := i) K pid).1.1, heq, TableEffect.table_apply]
  change SameButSpace (if some i = some i then _ else _) _
  rw [if_pos rfl]
  rfl

/-- **A slot shows what was written into it before.**  After every history from `process_init` whose
loads do not write over the image, the record that `process_create` returns is, but for the address
space, the one that it returns on a fresh table if and only if no call of the history found that it
could create a thread in that slot, or that its program fitted there.  In general it is so if and
only if no call has created a thread or loaded a program there. -/
theorem recycled_record_iff (K₀ K₁ : Kernel) (calls : List KernelCall) (pid : U64) {i j : Slot}
    (hi : (processCreate (run kernelStep (processInit K₀) calls) pid).1 = some i)
    (hj : (processCreate (processInit K₁) pid).1 = some j) :
    let after := run kernelStep (processInit K₀)
    let same := SameButSpace ((processCreate (after calls) pid).2.processes i)
      ((processCreate (processInit K₁) pid).2.processes j)
    ((∀ done call, done ++ [call] <+: calls → CallSafe (after done) call) →
      (same ↔ ∀ done call, done ++ [call] <+: calls → ¬ MayWrite (after done) i call)) ∧
    (same ↔ ∀ done call, done ++ [call] <+: calls → ¬ Writes (after done) i call) := by
  intro after same
  have hrecord := processCreate_record hi
  have hfresh := processCreate_record hj
  have hgeneral : same ↔ ∀ done call, done ++ [call] <+: calls → ¬ Writes (after done) i call := by
    have hwritten := written_marked K₀ calls i
    unfold SameButSpace at hrecord hfresh
    unfold same SameButSpace
    rw [hrecord, hfresh]
    rcases hwritten with ⟨⟨done, call, hpre, hwrites⟩, hmarked⟩ | ⟨hno, hthreads, hentry, hstack⟩
    · refine iff_of_false (fun heq => hmarked.not_blank ?_) fun hall => hall done call hpre hwrites
      obtain ⟨-, -, -, hthreads, -, hentry, hstack⟩ := Process.mk.inj heq
      exact ⟨hthreads, hentry, hstack⟩
    · refine iff_of_true ?_ fun done call hpre hwrites => hno ⟨done, call, hpre, hwrites⟩
      dsimp only
      rw [hthreads, hentry, hstack]
      rfl
  refine ⟨fun hsafe => hgeneral.trans ?_, hgeneral⟩
  exact forall₃_congr fun done call hpre => not_congr (writes_iff_mayWrite (hsafe done call hpre))

theorem imageKernel_fresh (bytes : List U8) :
    (processCreate (processInit (imageKernel bytes)) 2).1 = some 0 := by
  have hself : processInit (imageKernel bytes) = (imageKernel bytes).setProcess 0 .zero :=
    congrArg (fun processes => { imageKernel bytes with processes := processes })
      (Function.update_eq_self 0 (imageKernel bytes).processes).symm
  rw [hself]
  exact imageKernel_creates bytes rfl (by decide)

/-- A slot whose process was destroyed before anything was written to it is as good as new. -/
theorem emptySlot_fresh :
    let K :=
  run kernelStep (processInit (imageKernel sampleImage)) ([.create 1] ++ [.destroy (some 0)])
    SameButSpace ((processCreate K 2).2.processes 0)
      ((processCreate (processInit (imageKernel sampleImage)) 2).2.processes 0) := by
  have hcreate : (processCreate (run kernelStep (processInit (imageKernel sampleImage))
      ([.create 1] ++ [.destroy (some 0)])) 2).1 = some 0 := by
    rw [imageKernel_rerun]
    exact imageKernel_fresh sampleImage
  refine (recycled_record_iff (imageKernel sampleImage) (imageKernel sampleImage) _ 2 hcreate
    (imageKernel_fresh sampleImage)).2.2 fun done call hpre hwrites => ?_
  have hmem : call ∈ ([.create 1] ++ [.destroy (some 0)] : List KernelCall) := hpre.subset (by simp)
  rcases List.mem_cons.1 hmem with rfl | hmem
  · exact hwrites
  · obtain rfl := List.mem_singleton.1 hmem
    exact hwrites

/-- The thread of a process that was destroyed is seen in the next one. -/
theorem oldThread_shows :
    let K := run kernelStep (processInit (imageKernel sampleImage))
      [.create 1, .createThread (some 0) 9 128, .destroy (some 0)]
    let fresh := processInit (imageKernel sampleImage)
    (processCreate K 2).1 = some 0 ∧ (processCreate fresh 2).1 = some 0 ∧
      ¬ SameButSpace ((processCreate K 2).2.processes 0)
      ((processCreate fresh 2).2.processes 0) := by
  have hcalls : ∀ call thread : KernelCall,
      [.create 1, thread, call] = ([.create 1] ++ [thread]) ++ [call] :=
    fun _ _ => rfl
  obtain ⟨old, hrun, hstate, htid⟩ : ∃ old :
      Process, run kernelStep (processInit (imageKernel sampleImage))
      [.create 1, .createThread (some 0) 9 128, .destroy (some 0)] =
        (imageKernel sampleImage).setProcess 0 old ∧ old.state = .unused ∧
        (old.threads 0).tid = 9 := by
    obtain ⟨process, hthread, hstate, hpml4, htid⟩ := imageProcess_thread sampleImage
    rw [hcalls, run_concat, run_concat, imageKernel_run sampleImage_length]
    exact ⟨_, (congrArg (processDestroy · (some 0)) hthread).trans
      (imageProcess_destroy sampleImage hstate hpml4), rfl, htid⟩
  have hcreate := imageKernel_creates sampleImage hstate (show (2 : U64) ≠ 0 by decide)
  have hfresh := imageKernel_fresh sampleImage
  dsimp only
  rw [hrun]
  refine ⟨hcreate, hfresh, fun hsame => ?_⟩
  have hthreads := (processCreate_record hcreate).threads.symm.trans
    (hsame.threads.trans (processCreate_record hfresh).threads)
  rw [setProcess_self] at hthreads
  exact absurd (htid.symm.trans (congrArg (fun threads => (threads 0).tid) hthreads)) (by decide)

end SuiraBox.Exec
