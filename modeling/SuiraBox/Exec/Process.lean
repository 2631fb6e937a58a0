/-
# Processes, their images and the kernel heap

`kernel/process.c` keeps a table of 32 process records, `kernel/process_exec.c`
loads a program into one of them and `kernel/mm/heap.c` hands out at most one
page.  A pointer to a process record is a slot of the table or null; a pointer
that was valid once stays one, also after `process_destroy`.

`Kernel` is the state all of these share, with the physical memory that the
images lie in.  `KernelCall` lists the calls, and beside them single stores by
the rest of the kernel into memory of its own, where boot modules and buffers
lie: that is how any bytes come to stand at any image address.  The diagnostic
output of the heap is left out.
-/

import SuiraBox.Exec.Elf

namespace SuiraBox.Exec

open ByteMem Forest Mm

/-- `sb_process_state_t`. -/
inductive ProcessState
  | unused
  | created
  | running
  | sleeping
  | exited
deriving DecidableEq, Repr

/-- `sb_thread_t`. -/
structure Thread where
  tid : U64
  runtimeTicks : U64
  priority : U32
  state : ProcessState

/-- `sb_process_t`. -/
structure Process where
  pid : U64
  state : ProcessState
  threadCount : U32
  threads : Fin 16 → Thread
  /-- `address_space.pml4_physical` -/
  pml4Physical : U64
  entryPoint : U64
  userStackTop : U64

/-- The record `{0}`. -/
def Process.zero : Process where
  pid := 0
  state := .unused
  threadCount := 0
  threads _ := ⟨0, 0, 0, .unused⟩
  pml4Physical := 0
  entryPoint := 0
  userStackTop := 0

/-- `sb_process_image_t`. -/
structure ProcessImage where
  entryPoint : U64
  userStackTop : U64
  userStackBottom : U64

/-- A slot of `processes`, of which there are `SB_MAX_PROCESSES`. -/
abbrev Slot := Fin 32

/-- The static variables of the heap. -/
structure Heap where
  activeBase : U64
  activePages : U64
  activeRequested : U64
  usedBytes : U64
  initialized : Bool

/-- The state that the calls work on. -/
structure Kernel where
  phys : Phys
  cr3 : U64
  processes : Slot → Process
  processCount : U32
  heap : Heap

/-- The PML4 that the kernel runs on. -/
def Kernel.kernelTable (K : Kernel) : ℕ := (K.cr3 &&& entryAddrMask).toNat

/-- One record of the table changed. -/
def Kernel.setProcess (K : Kernel) (i : Slot) (process : Process) : Kernel :=
  { K with processes := Function.update K.processes i process }

@[simp] theorem setProcess_self (K : Kernel) (i : Slot) (process : Process) :
    (K.setProcess i process).processes i = process := Function.update_self ..

theorem setProcess_of_ne (K : Kernel) {i j : Slot} (h : j ≠ i) (process : Process) :
    (K.setProcess i process).processes j = K.processes j := Function.update_of_ne h ..

/-! ### `process.c` -/

/-- `process_init`. -/
def processInit (K : Kernel) : Kernel := { K with processes := fun _ => .zero, processCount := 0 }

/-- `process_create` in slot `i`. -/
def createIn (K : Kernel) (i : Slot) (pid : U64) : Option Slot × Kernel :=
  let process := { K.processes i with pid := pid, state := .created, threadCount := 0 }
  match addressSpaceCreate K.phys K.cr3 with
  | (none, σ) =>
    (none, { K with phys := σ }.setProcess i { process with state := .unused, pid := 0 })
  | (some pml4, σ) =>
    (some i, { K with phys := σ, processCount := K.processCount + 1 }.setProcess i
      { process with pml4Physical := pml4 })

/-- `process_create`: the first unused slot, or `none` for the null pointer. -/
def processCreate (K : Kernel) (pid : U64) : Option Slot × Kernel :=
  if pid = 0 ∨ 32 ≤ K.processCount then (none, K)
  else match (List.finRange 32).find? fun i => (K.processes i).state = .unused with
    | none => (none, K)
    | some i => createIn K i pid

/-- `process_create_thread`: the number of the thread, or `none` for the null
pointer. -/
def processCreateThread (K : Kernel) (process : Option Slot) (tid : U64) (priority : U32) :
    Option (Fin 16) × Kernel :=
  match process with
  | none => (none, K)
  | some i =>
    let process := K.processes i
    if h : process.threadCount.toNat < 16 then
      if tid = 0 ∨ process.state = .unused ∨ process.state = .exited then (none, K)
      else
        let n : Fin 16 := ⟨process.threadCount.toNat, h⟩
        (some n, K.setProcess i
          { process with
            threadCount := process.threadCount + 1
            threads := Function.update process.threads n ⟨tid, 0, priority, .created⟩ })
    else (none, K)

/-- `process_get`: the first live process with that pid, or `none` for the null
pointer. -/
def processGet (K : Kernel) (pid : U64) : Option Slot :=
  if pid = 0 then none
  else (List.finRange 32).find? fun i =>
    (K.processes i).state ≠ .unused ∧ (K.processes i).pid = pid

/-- `process_count`. -/
def processCount (K : Kernel) : U32 := K.processCount

/-- `process_destroy`. -/
def processDestroy (K : Kernel) (process : Option Slot) : Kernel :=
  match process with
  | none => K
  | some i =>
    let process := K.processes i
    if process.state = .unused then K
    else
      { K with
        phys := addressSpaceDestroy K.phys process.pml4Physical
        processCount :=
          if 0 < K.processCount then K.processCount - 1 else K.processCount }.setProcess i
        { process with pml4Physical := 0, state := .unused, pid := 0, threadCount := 0 }

/-! ### `process_exec.c` -/

/-- The loop of `map_user_stack`: `n` pages from `va` on. -/
def stackPages (pml4 : U64) : ℕ → U64 → Phys → Except Phys Phys
  | 0, _, σ => .ok σ
  | n + 1, va, σ =>
    match mapFreshPage (fun m _ => some m) pml4 va (vmmWritable ||| vmmNx) σ with
    | .error σ => .error σ
    | .ok σ => stackPages pml4 n (va + 4096) σ

/-- `map_user_stack`. -/
def mapUserStack (σ : Phys) (pml4 bottom top : U64) : Except Phys Phys :=
  if top ≤ bottom ∨ (top - bottom) % 4096 ≠ 0 then .error σ
  else stackPages pml4 ((top - bottom) / 4096).toNat bottom σ

/-- `stack_bottom`, `SB_USER_STACK_PAGES` pages below the top. -/
def userStackBottom : U64 := userStackTop - 4 * 4096

/-- `process_prepare_elf` up to the address space: whether there is one now. -/
def prepareSpace (K : Kernel) (i : Slot) : Bool × Kernel :=
  if (K.processes i).pml4Physical = 0 then
    match addressSpaceCreate K.phys K.cr3 with
    | (none, σ) => (false, { K with phys := σ })
    | (some pml4, σ) =>
      (true, { K with phys := σ }.setProcess i { K.processes i with pml4Physical := pml4 })
  else (true, K)

/-- `process_prepare_elf` from the address space on. -/
def prepareImage (K : Kernel) (i : Slot) (image imageSize : U64) (imageInfo : ProcessImage) :
    ℤ × ProcessImage × Kernel :=
  let process := K.processes i
  match elf64LoadImage K.phys process.pml4Physical image imageSize with
  | (none, σ) => (-1, imageInfo, { K with phys := σ })
  | (some entry, σ) =>
    match mapUserStack σ process.pml4Physical userStackBottom userStackTop with
    | .error σ => (-1, imageInfo, { K with phys := σ })
    | .ok σ =>
      (0, ⟨entry, userStackTop, userStackBottom⟩, { K with phys := σ }.setProcess i
        { process with state := .created, entryPoint := entry, userStackTop := userStackTop })

/-- `process_prepare_elf`, with what it leaves at `image_info` (`none` for the
null pointer). -/
def processPrepareElf (K : Kernel) (process : Option Slot) (image imageSize : U64)
    (imageInfo : Option ProcessImage) : ℤ × Option ProcessImage × Kernel :=
  match process, imageInfo with
  | some i, some info =>
    if image = 0 ∨ imageSize = 0 then (-1, some info, K)
    else
      let (created, K) := prepareSpace K i
      if !created then (-1, some info, K)
      else
        let (rc, info, K) := prepareImage K i image imageSize info
        (rc, some info, K)
  | _, info => (-1, info, K)

/-! ### `heap.c` -/

/-- `process_prepare_elf` on a process that has an address space. -/
theorem processPrepareElf_live {K : Kernel} {i : Slot} {image imageSize : U64} {info : ProcessImage}
    (himage : image ≠ 0) (hsize : imageSize ≠ 0) (hlive : (K.processes i).pml4Physical ≠ 0) :
    processPrepareElf K (some i) image imageSize (some info) =
      ((prepareImage K i image imageSize info).1, some (prepareImage K i image imageSize info).2.1,
        (prepareImage K i image imageSize info).2.2) := by
  rw [processPrepareElf]
  dsimp only
  rw [if_neg (not_or.2 ⟨himage, hsize⟩), prepareSpace, if_neg hlive]
  rfl

theorem processPrepareElf_live_rc {K : Kernel} {i : Slot} {image imageSize : U64}
    {info : ProcessImage} (himage : image ≠ 0) (hsize : imageSize ≠ 0)
    (hlive : (K.processes i).pml4Physical ≠ 0) :
    (processPrepareElf K (some i) image imageSize (some info)).1 =
      (prepareImage K i image imageSize info).1 := by
  rw [processPrepareElf_live himage hsize hlive]

/-- `round_up_pages`. -/
def roundUpPages (size : U64) : U64 := (size + 4096 - 1) / 4096

/-- `kheap_init`. -/
def kheapInit : Heap := ⟨0, 0, 0, 0, true⟩

/-- `kheap_alloc`: the address, `0` for the null pointer. -/
def kheapAlloc (K : Kernel) (size : U64) : U64 × Kernel :=
  if !K.heap.initialized ∨ size = 0 ∨ K.heap.activeBase ≠ 0 then (0, K)
  else if roundUpPages size ≠ 1 then (0, K)
  else
    let (first, pmm) := pmmAllocPage bootstrapLimit K.phys.pmm
    let K := { K with phys := { K.phys with pmm := pmm } }
    if first = 0 then (0, K) else (first, { K with heap := ⟨first, 1, size, size, true⟩ })

/-- `kheap_free`. -/
def kheapFree (K : Kernel) (ptr : U64) : Kernel :=
  if !K.heap.initialized ∨ ptr = 0 ∨ ptr ≠ K.heap.activeBase then K
  else
    { K with
      phys := { K.phys with pmm := pmmFreePage bootstrapLimit K.phys.pmm K.heap.activeBase }
      heap := ⟨0, 0, 0, 0, true⟩ }

/-! ### Runs -/

/-- The page is the kernel's own: the heap's, or one that the allocator neither
has nor has given away; the kernel's PML4 is not meant. -/
def Kernel.owns (K : Kernel) (page : ℕ) : Prop :=
  (K.heap.activeBase ≠ 0 ∧ page = K.heap.activeBase.toNat / 4096) ∨
  (page ≠ K.kernelTable / 4096 ∧
    (bootstrapLimit.pages ≤ page ∨
      pageBit K.phys.pmm.bitmap page = true ∧ pageBit K.phys.pmm.allocatedBitmap page = false))

instance (K : Kernel) (page : ℕ) : Decidable (K.owns page) := inferInstanceAs (Decidable (_ ∨ _))

/-- A store by the rest of the kernel, into its own memory. -/
def kernelStore (K : Kernel) (address : ℕ) (value : U8) : Kernel :=
  if K.owns (address / 4096) then
    { K with phys := { K.phys with mem := write8 K.phys.mem address value } }
  else K

/-- The calls. -/
inductive KernelCall
  | create (pid : U64)
  | createThread (process : Option Slot) (tid : U64) (priority : U32)
  | prepareElf (process : Option Slot) (image imageSize : U64) (imageInfo : Option ProcessImage)
  | destroy (process : Option Slot)
  | heapAlloc (size : U64)
  | heapFree (ptr : U64)
  | store (address : ℕ) (value : U8)

/-- What a call returns. -/
inductive KernelReply
  | process (process : Option Slot)
  | thread (thread : Option (Fin 16))
  | status (rc : ℤ) (imageInfo : Option ProcessImage)
  | address (ptr : U64)
  | done

/-- One call of the code. -/
def kernelStep (K : Kernel) : KernelCall → KernelReply × Kernel
  | .create pid => (.process (processCreate K pid).1, (processCreate K pid).2)
  | .createThread process tid priority =>
    (.thread (processCreateThread K process tid priority).1,
      (processCreateThread K process tid priority).2)
  | .prepareElf process image imageSize imageInfo =>
    let r := processPrepareElf K process image imageSize imageInfo
    (.status r.1 r.2.1, r.2.2)
  | .destroy process => (.done, processDestroy K process)
  | .heapAlloc size => (.address (kheapAlloc K size).1, (kheapAlloc K size).2)
  | .heapFree ptr => (.done, kheapFree K ptr)
  | .store address value => (.done, kernelStore K address value)

/-- The process that a call works on, if it is told one. -/
def KernelCall.target : KernelCall → Option Slot
  | .prepareElf process _ _ _ => process
  | .destroy process => process
  | .createThread process _ _ => process
  | _ => none

/-- The process is live. -/
def Kernel.live (K : Kernel) (i : Slot) : Prop := (K.processes i).state ≠ .unused

/-! ### What the stack loop does to the machine -/

section Grown

variable {κ : Type*} {user : κ → Prop} {root : κ → Option ℕ} {k : κ} {σ σ' : Phys} {a : PageSets}

/-- The stack loop leaves a page as cleared. -/
theorem clear_inside : FillsInside fun m _ => some m := fun m _ m' _ h _ _ => by
  rw [Option.some.inj h]

/-- The stack loop keeps what its rounds keep. -/
theorem stackPages_ends {P Q : Phys → Prop} {pml4 : U64} (hpages : KeptByPages pml4 P Q) {n : ℕ}
    {va : U64} (h : P σ) : Ends id P Q (stackPages pml4 n va σ) := by
  induction n generalizing σ va with
  | zero => exact h
  | succ n ih =>
    have hpage := hpages clear_inside va (vmmWritable ||| vmmNx) h
    rw [stackPages]
    split <;> rename_i heq <;> rw [heq] at hpage
    · exact hpage
    · exact ih hpage

/-- Whatever `map_user_stack` does, the address space grows. -/
theorem mapUserStack_grown (hk : user k) {pml4 : U64} (hroot : root k = some pml4.toNat)
    (bottom top : U64) (h : Grown user root k σ a σ') :
    Ends id (Grown user root k σ a) (Grown user root k σ a)
      (mapUserStack σ' pml4 bottom top) := by
  unfold mapUserStack
  split_ifs
  · exact h
  · exact stackPages_ends (keptByPages_grown hk hroot) h

end Grown

end SuiraBox.Exec
