/-
# Processes are isolated

Along every run of process and heap calls each frame in use has one use: the
PML4 of one process, a table of one process, a data page of one process at one
address, or the heap's page.  The invariant is `Isolated`; its core is `Tables`
with the process slots and the heap as the owners.  Every call, on every way out,
changes what at most one owner owns, by `Grows` or by a new or a dropped root,
so that no call on one process is seen by another.

The owner of slot `i` is `some i`, also while the slot is unused: a failed load
into an unused slot leaves a PML4 behind there, and `process_create` later
replaces it.  The heap is the owner `none`.
-/

import SuiraBox.Exec.Process

namespace SuiraBox.Exec

open ByteMem Forest Mm Runs

/-- The owners that have an address space. -/
def isSpace (k : Option Slot) : Prop := k.isSome

/-- The root of each owner: the PML4 of a slot, the heap's page. -/
def Kernel.root (K : Kernel) : Option Slot → Option ℕ
  | none => if K.heap.activeBase = 0 then none else some K.heap.activeBase.toNat
  | some i =>
    if (K.processes i).pml4Physical = 0 then none else some (K.processes i).pml4Physical.toNat

/-- The invariant; `entry` is the kernel's PML4 entry. -/
structure Isolated (entry : U64) (K : Kernel) (a : PageSets) : Prop where
  tables : Tables isSpace K.root K.phys a
  kernel : K.kernelTable / 4096 ∈ a.reserved
  kernelEntry : slot K.phys.mem K.kernelTable 0 = entry
  slots : ∀ {i r}, K.root (some i) = some r →
    slot K.phys.mem r 0 = entry ∧ ∀ j, 1 < j → j < 512 → slot K.phys.mem r j = 0
  live : ∀ {i}, K.live i → (K.processes i).pml4Physical ≠ 0

/-- What owner `k` owns is the same in both states. -/
def SameOwned (K K' : Kernel) (k : Option Slot) : Prop :=
  ∀ p f, Owns isSpace K'.phys.mem K'.root k p f ↔ Owns isSpace K.phys.mem K.root k p f

variable {entry : U64} {K K' : Kernel} {a a' : PageSets} {i : Slot}

/-! ### Roots -/

variable {k : Option Slot} {σ : Phys}

/-- The roots are read off the heap's table and the process records. -/
theorem root_congr (hheap : K'.heap = K.heap) (hprocs : K'.processes = K.processes) :
    K'.root = K.root := by
  funext k
  cases k with
  | none => rw [Kernel.root, Kernel.root, hheap]
  | some i => rw [Kernel.root, Kernel.root, hprocs]

/-- The root of a process is the space in its record. -/
theorem root_some {r : ℕ} : K.root (some i) = some r ↔
    (K.processes i).pml4Physical ≠ 0 ∧ (K.processes i).pml4Physical.toNat = r := by
  rw [Kernel.root]
  split_ifs with h
  · exact iff_of_false (by simp) fun hc => hc.1 h
  · rw [Option.some.injEq]
    exact (and_iff_right h).symm

/-- Another record for slot `i` is another root for owner `some i`. -/
theorem root_setProcess (K : Kernel) (i : Slot) (process : Process) :
    (K.setProcess i process).root = Function.update K.root (some i)
      (if process.pml4Physical = 0 then none else some process.pml4Physical.toNat) := by
  funext k
  rcases eq_or_ne k (some i) with rfl | hk
  · rw [Function.update_self, Kernel.root, setProcess_self]
  · rw [Function.update_of_ne hk]
    cases k with
    | none => rfl
    | some j =>
      have hj : j ≠ i := fun he => hk (by rw [he])
      rw [Kernel.root, Kernel.root, setProcess_of_ne K hj]

/-- Changing a record's other fields leaves the roots. -/
theorem root_setProcess_same {process : Process}
    (h : process.pml4Physical = (K.processes i).pml4Physical) :
    (K.setProcess i process).root = K.root := by
  rw [root_setProcess, h]
  exact Function.update_eq_self (some i) K.root

/-- Another state of the heap is another root for owner `none`. -/
theorem root_setHeap (K' : Kernel) (hprocs : K'.processes = K.processes) :
    K'.root = Function.update K.root none
      (if K'.heap.activeBase = 0 then none else some K'.heap.activeBase.toNat) := by
  funext k
  cases k with
  | none => rw [Function.update_self, Kernel.root]
  | some i => rw [Function.update_of_ne (by simp), Kernel.root, Kernel.root, hprocs]

/-! ### One step -/

/-- The heap's page table is page-aligned. -/
theorem kernelTable_aligned (K : Kernel) : K.kernelTable % 4096 = 0 := by
  have := toNat_tableFromEntry K.cr3
  rw [tableFromEntry] at this
  rw [Kernel.kernelTable]
  omega

section Step

variable (h : Isolated entry K a)

include h

/-- The frame of the kernel's PML4 is owned by nobody. -/
theorem Isolated.kernel_unowned {p : List ℕ} {f : ℕ}
    (ho : Owns isSpace K.phys.mem K.root k p f) : K.kernelTable / 4096 ≠ f / 4096 :=
  fun he => h.tables.unreserved ho (he ▸ h.kernel)

/-- The invariant after a step that keeps the page of the kernel's PML4, and of
each PML4 the slots other than slot 1, or makes a new one. -/
theorem Isolated.step (htables : Tables isSpace K'.root K'.phys a')
    (hres : a'.reserved = a.reserved) (hcr3 : K'.cr3 = K.cr3)
    (hkernel : ∀ x, x / 4096 = K.kernelTable / 4096 → K'.phys.mem x = K.phys.mem x)
    (hslots : ∀ j r, K'.root (some j) = some r →
      (K.root (some j) = some r ∧
        ∀ n < 512, n ≠ userPml4Index → slot K'.phys.mem r n = slot K.phys.mem r n) ∨
      slot K'.phys.mem r 0 = entry ∧ ∀ n, 1 < n → n < 512 → slot K'.phys.mem r n = 0)
    (hlive : ∀ j, K'.live j → (K'.processes j).pml4Physical ≠ 0) : Isolated entry K' a' := by
  have htable : K'.kernelTable = K.kernelTable := by
    rw [Kernel.kernelTable, Kernel.kernelTable, hcr3]
  refine ⟨htables, ?_, ?_, fun hr => ?_, fun hl => hlive _ hl⟩
  · rw [htable, hres]
    exact h.kernel
  · rw [htable, ← h.kernelEntry]
    exact slot_congr (kernelTable_aligned K) (by decide) hkernel
  · rcases hslots _ _ hr with ⟨hold, hsame⟩ | hnew
    · obtain ⟨h₀, h₁⟩ := h.slots hold
      refine ⟨(hsame 0 (by decide) (by decide)).trans h₀, fun n hn hn' => ?_⟩
      exact (hsame n hn' (by rw [userPml4Index]; omega)).trans (h₁ n hn hn')
    · exact hnew

/-- The invariant after owner `k` has grown. -/
theorem Isolated.grow (K' : Kernel) (hg : Grown isSpace K.root k K.phys a K'.phys)
    (hcr3 : K'.cr3 = K.cr3) (hroot : K'.root = K.root)
    (hlive : ∀ j, K'.live j → (K'.processes j).pml4Physical ≠ 0) :
    (∃ a', Isolated entry K' a') ∧ ∀ k', k' ≠ k → SameOwned K K' k' := by
  obtain ⟨a', htables, hgrows⟩ := hg
  refine ⟨⟨a', h.step (hroot.symm ▸ htables) hgrows.reserved hcr3 (fun x hx => ?_)
    (fun j r hr => ?_) hlive⟩, fun k' hk p f => ?_⟩
  · refine hgrows.mem x (fun hfree => ?_) fun p f ho _ => hx ▸ h.kernel_unowned ho
    exact (PageSets.mem_free.1 hfree).2.1 (hx ▸ h.kernel)
  · rw [hroot] at hr
    refine Or.inl ⟨hr, fun n hn hne => ?_⟩
    rcases eq_or_ne (some j) k with rfl | hj
    · exact hgrows.outside hr hn hne
    · exact hgrows.slot_other h.tables hj (owned_nil.2 hr) hn
  · rw [hroot]
    exact hgrows.owns_other h.tables hk p f

/-- The invariant after owner `k` has given its root page back. -/
theorem Isolated.drop (K' : Kernel) {f : ℕ}
    (hf : K.root k = some f) (hr : Refines bootstrapLimit K'.phys.pmm (a.giveBack (f / 4096)))
    (hmem : K'.phys.mem = K.phys.mem) (hcr3 : K'.cr3 = K.cr3)
    (hroot : K'.root = Function.update K.root k none)
    (hlive : ∀ j, K'.live j → (K'.processes j).pml4Physical ≠ 0) :
    (∃ a', Isolated entry K' a') ∧ ∀ k', k' ≠ k → SameOwned K K' k' := by
  obtain ⟨htables, hother⟩ := h.tables.dropRoot hf hr
  rw [← hroot, ← hmem] at htables
  refine ⟨⟨_, h.step htables rfl hcr3 (fun x _ => by rw [hmem]) (fun j r hj => ?_) hlive⟩,
    fun k' hk p g => ?_⟩
  · rw [hmem]
    refine Or.inl ⟨?_, fun _ _ _ => rfl⟩
    rw [hroot] at hj
    rcases eq_or_ne (some j) k with rfl | hne
    · rw [Function.update_self] at hj
      exact absurd hj (by simp)
    · rwa [Function.update_of_ne hne] at hj
  · rw [hmem, hroot]
    exact hother k' hk p g

/-- The invariant after a free page has become the root of owner `k`. -/
theorem Isolated.fresh {c r : ℕ} (hc : c ∈ a.free)
    (htables : Tables isSpace K'.root K'.phys (a.take c))
    (hroot : K'.root = Function.update K.root k (some r))
    (hmem : ∀ x, x / 4096 ≠ c → K'.phys.mem x = K.phys.mem x) (hcr3 : K'.cr3 = K.cr3)
    (hnew : isSpace k →
      slot K'.phys.mem r 0 = entry ∧ ∀ n, 1 < n → n < 512 → slot K'.phys.mem r n = 0)
    (hlive : ∀ j, K'.live j → (K'.processes j).pml4Physical ≠ 0) :
    Isolated entry K' (a.take c) := by
  refine h.step htables rfl hcr3 (fun x hx => hmem x fun he => ?_) (fun j r' hr => ?_) hlive
  · exact (PageSets.mem_free.1 hc).2.1 (he ▸ hx ▸ h.kernel)
  · rw [hroot] at hr
    rcases eq_or_ne (some j) k with rfl | hk
    · rw [Function.update_self] at hr
      obtain rfl := Option.some.inj hr
      exact Or.inr (hnew rfl)
    · rw [Function.update_of_ne hk] at hr
      have ho : Owns isSpace K.phys.mem K.root (some j) [] r' := owned_nil.2 hr
      refine Or.inl ⟨hr, fun n hn _ => slot_congr (h.tables.aligned ho) hn fun x hx => hmem x ?_⟩
      exact fun he => h.tables.not_free ho (hx ▸ he ▸ hc)

/-- The invariant after `address_space_create` for slot `i`. -/
theorem Isolated.createSpace (K' : Kernel) {page : U64}
    (hcreate : addressSpaceCreate K.phys K.cr3 = (some page, σ)) (hphys : K'.phys = σ)
    (hcr3 : K'.cr3 = K.cr3) (hroot : K'.root = Function.update K.root (some i) (some page.toNat))
    (hlive : ∀ j, K'.live j → (K'.processes j).pml4Physical ≠ 0) :
    (∃ a', Isolated entry K' a') ∧ ∀ k, k ≠ some i → SameOwned K K' k := by
  have hn := addressSpaceCreate_some h.tables.refines hcreate
  obtain ⟨htables, hother, -⟩ := hn.tables h.tables (some i)
  have hkernel : K.kernelTable / 4096 ≠ page.toNat / 4096 :=
    fun he => (PageSets.mem_free.1 hn.free).2.1 (he ▸ h.kernel)
  subst hphys
  rw [← hroot] at htables hother
  exact ⟨⟨_, h.fresh hn.free htables hroot hn.other hcr3 (fun _ =>
    ⟨(hn.first hkernel).trans h.kernelEntry, fun n hn' => hn.empty n (by omega)⟩) hlive⟩, hother⟩

/-- `address_space_create` that fails changes nothing that is owned. -/
theorem Isolated.createSpace_none
    (hcreate : addressSpaceCreate K.phys K.cr3 = (none, σ)) (i : Slot) :
    Grown isSpace K.root (some i) K.phys a σ := by
  obtain ⟨hmem, rfl | ⟨c, hc, hr⟩⟩ := addressSpaceCreate_none h.tables.refines hcreate
  · exact Grown.of_grows h.tables (Grows.refl _ _)
  · obtain ⟨htables, -, hgrows⟩ := h.tables.alloc (k := some i) hc hr fun x _ => congrFun hmem x
    exact Grown.of_grows htables hgrows

end Step

/-- A space that has been made is not page 0. -/
theorem addressSpaceCreate_ne_zero {σ' : Phys} {cr3 page : U64}
    (h : addressSpaceCreate σ cr3 = (some page, σ')) : page ≠ 0 := by
  unfold addressSpaceCreate at h
  dsimp only at h
  split_ifs at h with hzero
  · exact absurd (congrArg Prod.fst h) (by simp)
  · rw [← Option.some.inj (congrArg Prod.fst h)]
    exact hzero

/-! ### The calls -/

/-- Process `j` has the same record and owns the same. -/
def Spares (K K' : Kernel) (j : Slot) : Prop :=
  K'.processes j = K.processes j ∧ SameOwned K K' (some j)

/-- The invariant is kept, and the processes of `P` are spared. -/
def Keeps (entry : U64) (K K' : Kernel) (P : Slot → Prop) : Prop :=
  (∃ a, Isolated entry K' a) ∧ ∀ j, P j → Spares K K' j

variable {K₁ : Kernel} {process : Process} {P Q : Slot → Prop}

theorem Keeps.refl (h : Isolated entry K a) : Keeps entry K K P :=
  ⟨⟨a, h⟩, fun _ _ => ⟨rfl, fun _ _ => Iff.rfl⟩⟩

theorem Keeps.mono (h : Keeps entry K K' P) (hP : ∀ j, Q j → P j) : Keeps entry K K' Q :=
  ⟨h.1, fun j hj => h.2 j (hP j hj)⟩

theorem Keeps.trans (h₁ : Keeps entry K K₁ P) (h₂ : Keeps entry K₁ K' P) : Keeps entry K K' P :=
  ⟨h₂.1, fun j hj => ⟨(h₂.2 j hj).1.trans (h₁.2 j hj).1,
    fun p f => ((h₂.2 j hj).2 p f).trans ((h₁.2 j hj).2 p f)⟩⟩

/-- Another record for slot `i`, in a state that differs from `K` in memory and
allocator only. -/
structure Records (K K₁ : Kernel) (process : Process) : Prop where
  cr3 : K₁.cr3 = K.cr3
  heap : K₁.heap = K.heap
  processes : K₁.processes = K.processes
  live : process.state ≠ .unused → process.pml4Physical ≠ 0

/-- Every live process still has a PML4. -/
theorem Records.live_setProcess (hK : Records K K₁ process) (h : Isolated entry K a) (j : Slot)
    (hj : (K₁.setProcess i process).live j) :
    ((K₁.setProcess i process).processes j).pml4Physical ≠ 0 := by
  rcases eq_or_ne j i with rfl | hne
  · rw [Kernel.live, setProcess_self] at hj
    rw [setProcess_self]
    exact hK.live hj
  · rw [Kernel.live, setProcess_of_ne _ hne, hK.processes] at hj
    rw [setProcess_of_ne _ hne, hK.processes]
    exact h.live hj

/-- The other processes are spared, when the other owners are. -/
theorem Records.keeps (hK : Records K K₁ process)
    (h : (∃ a, Isolated entry (K₁.setProcess i process) a) ∧
      ∀ k, k ≠ some i → SameOwned K (K₁.setProcess i process) k) :
    Keeps entry K (K₁.setProcess i process) (· ≠ i) :=
  ⟨h.1, fun _ hj => ⟨by rw [setProcess_of_ne _ hj, hK.processes],
    h.2 _ fun he => hj (Option.some.inj he)⟩⟩

/-- A step on the heap spares every process. -/
theorem keeps_of_heap (hprocs : K'.processes = K.processes)
    (h : (∃ a, Isolated entry K' a) ∧ ∀ k, k ≠ none → SameOwned K K' k) : Keeps entry K K' P :=
  ⟨h.1, fun j _ => ⟨by rw [hprocs], h.2 _ (by simp)⟩⟩

section Calls

variable (h : Isolated entry K a)

include h

/-- Slot `i` has grown. -/
theorem Isolated.grow_phys (hg : Grown isSpace K.root (some i) K.phys a σ) :
    Keeps entry K { K with phys := σ } (· ≠ i) := by
  obtain ⟨hiso, hother⟩ := h.grow { K with phys := σ } hg rfl (root_congr rfl rfl) fun j => h.live
  exact ⟨hiso, fun j hj => ⟨rfl, hother _ fun he => hj (Option.some.inj he)⟩⟩

/-- Slot `i` has grown and has a record with the same PML4. -/
theorem Isolated.grow_record (hK : Records K K₁ process)
    (hg : Grown isSpace K.root (some i) K.phys a K₁.phys)
    (hpml4 : process.pml4Physical = (K.processes i).pml4Physical) :
    Keeps entry K (K₁.setProcess i process) (· ≠ i) := by
  have hroot : (K₁.setProcess i process).root = K.root :=
    (root_setProcess_same (by rw [hpml4, hK.processes])).trans (root_congr hK.heap hK.processes)
  exact hK.keeps (h.grow _ hg hK.cr3 hroot (hK.live_setProcess h))

/-- Slot `i` has a record with a new PML4. -/
theorem Isolated.create_record (hK : Records K K₁ process)
    (hcreate : addressSpaceCreate K.phys K.cr3 = (some process.pml4Physical, σ))
    (hphys : K₁.phys = σ) : Keeps entry K (K₁.setProcess i process) (· ≠ i) := by
  have hroot : (K₁.setProcess i process).root =
      Function.update K.root (some i) (some process.pml4Physical.toNat) := by
    rw [root_setProcess, if_neg (addressSpaceCreate_ne_zero hcreate),
      root_congr hK.heap hK.processes]
  exact hK.keeps (h.createSpace _ hcreate hphys hK.cr3 hroot (hK.live_setProcess h))

/-- Slot `i` has a record without PML4, and its PML4 has been given back. -/
theorem Isolated.drop_record (hK : Records K K₁ process)
    (hi : (K.processes i).pml4Physical ≠ 0)
    (hphys : K₁.phys = addressSpaceDestroy K.phys (K.processes i).pml4Physical)
    (hpml4 : process.pml4Physical = 0) : Keeps entry K (K₁.setProcess i process) (· ≠ i) := by
  have hroot : K.root (some i) = some (K.processes i).pml4Physical.toNat := root_some.2 ⟨hi, rfl⟩
  have howned : Owns isSpace K.phys.mem K.root (some i) [] (K.processes i).pml4Physical.toNat :=
    owned_nil.2 hroot
  have halign := h.tables.aligned howned
  have hback := h.tables.refines.freePage (h.tables.allocated howned)
    (show (K.processes i).pml4Physical.toNat = _ by omega)
  rw [addressSpaceDestroy, if_neg hi] at hphys
  refine hK.keeps (h.drop _ hroot ?_ ?_ hK.cr3 ?_ (hK.live_setProcess h))
  · rw [show (K₁.setProcess i process).phys = K₁.phys from rfl, hphys]
    exact hback
  · rw [show (K₁.setProcess i process).phys = K₁.phys from rfl, hphys]
  · rw [root_setProcess, if_pos hpml4, root_congr hK.heap hK.processes]

/-- Making a process in a slot keeps all others. -/
theorem createIn_keeps (i : Slot) (pid : U64) :
    Keeps entry K (createIn K i pid).2 (· ≠ i) := by
  unfold createIn
  dsimp only
  cases hcreate : addressSpaceCreate K.phys K.cr3 with
  | mk r σ =>
    cases r with
    | none =>
      exact h.grow_record ⟨rfl, rfl, rfl, fun hs => absurd rfl hs⟩ (h.createSpace_none hcreate i)
        rfl
    | some page =>
      exact h.create_record ⟨rfl, rfl, rfl, fun _ => addressSpaceCreate_ne_zero hcreate⟩ hcreate rfl

/-- `process_create` spares every live process: it takes an unused slot. -/
theorem processCreate_keeps (pid : U64) :
    Keeps entry K (processCreate K pid).2 K.live := by
  unfold processCreate
  split_ifs
  · exact Keeps.refl h
  · cases hfind : (List.finRange 32).find? fun i => (K.processes i).state = .unused with
    | none => exact Keeps.refl h
    | some i =>
      have hunused : (K.processes i).state = .unused := by simpa using List.find?_some hfind
      refine (createIn_keeps h i pid).mono fun j hj => ?_
      rintro rfl
      exact hj hunused

/-- Loading into a process keeps all others. -/
theorem prepareImage_keeps (hi : (K.processes i).pml4Physical ≠ 0)
    (image imageSize : U64) (imageInfo : ProcessImage) :
    Keeps entry K (prepareImage K i image imageSize imageInfo).2.2 (· ≠ i) := by
  have hroot : K.root (some i) = some (K.processes i).pml4Physical.toNat := root_some.2 ⟨hi, rfl⟩
  have hspace : isSpace (some i) := rfl
  have hload := elf64LoadImage_grown h.tables hspace hroot image imageSize
  unfold prepareImage
  dsimp only
  cases hres : elf64LoadImage K.phys (K.processes i).pml4Physical image imageSize with
  | mk r σ =>
    rw [hres] at hload
    cases r with
    | none => exact h.grow_phys hload
    | some e =>
      have hgrown := mapUserStack_grown hspace hroot userStackBottom userStackTop hload
      dsimp only
      generalize mapUserStack σ (K.processes i).pml4Physical userStackBottom userStackTop = stack
        at hgrown ⊢
      cases stack with
      | error σ' => exact h.grow_phys hgrown
      | ok σ' => exact h.grow_record ⟨rfl, rfl, rfl, fun _ => hi⟩ hgrown rfl

/-- Giving a process a space keeps all others. -/
theorem prepareSpace_keeps (i : Slot) :
    Keeps entry K (prepareSpace K i).2 (· ≠ i) ∧
      ((prepareSpace K i).1 = true → ((prepareSpace K i).2.processes i).pml4Physical ≠ 0) := by
  unfold prepareSpace
  split_ifs with hzero
  · cases hcreate : addressSpaceCreate K.phys K.cr3 with
    | mk r σ =>
      cases r with
      | none => exact ⟨h.grow_phys (h.createSpace_none hcreate i), by simp⟩
      | some page =>
        have hpage := addressSpaceCreate_ne_zero hcreate
        refine ⟨h.create_record ⟨rfl, rfl, rfl, fun _ => hpage⟩ hcreate rfl, fun _ => ?_⟩
        rw [setProcess_self]
        exact hpage
  · exact ⟨Keeps.refl h, fun _ => hzero⟩

/-- `process_prepare_elf` spares every process but its own, on every way out. -/
theorem processPrepareElf_keeps (target : Option Slot)
    (image imageSize : U64) (imageInfo : Option ProcessImage) :
    Keeps entry K (processPrepareElf K target image imageSize imageInfo).2.2 (target ≠ some ·) := by
  unfold processPrepareElf
  cases target with
  | none => exact Keeps.refl h
  | some i =>
    have hne : ∀ j, some i ≠ some j → j ≠ i := fun j hj he => hj (by rw [he])
    obtain ⟨hkeeps, hspace⟩ := prepareSpace_keeps h i
    cases imageInfo with
    | none => exact Keeps.refl h
    | some info =>
      dsimp only
      split_ifs with hargs hcreated
      · exact Keeps.refl h
      · exact hkeeps.mono hne
      · rw [Bool.not_eq_true', Bool.not_eq_false] at hcreated
        obtain ⟨a₁, h₁⟩ := hkeeps.1
        exact (hkeeps.trans (prepareImage_keeps h₁ (hspace hcreated) image imageSize info)).mono hne

/-- Making a thread keeps all other processes. -/
theorem processCreateThread_keeps (target : Option Slot) (tid : U64)
    (priority : U32) :
    Keeps entry K (processCreateThread K target tid priority).2 (target ≠ some ·) := by
  unfold processCreateThread
  cases target with
  | none => exact Keeps.refl h
  | some i =>
    have hne : ∀ j, some i ≠ some j → j ≠ i := fun j hj he => hj (by rw [he])
    dsimp only
    split_ifs with hcount hargs
    · exact Keeps.refl h
    · refine Keeps.mono ?_ hne
      exact h.grow_record ⟨rfl, rfl, rfl, fun hs => h.live hs⟩ (Grown.refl h.tables) rfl
    · exact Keeps.refl h

/-- `process_destroy` gives the PML4 back and spares every other process. -/
theorem processDestroy_keeps (target : Option Slot) :
    Keeps entry K (processDestroy K target) (target ≠ some ·) := by
  unfold processDestroy
  cases target with
  | none => exact Keeps.refl h
  | some i =>
    have hne : ∀ j, some i ≠ some j → j ≠ i := fun j hj he => hj (by rw [he])
    dsimp only
    rcases eq_or_ne (K.processes i).state .unused with hunused | hlive
    · rw [if_pos hunused]
      exact Keeps.refl h
    · rw [if_neg hlive]
      refine Keeps.mono ?_ hne
      exact h.drop_record ⟨rfl, rfl, rfl, fun hs => absurd rfl hs⟩ (h.live hlive) rfl rfl

/-- A call of the heap keeps every process. -/
theorem kheapAlloc_keeps (size : U64) :
    Keeps entry K (kheapAlloc K size).2 P := by
  unfold kheapAlloc
  dsimp only
  split_ifs with hargs hpages hzero
  · exact Keeps.refl h
  · exact Keeps.refl h
  · rcases h.tables.refines.allocPage_cases with ⟨-, halloc⟩ | ⟨c, hc, -, -, hr⟩
    · rw [halloc]
      exact Keeps.refl h
    · obtain ⟨htables, -, hgrows⟩ := h.tables.alloc (k := none) hc hr fun _ _ => rfl
      exact keeps_of_heap rfl (h.grow _ (Grown.of_grows htables hgrows) rfl (root_congr rfl rfl)
        fun j => h.live)
  · rcases h.tables.refines.allocPage_cases with ⟨-, halloc⟩ | ⟨c, hc, -, hpage, hr⟩
    · rw [halloc] at hzero
      exact absurd rfl hzero
    · generalize pmmAllocPage bootstrapLimit K.phys.pmm = r at hzero hpage hr ⊢
      obtain ⟨htables, hother, -⟩ := h.tables.newRoot none hc hr (fun _ _ => rfl) fun hspace => by
        simp [isSpace] at hspace
      rw [← hpage] at htables hother
      let K₁ : Kernel :=
        { K with phys := { K.phys with pmm := r.2 }, heap := ⟨r.1, 1, size, size, true⟩ }
      have hroot : K₁.root = Function.update K.root none (some r.1.toNat) := by
        rw [root_setHeap (K := K) K₁ rfl, if_neg hzero]
      rw [← hroot] at htables hother
      exact keeps_of_heap rfl ⟨⟨_, h.fresh hc htables hroot (fun _ _ => rfl) rfl (fun hspace => by
        simp [isSpace] at hspace) fun j => h.live⟩, hother⟩

/-- So does giving memory back. -/
theorem kheapFree_keeps (ptr : U64) :
    Keeps entry K (kheapFree K ptr) P := by
  unfold kheapFree
  split_ifs with hargs
  · exact Keeps.refl h
  · rw [not_or, not_or, not_not] at hargs
    obtain ⟨-, hptr, rfl⟩ := hargs
    have hroot : K.root none = some K.heap.activeBase.toNat := by rw [Kernel.root, if_neg hptr]
    have howned : Owns isSpace K.phys.mem K.root none [] K.heap.activeBase.toNat :=
      owned_nil.2 hroot
    have halign := h.tables.aligned howned
    have hback := h.tables.refines.freePage (h.tables.allocated howned)
      (show K.heap.activeBase.toNat = _ by omega)
    exact keeps_of_heap rfl (h.drop _ hroot hback rfl rfl (root_setHeap _ rfl) fun j => h.live)

/-- The kernel's own pages hold no table and no PML4. -/
theorem Isolated.owns_ne {x : ℕ} (hx : K.owns (x / 4096)) :
    x / 4096 ≠ K.kernelTable / 4096 ∧ ∀ {k p f}, isSpace k → Owns isSpace K.phys.mem K.root k p f →
      x / 4096 ≠ f / 4096 := by
  rcases hx with ⟨hbase, hpage⟩ | ⟨hkernel, houtside⟩
  · have hheap : Owns isSpace K.phys.mem K.root none [] K.heap.activeBase.toNat :=
      owned_nil.2 (by rw [Kernel.root, if_neg hbase])
    refine ⟨fun he => h.kernel_unowned hheap (he.symm.trans hpage), fun hk ho he => ?_⟩
    obtain ⟨rfl, -⟩ := h.tables.page_unique hheap ho (hpage.symm.trans he)
    simp [isSpace] at hk
  · refine ⟨hkernel, fun _ ho he => ?_⟩
    have halloc := h.tables.allocated ho
    have hlt := h.tables.refines.allocated_lt halloc
    have hbit := (h.tables.refines.allocated _ hlt).2 halloc
    rw [← he] at hlt hbit
    rcases houtside with hge | ⟨-, hclear⟩
    · omega
    · rw [hclear] at hbit
      exact absurd hbit (by simp)

/-- So does a store through the heap's addresses. -/
theorem kernelStore_keeps (address : ℕ) (value : U8) :
    Keeps entry K (kernelStore K address value) P := by
  unfold kernelStore
  split_ifs with howns
  · obtain ⟨hkernel, hne⟩ := h.owns_ne howns
    have hmem : ∀ x, x / 4096 ≠ address / 4096 →
        write8 K.phys.mem address value x = K.phys.mem x := by
      intro x hx
      rw [write8, if_neg fun he => hx (by rw [he])]
    have hslot : ∀ {k p f n}, isSpace k → Owns isSpace K.phys.mem K.root k p f → n < 512 →
        slot (write8 K.phys.mem address value) f n = slot K.phys.mem f n := fun hk ho hn =>
      slot_congr (h.tables.aligned ho) hn fun x hx => hmem x fun he => hne hk ho (he.symm.trans hx)
    obtain ⟨htables, hsame⟩ := h.tables.write (write8 K.phys.mem address value) h.tables.refines rfl
      h.tables.allocated fun ho hk hp => SameTarget.of_eq (hslot hk ho hp.lt)
    refine ⟨⟨a, h.step htables rfl rfl (fun x hx => hmem x fun he => ?_) (fun j r hr => ?_)
      fun j => h.live⟩, fun j _ => ⟨rfl, fun p f => hsame _ _ _⟩⟩
    · exact hkernel (he.symm.trans hx)
    · have hspace : isSpace (some j) := rfl
      exact Or.inl ⟨hr, fun n hn _ => hslot hspace (owned_nil.2 hr) hn⟩
  · exact Keeps.refl h

/-- One call keeps the invariant and spares every live process that it is not
told. -/
theorem kernelStep_keeps (call : KernelCall) :
    Keeps entry K (kernelStep K call).2 fun j => K.live j ∧ call.target ≠ some j := by
  cases call with
  | create pid => exact (processCreate_keeps h pid).mono fun j hj => hj.1
  | createThread target tid priority =>
    exact (processCreateThread_keeps h target tid priority).mono fun j hj => hj.2
  | prepareElf target image imageSize imageInfo =>
    exact (processPrepareElf_keeps h target image imageSize imageInfo).mono fun j hj => hj.2
  | destroy target => exact (processDestroy_keeps h target).mono fun j hj => hj.2
  | heapAlloc size => exact kheapAlloc_keeps h size
  | heapFree ptr => exact kheapFree_keeps h ptr
  | store address value => exact kernelStore_keeps h address value

end Calls

/-- A machine on which no process exists and the heap has no page. -/
structure NoProcess (K : Kernel) : Prop where
  pmm : PmmReached K.phys.pmm
  kernel : K.kernelTable / 4096 < bootstrapLimit.pages ∧
    pageBit K.phys.pmm.reservedBitmap (K.kernelTable / 4096) = true
  processes : K.processes = fun _ => .zero
  heap : K.heap.activeBase = 0

/-- Without processes there is nothing to keep apart. -/
theorem NoProcess.isolated (h : NoProcess K) :
    ∃ a, Isolated (slot K.phys.mem K.kernelTable 0) K a := by
  obtain ⟨a, hr⟩ := h.pmm.refines
  have hroot : ∀ k, K.root k = none := by
    intro k
    cases k with
    | none => rw [Kernel.root, if_pos h.heap]
    | some i =>
      rw [Kernel.root, h.processes]
      rfl
  refine ⟨a, Tables.empty hr hroot, (hr.reserved _ h.kernel.1).1 h.kernel.2, rfl, fun hi => ?_,
    fun hi => ?_⟩
  · rw [hroot] at hi
    exact absurd hi (by simp)
  · rw [Kernel.live, h.processes] at hi
    exact absurd rfl hi

/-- The invariant holds along every run. -/
theorem run_isolated (h : ∃ a, Isolated entry K a) (calls : List KernelCall) :
    ∃ a, Isolated entry (run kernelStep K calls) a :=
  run_invariant (P := fun K => ∃ a, Isolated entry K a)
    (fun _ call ⟨_, hK⟩ => (kernelStep_keeps hK call).1) calls h

/-! ### The uses of frames -/

/-- What a frame can be in use for; a path is a list of table indices from the
PML4 down. -/
inductive Use
  | pml4 (i : Slot)
  | table (i : Slot) (path : List ℕ)
  | data (i : Slot) (path : List ℕ)
  | heap

/-- The frame at `f` is in use by a live process or by the heap. -/
def Kernel.serves (K : Kernel) : Use → ℕ → Prop
  | .pml4 i, f => K.live i ∧ f = (K.processes i).pml4Physical.toNat
  | .table i path, f => K.live i ∧ UserPath path ∧ 0 < path.length ∧ path.length < 4 ∧
      walk (nextTable K.phys.mem) (K.processes i).pml4Physical.toNat path = some f
  | .data i path, f => K.live i ∧ UserPath path ∧ path.length = 4 ∧
      walk (nextTable K.phys.mem) (K.processes i).pml4Physical.toNat path = some f
  | .heap, f => K.heap.activeBase ≠ 0 ∧ f = K.heap.activeBase.toNat

/-- The use of what an owner owns by a path. -/
def useOf : Option Slot → List ℕ → Use
  | none, _ => .heap
  | some i, p => if p.length = 0 then .pml4 i else if p.length < 4 then .table i p else .data i p

/-- A frame in use is owned, and its owner and path tell the use. -/
theorem Isolated.owns_of_serves (h : Isolated entry K a) {u : Use} {f : ℕ} (hu : K.serves u f) :
    ∃ k p, Owns isSpace K.phys.mem K.root k p f ∧ u = useOf k p := by
  have hroot : ∀ {i}, K.live i → K.root (some i) = some (K.processes i).pml4Physical.toNat :=
    fun hi => root_some.2 ⟨h.live hi, rfl⟩
  cases u with
  | pml4 i =>
    obtain ⟨hi, rfl⟩ := hu
    exact ⟨some i, [], owned_nil.2 (hroot hi), rfl⟩
  | table i p =>
    obtain ⟨hi, hpath, hpos, hlt, hwalk⟩ := hu
    refine ⟨some i, p, ⟨Or.inr ⟨rfl, hpath⟩, _, hroot hi, hwalk⟩, ?_⟩
    rw [useOf, if_neg (by omega), if_pos hlt]
  | data i p =>
    obtain ⟨hi, hpath, hlen, hwalk⟩ := hu
    refine ⟨some i, p, ⟨Or.inr ⟨rfl, hpath⟩, _, hroot hi, hwalk⟩, ?_⟩
    rw [useOf, if_neg (by omega), if_neg (by omega)]
  | heap =>
    obtain ⟨hbase, rfl⟩ := hu
    exact ⟨none, [], owned_nil.2 (by rw [Kernel.root, if_neg hbase]), rfl⟩

/-- **Processes are isolated.**  After any calls, from a machine without
processes on which the frame of the kernel's PML4 is reserved and its entry is a
supervisor entry: every frame in use is allocated and has one use; a live
process has the kernel's entry in slot 0 of its PML4, no user entry outside
slot 1 and nothing at all in slots 2 to 511; and no call changes the record or
the translation of a live process that it is not told.  Page 0 need not be
reserved. -/
theorem processes_isolated (K₀ : Kernel) (hstart : NoProcess K₀)
    (hsupervisor : (slot K₀.phys.mem K₀.kernelTable 0).getLsbD 2 = false)
    (calls : List KernelCall) : let K := run kernelStep K₀ calls
    (∀ u f, K.serves u f → f % 4096 = 0 ∧ f / 4096 < bootstrapLimit.pages ∧
      pageBit K.phys.pmm.allocatedBitmap (f / 4096) = true) ∧
    (∀ u u' f f', K.serves u f → K.serves u' f' → f / 4096 = f' / 4096 → u = u') ∧
    (∀ i, K.live i → let pml4 := (K.processes i).pml4Physical.toNat
      slot K.phys.mem pml4 0 = slot K₀.phys.mem K₀.kernelTable 0 ∧
      (∀ j, 1 < j → j < 512 → slot K.phys.mem pml4 j = 0) ∧
      ∀ j < 512, j ≠ userPml4Index → (slot K.phys.mem pml4 j).getLsbD 2 = false) ∧
    ∀ call i, K.live i → call.target ≠ some i → let K' := (kernelStep K call).2
      K'.processes i = K.processes i ∧
      ∀ va, addressSpaceTranslateUser K'.phys.mem (K'.processes i).pml4Physical va =
        addressSpaceTranslateUser K.phys.mem (K.processes i).pml4Physical va := by
  intro K
  obtain ⟨a, h⟩ : ∃ a, Isolated _ K a := run_isolated hstart.isolated calls
  refine ⟨fun u f hu => ?_, fun u u' f f' hu hu' hpage => ?_, fun i hi => ?_,
    fun call i hi hne => ?_⟩
  · obtain ⟨k, p, ho, -⟩ := h.owns_of_serves hu
    have halloc := h.tables.allocated ho
    have hlt := h.tables.refines.allocated_lt halloc
    exact ⟨h.tables.aligned ho, hlt, (h.tables.refines.allocated _ hlt).2 halloc⟩
  · obtain ⟨k, p, ho, rfl⟩ := h.owns_of_serves hu
    obtain ⟨k', p', ho', rfl⟩ := h.owns_of_serves hu'
    obtain ⟨rfl, rfl⟩ := h.tables.page_unique ho ho' hpage
    rfl
  · obtain ⟨h₀, h₁⟩ := h.slots (root_some.2 ⟨h.live hi, rfl⟩)
    refine ⟨h₀, h₁, fun j hj hne => ?_⟩
    rcases Nat.eq_zero_or_pos j with rfl | hpos
    · rw [h₀]
      exact hsupervisor
    · rw [h₁ j (by rw [userPml4Index] at hne; omega) hj]
      simp
  · obtain ⟨⟨a', h'⟩, hspares⟩ := kernelStep_keeps h call
    obtain ⟨hrecord, howns⟩ := hspares i ⟨hi, hne⟩
    have hroot : K.root (some i) = some (K.processes i).pml4Physical.toNat :=
      root_some.2 ⟨h.live hi, rfl⟩
    have hroot' : (kernelStep K call).2.root (some i) =
        some (K.processes i).pml4Physical.toNat := by
      rw [Kernel.root, hrecord, if_neg (h.live hi)]
    have hspace : isSpace (some i) := rfl
    refine ⟨hrecord, fun va => ?_⟩
    rw [hrecord]
    exact addressSpaceTranslateUser_congr h.tables h'.tables hspace hroot hroot' howns va

/-- An allocator with 256 MiB, of which the first 2 MiB are reserved. -/
def bootedPmm : Pmm :=
  pmmReserveRange bootstrapLimit
    (PmmBoot.state bootstrapLimit ⟨0, 0, 0, 0, 0⟩ (.init 0 0x10000000)) 0 0x200000

/-- The pages of that allocator. -/
def bootedPages : PageSets :=
  ⟨insidePages bootstrapLimit 0 0x10000000, insidePages bootstrapLimit 0 0x200000, ∅⟩

theorem bootedPmm_reached : PmmReached bootedPmm :=
  ⟨⟨0, 0, 0, 0, 0⟩, .init 0 0x10000000, [.reserveRange 0 0x200000], rfl⟩

theorem bootedPmm_refines : Refines bootstrapLimit bootedPmm bootedPages := by
  have h :=
    (pmmBoot_refines bootstrapLimit ⟨0, 0, 0, 0, 0⟩ (.init 0 0x10000000)).reserveRange 0 0x200000
  rwa [show (PmmBoot.sets bootstrapLimit (.init 0 0x10000000)).reserved ∪
    insidePages bootstrapLimit 0 0x200000 = insidePages bootstrapLimit 0 0x200000 from
      Finset.empty_union _] at h

theorem mem_bootedPages_free {p : ℕ} : p ∈ bootedPages.free ↔ 512 ≤ p ∧ p < 65536 := by
  rw [PageSets.mem_free, bootedPages, mem_insidePages, mem_insidePages, Inside, Inside]
  simp [bootstrapLimit]
  omega

/-- The allocator hands out page 512 first. -/
theorem bootedPmm_alloc : (pmmAllocPage bootstrapLimit bootedPmm).1 = 0x200000 ∧
    Refines bootstrapLimit (pmmAllocPage bootstrapLimit bootedPmm).2 (bootedPages.take 512) :=
  bootedPmm_refines.allocPage_eq (mem_bootedPages_free.2 (by omega))
    fun _ hq => (mem_bootedPages_free.1 hq).1

/-- A machine with that allocator, the kernel's PML4 in page 1 and no process. -/
def bootedKernel : Kernel where
  phys := ⟨write64 (fun _ => 0) 0x1000 0x2003, bootedPmm⟩
  cr3 := 0x1000
  processes _ := .zero
  processCount := 0
  heap := kheapInit

/-- The kernel of the examples starts without processes. -/
theorem bootedKernel_noProcess : NoProcess bootedKernel := by
  refine ⟨bootedPmm_reached, ?_, rfl, rfl⟩
  have hlt : bootedKernel.kernelTable / 4096 < bootstrapLimit.pages := by decide
  refine ⟨hlt, (bootedPmm_refines.reserved _ hlt).2 (mem_insidePages.2 ⟨hlt, ?_⟩)⟩
  decide

/-- Two processes and a block of the heap, each in frames of its own. -/
theorem bootedKernel_uses_distinct :
    NoProcess bootedKernel ∧ (slot bootedKernel.phys.mem bootedKernel.kernelTable 0).getLsbD 2 =
      false ∧
    let K := run kernelStep bootedKernel [.create 1, .heapAlloc 100, .create 2]
    ∀ u u' f f', K.serves u f → K.serves u' f' → f / 4096 = f' / 4096 → u = u' := by
  have hentry : (slot bootedKernel.phys.mem bootedKernel.kernelTable 0).getLsbD 2 = false := by
    rw [show slot bootedKernel.phys.mem bootedKernel.kernelTable 0 = 0x2003 from read64_write64 ..]
    decide
  exact ⟨bootedKernel_noProcess, hentry,
    (processes_isolated bootedKernel bootedKernel_noProcess hentry _).2.1⟩

end SuiraBox.Exec
