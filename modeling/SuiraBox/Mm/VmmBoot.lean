/-
# The tables the kernel boots with

`boot/boot.S` builds three page tables and `vmm_init` of `kernel/mm/vmm.c` hangs
three more into them, all of them static.  One of these, `bootstrap_pd`, is hung
into two slots: under `bootstrap_high_pdpt` for the addresses from 8000000000h on
and, if the slot is empty, under `pdpt` for those from 4000000000h on.  Boot
leaves that slot empty, so two ranges of 1 GiB share their page tables.

All other tables form a tree (`bootPaths` leaves out the second way to
`bootstrap_pd`), and `home` takes an address of the lower range to its twin in the
upper one.  A call therefore changes the translation of another page in one case
only: when it succeeds on a page of one of the two ranges.
-/

import SuiraBox.Mm.Vmm

namespace SuiraBox.Mm

open ByteMem Forest Runs

/-- The static tables: `pml4`, `pdpt` and `pd` of `boot.S`, and those of `vmm.c`. -/
inductive StaticTable
  | pml4
  | pdpt
  | pd
  | bootstrapPd
  | bootstrapPt
  | bootstrapHighPdpt
  deriving DecidableEq

/-- Where the linker has put them: in pages of their own below 4 GiB, the three
tables of `boot.S` one after the other. -/
structure StaticTables where
  address : StaticTable → U64
  aligned : ∀ t, (address t).toNat % 4096 = 0
  low : ∀ t, (address t).toNat < 2 ^ 32
  ne_zero : ∀ t, address t ≠ 0
  injective : Function.Injective address
  pdpt_eq : (address .pdpt).toNat = (address .pml4).toNat + 4096
  pd_eq : (address .pd).toNat = (address .pml4).toNat + 8192

/-- The loop of `boot.S` over the 2 MiB pages, `n` rounds. -/
def largePages (m : Mem) (pd : ℕ) : ℕ → Mem
  | 0 => m
  | n + 1 => setSlot (largePages m pd n) pd n (BitVec.ofNat 64 (0x83 + 0x200000 * n))

/-- The page tables that `_start` builds. -/
def startTables (T : StaticTables) (m : Mem) : Mem :=
  let m := zeroSlots m (T.address .pml4).toNat (3 * 512)
  let m := setSlot m (T.address .pml4).toNat 0 (T.address .pdpt ||| 3)
  let m := setSlot m (T.address .pdpt).toNat 0 (T.address .pd ||| 3)
  largePages m (T.address .pd).toNat 512

/-- The state of `vmm.c`, with memory and allocator. -/
structure VmmState where
  bootstrapReady : Bool
  phys : Phys

/-- The loop of `vmm_init`, `n` rounds. -/
def clearBootstrap (T : StaticTables) (m : Mem) : ℕ → Mem
  | 0 => m
  | n + 1 =>
    let m := setSlot (clearBootstrap T m n) (T.address .bootstrapPd).toNat n 0
    let m := setSlot m (T.address .bootstrapPt).toNat n 0
    setSlot m (T.address .bootstrapHighPdpt).toNat n 0

/-- An entry of `vmm_init` for the table at `table`. -/
def bootstrapEntry (table : U64) : U64 := (table &&& entryAddrMask) ||| vmmPresent ||| vmmWritable

/-- `vmm_init`. -/
def vmmInit (T : StaticTables) (s : VmmState) : VmmState :=
  if s.bootstrapReady then s
  else
    let highPdptI := pdptIndex 0x0000008000000000
    let m := clearBootstrap T s.phys.mem 512
    let m := setSlot m (T.address .bootstrapPd).toNat 0 (bootstrapEntry (T.address .bootstrapPt))
    let m := setSlot m (T.address .bootstrapHighPdpt).toNat highPdptI
      (bootstrapEntry (T.address .bootstrapPd))
    let m := setSlot m (T.address .pml4).toNat 1 (bootstrapEntry (T.address .bootstrapHighPdpt))
    let legacyPdptI := pdptIndex 0x0000004000000000
    let m :=
      if slot m (T.address .pdpt).toNat legacyPdptI &&& vmmPresent = 0 then
        setSlot m (T.address .pdpt).toNat legacyPdptI (bootstrapEntry (T.address .bootstrapPd))
      else m
    ⟨true, { s.phys with mem := m }⟩

/-- A call into `vmm.c` after the boot. -/
inductive VmmOp
  | init
  | call (c : VmmCall)

/-- One such call; what it returns is of no interest here. -/
def vmmOpStep (T : StaticTables) (s : VmmState) : VmmOp → Unit × VmmState
  | .init => ((), vmmInit T s)
  | .call c => ((), { s with phys := (vmmStep (T.address .pml4) s.phys c).2 })

variable {T : StaticTables} {m m' : Mem} {σ σ' : Phys} {a a' : PageSets} {p q : List ℕ}
  {f t i j n : ℕ} {va pa flags : U64}

/-! ### The slots after `vmm_init` -/

theorem StaticTables.slot_setSlot (T : StaticTables) (m : Mem) (k k' : StaticTable) (hi : i < 512)
    (hj : j < 512) (e : U64) :
    slot (setSlot m (T.address k).toNat i e) (T.address k').toNat j =
      if k' = k ∧ j = i then e else slot m (T.address k').toNat j := by
  split_ifs with h
  · rw [h.1, h.2, Mm.slot_setSlot]
  · refine slot_setSlot_of_ne (T.aligned k) (T.aligned k') hi hj fun heq => h ?_
    obtain ⟨htable, hindex⟩ := Prod.mk.inj heq
    exact ⟨T.injective (BitVec.eq_of_toNat_eq htable), hindex⟩

theorem StaticTables.slot_largePages (T : StaticTables) (m : Mem) (k : StaticTable) (hj : j < 512)
    (hn : n ≤ 512) :
    slot (largePages m (T.address .pd).toNat n) (T.address k).toNat j =
      if k = .pd ∧ j < n then BitVec.ofNat 64 (0x83 + 0x200000 * j)
      else slot m (T.address k).toNat j := by
  induction n with
  | zero => rw [largePages, if_neg (by omega)]
  | succ n ih =>
    rw [largePages, T.slot_setSlot _ _ _ (by omega) hj, ih (by omega)]
    rcases eq_or_ne k .pd with rfl | hk
    · simp only [true_and]
      rcases eq_or_ne j n with rfl | hne
      · rw [if_pos rfl, if_pos (Nat.lt_succ_self j)]
      · rw [if_neg hne]
        exact if_congr (by omega) rfl rfl
    · rw [if_neg fun h => hk h.1, if_neg fun h => hk h.1, if_neg fun h => hk h.1]

/-- The loop of `vmm_init` clears the slots of its three tables. -/
theorem StaticTables.slot_clearBootstrap (T : StaticTables) (m : Mem) (k : StaticTable)
    (hj : j < 512) (hn : n ≤ 512) :
    slot (clearBootstrap T m n) (T.address k).toNat j =
      if (k = .bootstrapPd ∨ k = .bootstrapPt ∨ k = .bootstrapHighPdpt) ∧ j < n then 0
      else slot m (T.address k).toNat j := by
  induction n with
  | zero => rw [clearBootstrap, if_neg (by omega)]
  | succ n ih =>
    rw [clearBootstrap, T.slot_setSlot _ _ _ (by omega) hj, T.slot_setSlot _ _ _ (by omega) hj,
      T.slot_setSlot _ _ _ (by omega) hj, ih (by omega)]
    rcases eq_or_ne j n with rfl | hne
    · cases k <;> simp
    · rw [if_neg fun h => hne h.2, if_neg fun h => hne h.2, if_neg fun h => hne h.2]
      exact if_congr (and_congr_right fun _ => by omega) rfl rfl

/-- The entries that boot and `vmm_init` write. -/
theorem StaticTables.or_three (T : StaticTables) (k : StaticTable) :
    T.address k ||| 3 = bootstrapEntry (T.address k) := by
  have hlow := T.low k
  have hpage : T.address k &&& entryAddrMask = T.address k :=
    tableFromEntry_page (T.aligned k) (by omega)
  rw [bootstrapEntry, hpage, BitVec.or_assoc, show vmmPresent ||| vmmWritable = (3 : U64)
    from by decide]

/-- The tables as `_start` leaves them. -/
theorem startTables_slot (T : StaticTables) (m : Mem) (hj : j < 512) :
    slot (startTables T m) (T.address .pml4).toNat j =
      (if j = 0 then bootstrapEntry (T.address .pdpt) else 0) ∧
    slot (startTables T m) (T.address .pdpt).toNat j =
      (if j = 0 then bootstrapEntry (T.address .pd) else 0) ∧
    slot (startTables T m) (T.address .pd).toNat j = BitVec.ofNat 64 (0x83 + 0x200000 * j) := by
  have hzero : ∀ x, x / 8 * 8 = x → (T.address .pml4).toNat ≤ x →
      x + 8 ≤ (T.address .pml4).toNat + 12288 →
      read64 (zeroSlots m (T.address .pml4).toNat (3 * 512)) x = 0 := fun x _ h₁ h₂ =>
    read64_eq_zero fun y _ _ => by
      rw [zeroSlots_apply, if_pos]
      omega
  have haligned := T.aligned .pml4
  have hpdpt := T.pdpt_eq
  have hpd := T.pd_eq
  rw [startTables]
  simp only [T.slot_largePages _ _ hj (le_refl 512),
    T.slot_setSlot _ _ _ (show 0 < 512 by decide) hj,
    T.or_three, reduceCtorEq, false_and, true_and, if_false, hj, if_true]
  refine ⟨if_congr Iff.rfl rfl (hzero _ ?_ ?_ ?_), if_congr Iff.rfl rfl (hzero _ ?_ ?_ ?_), trivial⟩
  all_goals omega

/-- The table below a slot after `vmm_init`. -/
def staticChild : StaticTable → ℕ → Option StaticTable
  | .pml4, 0 => some .pdpt
  | .pml4, 1 => some .bootstrapHighPdpt
  | .pdpt, 0 => some .pd
  | .pdpt, 256 => some .bootstrapPd
  | .bootstrapHighPdpt, 0 => some .bootstrapPd
  | .bootstrapPd, 0 => some .bootstrapPt
  | _, _ => none

/-- The machine after `vmm_init`. -/
def bootedVmm (T : StaticTables) (m : Mem) (pmm : Pmm) : VmmState :=
  vmmInit T ⟨false, ⟨startTables T m, pmm⟩⟩

/-- The slots after `vmm_init`: an entry for each child, large pages in `pd`, and
nothing else. -/
theorem bootedVmm_slot (T : StaticTables) (m : Mem) (pmm : Pmm) (k : StaticTable) (hj : j < 512) :
    slot (bootedVmm T m pmm).phys.mem (T.address k).toNat j =
      match staticChild k j with
      | some c => bootstrapEntry (T.address c)
      | none => if k = .pd then BitVec.ofNat 64 (0x83 + 0x200000 * j) else 0 := by
  have hhigh : pdptIndex 0x0000008000000000 = 0 := by decide
  have hlegacy : pdptIndex 0x0000004000000000 = 256 := by decide
  -- the slot of `pdpt` that `vmm_init` looks at is empty
  have hempty : ∀ {j}, j < 512 → j ≠ 0 →
      slot (clearBootstrap T (startTables T m) 512) (T.address .pdpt).toNat j = 0 := by
    intro j hj hne
    rw [T.slot_clearBootstrap _ _ hj le_rfl, if_neg (by simp), (startTables_slot T m hj).2.1,
      if_neg hne]
  rw [bootedVmm, vmmInit, if_neg (by simp)]
  dsimp only
  have h0 : 0 < 512 := by decide
  have h1 : 1 < 512 := by decide
  have h256 : 256 < 512 := by decide
  rw [hhigh, hlegacy, if_pos]
  · obtain ⟨hpml4, hpdpt, hpd⟩ := startTables_slot T m hj
    rw [T.slot_setSlot _ _ _ h256 hj, T.slot_setSlot _ _ _ h1 hj, T.slot_setSlot _ _ _ h0 hj,
      T.slot_setSlot _ _ _ h0 hj, T.slot_clearBootstrap _ _ hj le_rfl]
    cases k with
    | pml4 =>
      rw [hpml4]
      rcases j with _ | _ | j
      · simp [staticChild]
      · simp [staticChild]
      · simp [staticChild]
    | pdpt =>
      rw [hpdpt]
      rcases eq_or_ne j 256 with rfl | hne
      · simp [staticChild]
      · rcases eq_or_ne j 0 with rfl | hne'
        · simp [staticChild]
        · simp [staticChild, hne, hne']
    | pd =>
      rw [hpd]
      simp [staticChild]
    | bootstrapPd =>
      rcases j with _ | j
      · simp [staticChild]
      · simp [staticChild, hj]
    | bootstrapPt => simp [staticChild, hj]
    | bootstrapHighPdpt =>
      rcases j with _ | j
      · simp [staticChild]
      · simp [staticChild, hj]
  · rw [T.slot_setSlot _ _ _ h1 h256, T.slot_setSlot _ _ _ h0 h256, T.slot_setSlot _ _ _ h0 h256]
    simp only [reduceCtorEq, false_and, if_false]
    rw [hempty h256 (by decide)]
    exact BitVec.zero_and

/-! ### The tree and the second way into it -/

/-- The tables without the second way to `bootstrap_pd`. -/
def bootPaths : TablePaths where
  path p := allTables.path p ∧ ¬ [0, 256] <+: p
  nil := ⟨allTables.nil, by simp⟩
  closed :=
    fun {p i} h => ⟨allTables.closed h.1, fun hp => h.2 (hp.trans (List.prefix_append p [i]))⟩
  lt h := allTables.lt h.1
  short h := h.1.1

/-- The machine in a state where the tables of `vmm_init` hang where it has put
them: all tables form a tree, but for the second way to `bootstrap_pd`. -/
structure Booted (T : StaticTables) (σ : Phys) (a : PageSets) : Prop where
  tree : Tree bootPaths (T.address .pml4).toNat σ a
  child : ∀ {k c j}, (k, j) ∈ [(.pml4, 0), (.pml4, 1), (.pdpt, 256), (.bootstrapHighPdpt, 0)] →
    staticChild k j = some c →
      smallTable σ.mem (T.address k).toNat j = some (T.address c).toNat

/-- The paths of the static tables. -/
def staticPath : StaticTable → List ℕ
  | .pml4 => []
  | .pdpt => [0]
  | .pd => [0, 0]
  | .bootstrapHighPdpt => [1]
  | .bootstrapPd => [1, 0]
  | .bootstrapPt => [1, 0, 0]

/-- An entry of `vmm_init` is one that `ensure_table` would write. -/
theorem bootstrapEntry_eq (page : U64) : bootstrapEntry page = tableEntry page vmmWritable := by
  rw [bootstrapEntry, tableEntry,
    show vmmWritable &&& (vmmWritable ||| vmmUser) = vmmWritable from by decide]

/-- An entry of `vmm_init` leads to its table and is no large page. -/
theorem bootstrapEntry_spec (T : StaticTables) (k : StaticTable) :
    tableFromEntry (bootstrapEntry (T.address k)) = T.address k ∧
      (bootstrapEntry (T.address k)).getLsbD 0 = true ∧
      (bootstrapEntry (T.address k)).getLsbD 7 = false := by
  have hlow := T.low k
  obtain ⟨htarget, hpresent, hsmall, -⟩ :=
    tableEntry_spec vmmWritable (T.aligned k) (by omega : (T.address k).toNat < 2 ^ 52)
  rw [bootstrapEntry_eq]
  exact ⟨htarget, hpresent, hsmall⟩

/-- The entries of `pd` are large pages. -/
theorem largeEntry_spec (n : ℕ) :
    (BitVec.ofNat 64 (0x83 + 0x200000 * n)).getLsbD 7 = true := by
  rw [BitVec.getLsbD_ofNat, Nat.testBit_eq_decide_div_mod_eq]
  simp
  omega

/-- Below a table after `vmm_init` are its children. -/
theorem bootedVmm_subTable (T : StaticTables) (m : Mem) (pmm : Pmm) (k : StaticTable) (hj : j < 512)
    (h : subTable (T.address .pml4).toNat (bootedVmm T m pmm).phys.mem (T.address k).toNat j =
      some f) :
    ∃ c, staticChild k j = some c ∧ f = (T.address c).toNat := by
  rw [subTable, bootedVmm_slot T m pmm k hj, subTarget_eq_some] at h
  obtain ⟨hpresent, hsmall, htarget⟩ := h
  rcases hc : staticChild k j with _ | c
  · exfalso
    rw [hc] at hpresent hsmall
    dsimp only at hpresent hsmall
    split_ifs at hpresent hsmall with hk
    · rcases hsmall with hroot | hsmall
      · rw [hk] at hroot
        exact absurd (T.injective (BitVec.eq_of_toNat_eq hroot)) (by simp)
      · rw [largeEntry_spec] at hsmall
        exact absurd hsmall (by simp)
    · exact absurd hpresent (by simp)
  · rw [hc] at htarget
    dsimp only at htarget
    rw [(bootstrapEntry_spec T c).1] at htarget
    exact ⟨c, rfl, htarget.symm⟩

/-- The tables of the tree are the static tables on their paths. -/
theorem bootedVmm_tables (T : StaticTables) (m : Mem) (pmm : Pmm)
    (hf : HasTable bootPaths (T.address .pml4).toNat (bootedVmm T m pmm).phys.mem p f) :
    ∃ k, p = staticPath k ∧ f = (T.address k).toNat := by
  induction p using List.reverseRecOn generalizing f with
  | nil => exact ⟨.pml4, rfl, hasTable_nil.1 hf⟩
  | append_singleton p j ih =>
    obtain ⟨hp, t, ht, hstep⟩ := hasTable_concat.1 hf
    obtain ⟨k, rfl, rfl⟩ := ih ht
    obtain ⟨c, hc, rfl⟩ := bootedVmm_subTable T m pmm k (bootPaths.lt hp) hstep
    refine ⟨c, ?_, rfl⟩
    unfold staticChild at hc
    split at hc
    · obtain rfl := Option.some.inj hc
      rfl
    · obtain rfl := Option.some.inj hc
      rfl
    · obtain rfl := Option.some.inj hc
      rfl
    · -- the second way
      exact absurd (List.prefix_refl _) hp.2
    · obtain rfl := Option.some.inj hc
      rfl
    · obtain rfl := Option.some.inj hc
      rfl
    · exact absurd hc (by simp)

/-- A child is hung in by an entry that is no large page. -/
theorem bootedVmm_smallTable (T : StaticTables) (m : Mem) (pmm : Pmm) {k c : StaticTable}
    (hj : j < 512) (hc : staticChild k j = some c) :
    smallTable (bootedVmm T m pmm).phys.mem (T.address k).toNat j = some (T.address c).toNat := by
  rw [smallTable_eq_some, bootedVmm_slot T m pmm k hj, hc]
  obtain ⟨htarget, hpresent, hsmall⟩ := bootstrapEntry_spec T c
  exact ⟨hpresent, hsmall, congrArg BitVec.toNat htarget⟩

/-- **The machine after `vmm_init`.** -/
theorem bootedVmm_booted (T : StaticTables) (m : Mem) {pmm : Pmm}
    (hr : Refines bootstrapLimit pmm a) (htaken : ∀ k, (T.address k).toNat / 4096 ∉ a.free) :
    Booted T (bootedVmm T m pmm).phys a := by
  have hpmm : (bootedVmm T m pmm).phys.pmm = pmm := by
    rw [bootedVmm, vmmInit, if_neg (by simp)]
  refine ⟨⟨by rw [hpmm]; exact hr, T.aligned .pml4, fun hf hg => ⟨rfl, ?_⟩, fun hf => ?_⟩, ?_⟩
  · obtain ⟨k, rfl, rfl⟩ := bootedVmm_tables T m pmm hf
    obtain ⟨k', rfl, haddr⟩ := bootedVmm_tables T m pmm hg
    rw [T.injective (BitVec.eq_of_toNat_eq haddr)]
  · obtain ⟨k, -, rfl⟩ := bootedVmm_tables T m pmm hf
    exact htaken k
  · intro k c j hmem hc
    refine bootedVmm_smallTable T m pmm ?_ hc
    simp only [List.mem_cons, Prod.mk.injEq, List.not_mem_nil, or_false] at hmem
    omega

/-! ### Twins -/

/-- The lower of the two ranges that share their tables. -/
def LowShared (va : U64) : Prop := pml4Index va = 0 ∧ pdptIndex va = 256

/-- The upper one. -/
def HighShared (va : U64) : Prop := pml4Index va = 1 ∧ pdptIndex va = 0

instance (va : U64) : Decidable (LowShared va) := inferInstanceAs (Decidable (_ ∧ _))

/-- An address of the lower range taken to the upper one. -/
def home (va : U64) : U64 := if LowShared va then va + 0x4000000000 else va

/-- Other addresses stay where they are. -/
theorem home_of_not {va : U64} (h : ¬ LowShared va) : home va = va := if_neg h

/-- The two ranges are `2 ^ 38` bytes apart. -/
theorem toNat_home (h : LowShared va) : (home va).toNat = va.toNat + 2 ^ 38 := by
  have hlt := va.isLt
  obtain ⟨h₄, h₃⟩ := h
  rw [pml4Index, toNat_index] at h₄
  rw [pdptIndex, toNat_index] at h₃
  rw [home,
    if_pos ⟨by rw [pml4Index, toNat_index]; exact h₄, by rw [pdptIndex, toNat_index]; exact h₃⟩,
    BitVec.toNat_add, show (0x4000000000 : U64).toNat = 2 ^ 38 from rfl]
  omega

/-- An address and its home differ in the upper two indices only. -/
theorem home_indices (h : LowShared va) : pml4Index (home va) = 1 ∧ pdptIndex (home va) = 0 ∧
    pdIndex (home va) = pdIndex va ∧ ptIndex (home va) = ptIndex va := by
  have hhome := toNat_home h
  obtain ⟨h₄, h₃⟩ := h
  rw [pml4Index, toNat_index] at h₄
  rw [pdptIndex, toNat_index] at h₃
  simp only [pml4Index, pdptIndex, pdIndex, ptIndex, toNat_index, hhome]
  omega

/-- A home is not in the lower range. -/
theorem not_lowShared_home (va : U64) : ¬ LowShared (home va) := by
  by_cases h : LowShared va
  · rintro ⟨h₄, -⟩
    rw [(home_indices h).1] at h₄
    exact absurd h₄ (by decide)
  · rw [home_of_not h]
    exact h

/-- The tables of a home are in the tree. -/
theorem bootPaths_home (va : U64) : bootPaths.path (tablePathOf (home va)) := by
  refine ⟨allTables_tablePathOf _, fun hpre => not_lowShared_home va ?_⟩
  obtain ⟨h₄, hpre⟩ := List.cons_prefix_cons.1 hpre
  obtain ⟨h₃, -⟩ := List.cons_prefix_cons.1 hpre
  exact ⟨h₄.symm, h₃.symm⟩

/-- What `vmm_translate` does from the third level on. -/
def pdTranslate (m : Mem) (pd : ℕ) (va : U64) : U64 :=
  let e2 := slot m pd (pdIndex va)
  if e2 &&& vmmPresent = 0 then 0
  else if e2 &&& entryLarge ≠ 0 then (e2 &&& 0x000FFFFFFFE00000) ||| (va &&& 0x1FFFFF)
  else
    let e1 := slot m (tableFromEntry e2).toNat (ptIndex va)
    if e1 &&& vmmPresent = 0 then 0
    else (e1 &&& entryAddrMask) ||| (va &&& 0xFFF)

/-- Translation behind two tables that are there. -/
theorem vmmTranslate_pd {pml4 va : U64} {t₃ t₂ : ℕ}
    (h₄ : smallTable m pml4.toNat (pml4Index va) = some t₃)
    (h₃ : smallTable m t₃ (pdptIndex va) = some t₂) :
    vmmTranslate m pml4 va = pdTranslate m t₂ va := by
  obtain ⟨hp₄, -, rfl⟩ := smallTable_eq_some.1 h₄
  obtain ⟨hp₃, hs₃, rfl⟩ := smallTable_eq_some.1 h₃
  rw [vmmTranslate]
  refine (if_neg ((present_iff _).2 hp₄)).trans ?_
  refine (if_neg ((present_iff _).2 hp₃)).trans ?_
  exact if_neg (not_not.2 ((small_iff _).2 hs₃))

/-- From the third level on an address and its home are the same. -/
theorem pdTranslate_home (h : LowShared va) : pdTranslate m t (home va) = pdTranslate m t va := by
  obtain ⟨-, -, hpd, hpt⟩ := home_indices h
  have hmask : ∀ n ≤ 30, home va &&& BitVec.ofNat 64 (2 ^ n - 1) =
      va &&& BitVec.ofNat 64 (2 ^ n - 1) := by
    intro n hn
    apply BitVec.eq_of_toNat_eq
    rw [Words.toNat_and_low _ (by omega), Words.toNat_and_low _ (by omega), toNat_home h,
      show 38 = n + (38 - n) by omega, Nat.pow_add, Nat.add_mul_mod_self_left]
  rw [pdTranslate, pdTranslate, hpd, hpt]
  have h21 : home va &&& 0x1FFFFF = va &&& 0x1FFFFF := hmask 21 (by decide)
  have h12 : home va &&& 0xFFF = va &&& 0xFFF := hmask 12 (by decide)
  rw [h21, h12]

/-- The two ways to `bootstrap_pd`. -/
theorem Booted.ways (h : Booted T σ a) :
    smallTable σ.mem (T.address .pml4).toNat 0 = some (T.address .pdpt).toNat ∧
    smallTable σ.mem (T.address .pdpt).toNat 256 = some (T.address .bootstrapPd).toNat ∧
    smallTable σ.mem (T.address .pml4).toNat 1 = some (T.address .bootstrapHighPdpt).toNat ∧
    smallTable σ.mem (T.address .bootstrapHighPdpt).toNat 0 = some (T.address .bootstrapPd).toNat :=
  ⟨h.child (by simp) rfl, h.child (by simp) rfl, h.child (by simp) rfl, h.child (by simp) rfl⟩

/-- **Twins translate the same.** -/
theorem Booted.translate_home (h : Booted T σ a) (x : U64) :
    vmmTranslate σ.mem (T.address .pml4) x = vmmTranslate σ.mem (T.address .pml4) (home x) := by
  by_cases hx : LowShared x
  · obtain ⟨h₄, h₃, -, -⟩ := home_indices hx
    obtain ⟨hlow₄, hlow₃, hhigh₄, hhigh₃⟩ := h.ways
    rw [← hx.1] at hlow₄
    rw [← hx.2] at hlow₃
    rw [← h₄] at hhigh₄
    rw [← h₃] at hhigh₃
    rw [vmmTranslate_pd hlow₄ hlow₃, vmmTranslate_pd hhigh₄ hhigh₃, pdTranslate_home hx]
  · rw [home_of_not hx]

/-! ### Calls keep the tables in place -/

/-- A table that hangs in a table of the tree. -/
theorem HasTable.below {S : TablePaths} {root : ℕ} (ht : HasTable S root m p t)
    (hp : S.path (p ++ [i])) (h : smallTable m t i = some f) : HasTable S root m (p ++ [i]) f := by
  obtain ⟨hpresent, hsmall, htarget⟩ := smallTable_eq_some.1 h
  exact hasTable_concat.2 ⟨hp, t, ht, subTarget_eq_some.2 ⟨hpresent, Or.inr hsmall, htarget⟩⟩

/-- The tables of the two ways are in the tree. -/
theorem Booted.tables (h : Booted T σ a) :
    HasTable bootPaths (T.address .pml4).toNat σ.mem [] (T.address .pml4).toNat ∧
    HasTable bootPaths (T.address .pml4).toNat σ.mem [0] (T.address .pdpt).toNat ∧
    HasTable bootPaths (T.address .pml4).toNat σ.mem [1] (T.address .bootstrapHighPdpt).toNat ∧
    HasTable bootPaths (T.address .pml4).toNat σ.mem [1, 0] (T.address .bootstrapPd).toNat := by
  obtain ⟨hlow₄, -, hhigh₄, hhigh₃⟩ := h.ways
  have hroot : HasTable bootPaths (T.address .pml4).toNat σ.mem [] (T.address .pml4).toNat :=
    hasTable_nil.2 rfl
  have hhigh := hroot.below (i := 1) ⟨⟨by decide, by decide⟩, by simp⟩ hhigh₄
  exact ⟨hroot, hroot.below (i := 0) ⟨⟨by decide, by decide⟩, by simp⟩ hlow₄, hhigh,
    hhigh.below (i := 0) ⟨⟨by decide, by decide⟩, by simp⟩ hhigh₃⟩

/-- The slots of the two ways are in tables above the last level. -/
theorem Booted.slot_table (h : Booted T σ a) {k : StaticTable}
    (hmem : (k, j) ∈ [(StaticTable.pml4, 0), (.pml4, 1), (.pdpt, 256), (.bootstrapHighPdpt, 0)]) :
    j < 512 ∧ ∃ p, p.length < 3 ∧
      HasTable bootPaths (T.address .pml4).toNat σ.mem p (T.address k).toNat := by
  obtain ⟨hroot, hpdpt, hhigh, -⟩ := h.tables
  simp only [List.mem_cons, Prod.mk.injEq, List.not_mem_nil, or_false] at hmem
  rcases hmem with ⟨rfl, rfl⟩ | ⟨rfl, rfl⟩ | ⟨rfl, rfl⟩ | ⟨rfl, rfl⟩
  · exact ⟨by decide, [], by decide, hroot⟩
  · exact ⟨by decide, [], by decide, hroot⟩
  · exact ⟨by decide, [0], by decide, hpdpt⟩
  · exact ⟨by decide, [1], by decide, hhigh⟩

/-- An entry that has been raised points where it did. -/
theorem Raises.smallTable_eq {S : TablePaths} {root : ℕ} (h : Raises S root flags m m')
    (ht : HasTable S root m p t) (hj : j < 512) (hsmall : smallTable m t j = some f) :
    smallTable m' t j = some f := by
  obtain ⟨hpresent, hs, htarget⟩ := smallTable_eq_some.1 hsmall
  have hentry := h.entry ht.path hj
  rw [ht.entries_eq, (h.keep ht).entries_eq] at hentry
  rw [smallTable_eq_some]
  rcases hentry with heq | ⟨-, hraised⟩
  · rw [heq]
    exact ⟨hpresent, hs, htarget⟩
  · generalize slot m t j = e at hpresent hs htarget hraised
    generalize slot m' t j = e' at hraised
    cases hraised with
    | there =>
      obtain ⟨htarget', hbits⟩ := raise_bits flags e
      rw [hbits, hbits, htarget', hpresent, hs]
      exact ⟨rfl, by simp, htarget⟩
    | new habsent => exact absurd (habsent.symm.trans hpresent) (by simp)

/-- Raising entries leaves the tables in place, and keeps every translation. -/
theorem Booted.raises (h : Booted T σ a) (htree : Tree bootPaths (T.address .pml4).toNat σ' a')
    (hr : Raises bootPaths (T.address .pml4).toNat flags σ.mem σ'.mem) :
    Booted T σ' a' ∧ ∀ x, vmmTranslate σ'.mem (T.address .pml4) x =
      vmmTranslate σ.mem (T.address .pml4) x := by
  have h' : Booted T σ' a' := by
    refine ⟨htree, fun hmem hc => ?_⟩
    obtain ⟨hj, p, -, ht⟩ := h.slot_table hmem
    exact hr.smallTable_eq ht hj (h.child hmem hc)
  refine ⟨h', fun x => ?_⟩
  rw [h'.translate_home x, hr.vmmTranslate_eq (bootPaths_home x), ← h.translate_home x]

/-- Writing a leaf leaves the tables in place, and changes the translation of the
leaf's page and its twin only. -/
theorem Booted.setLeaf (h : Booted T σ a)
    (ht : HasTable bootPaths (T.address .pml4).toNat σ.mem (tablePathOf va) t)
    (hway : SmallWay (T.address .pml4).toNat σ.mem (tablePathOf va)) (e : U64) :
    Booted T { σ with mem := setSlot σ.mem t (ptIndex va) e } a ∧
      ∀ x, pathOf (home x) ≠ pathOf va →
        vmmTranslate (setSlot σ.mem t (ptIndex va) e) (T.address .pml4) x =
          vmmTranslate σ.mem (T.address .pml4) x := by
  obtain ⟨htree, -, -, hother, -⟩ := h.tree.setLeaf ht hway e
  have h' : Booted T { σ with mem := setSlot σ.mem t (ptIndex va) e } a := by
    refine ⟨htree, fun {k c j} hmem hc => ?_⟩
    obtain ⟨hj, p, hlen, htable⟩ := h.slot_table hmem
    have hne : ((T.address k).toNat, j) ≠ (t, ptIndex va) := by
      intro heq
      obtain ⟨heq, -⟩ := Prod.mk.inj heq
      rw [(h.tree.page_unique htable ht (by rw [heq])).1] at hlen
      exact absurd hlen (by simp [tablePathOf])
    have hlt : ptIndex va < 512 := index_lt ..
    rw [smallTable, slot_setSlot_of_ne (h.tree.table_aligned ht) (T.aligned k) hlt hj hne]
    exact h.child hmem hc
  refine ⟨h', fun x hx => ?_⟩
  rw [h'.translate_home x, h.translate_home x, vmmTranslate_eq, vmmTranslate_eq,
    hother (home x) (bootPaths_home x) hx]

/-- `ensure_table` on an entry that is there. -/
theorem Booted.ensure (h : Booted T σ a) {table next : U64}
    (ht : HasTable bootPaths (T.address .pml4).toNat σ.mem q table.toNat) (hlen : q.length < 3)
    (hi : i < 512) (hnext : smallTable σ.mem table.toNat i = some next.toNat) (flags : U64) :
    (ensureTable σ table i flags).1 = next ∧ Booted T (ensureTable σ table i flags).2 a ∧
      (∀ x, vmmTranslate (ensureTable σ table i flags).2.mem (T.address .pml4) x =
        vmmTranslate σ.mem (T.address .pml4) x) ∧
      (ensureTable σ table i flags).2.pmm = σ.pmm ∧
      ∀ {p j}, bootPaths.path p → j < 512 → q.length < p.length →
        entries (T.address .pml4).toNat (ensureTable σ table i flags).2.mem p j =
          entries (T.address .pml4).toNat σ.mem p j := by
  obtain ⟨hpresent, hsmall, htarget⟩ := smallTable_eq_some.1 hnext
  have hraised : Raised flags (slot σ.mem table.toNat i)
      (slot σ.mem table.toNat i ||| (flags &&& (vmmWritable ||| vmmUser))) := .there hpresent hsmall
  obtain ⟨htree, hsame, hset⟩ := h.tree.set ht hi
    (e := slot σ.mem table.toNat i ||| (flags &&& (vmmWritable ||| vmmUser)))
    fun _ => subTarget_raise flags _
  rw [ensureTable_there hpresent hsmall]
  have hr : Raises bootPaths (T.address .pml4).toNat flags σ.mem (setSlot σ.mem table.toNat i
      (slot σ.mem table.toNat i ||| (flags &&& (vmmWritable ||| vmmUser)))) := by
    refine ⟨(hsame _ _).2, fun {p j} hp hj => ?_⟩
    rcases Classical.em (p = q ∧ j = i) with hat | hne
    · refine Or.inr ⟨by rw [hat.1]; exact hlen, ?_⟩
      rw [(hset hp hj).1 hat, hat.1, hat.2, ht.entries_eq]
      exact hraised
    · exact Or.inl ((hset hp hj).2 hne)
  obtain ⟨hbooted, hsame'⟩ := h.raises htree hr
  refine ⟨BitVec.eq_of_toNat_eq htarget, hbooted, hsame', rfl, fun hp hj hlt => (hset hp hj).2 ?_⟩
  rintro ⟨rfl, -⟩
  exact lt_irrefl _ hlt

/-- Both ways lead to `bootstrap_pd`. -/
theorem Booted.walk_pd (h : Booted T σ a) :
    walk (smallTable σ.mem) (T.address .pml4).toNat [1, 0] = some (T.address .bootstrapPd).toNat ∧
    walk (smallTable σ.mem) (T.address .pml4).toNat [0, 256] =
      some (T.address .bootstrapPd).toNat := by
  obtain ⟨hlow₄, hlow₃, hhigh₄, hhigh₃⟩ := h.ways
  constructor
  · rw [walk, hhigh₄, Option.bind_some, walk, hhigh₃, Option.bind_some, walk]
  · rw [walk, hlow₄, Option.bind_some, walk, hlow₃, Option.bind_some, walk]

/-- No large page is on the way in the tree. -/
theorem Booted.smallWay (h : Booted T σ a) : SmallWay (T.address .pml4).toNat σ.mem [1, 0] :=
  ((walk_smallTable_iff h.tables.2.2.2.path).1 h.walk_pd.1).2

/-- The tables of a home, for an address of the lower range. -/
theorem tablePathOf_home (h : LowShared va) : tablePathOf (home va) = [1, 0, pdIndex va] := by
  obtain ⟨h₄, h₃, h₂, -⟩ := home_indices h
  rw [tablePathOf, h₄, h₃, h₂]

/-- An address and its home have the same slot in the last table. -/
theorem ptIndex_home (va : U64) : ptIndex (home va) = ptIndex va := by
  by_cases h : LowShared va
  · exact (home_indices h).2.2.2
  · rw [home_of_not h]

theorem toNat_home_mod (va : U64) : (home va).toNat % 4096 = va.toNat % 4096 := by
  by_cases h : LowShared va
  · rw [toNat_home h]
    omega
  · rw [home_of_not h]

/-- The way of an address of the lower range: two entries that are there, and then the tree below
`bootstrap_pd`. -/
theorem Booted.descent (h : Booted T σ a) (hlow : LowShared va) (flags : U64) :
    ∃ σ₂, Booted T σ₂ a ∧
      (∀ x, vmmTranslate σ₂.mem (T.address .pml4) x = vmmTranslate σ.mem (T.address .pml4) x) ∧
      σ₂.pmm = σ.pmm ∧
      (∀ {p j}, bootPaths.path p → j < 512 → 2 ≤ p.length →
        entries (T.address .pml4).toNat σ₂.mem p j = entries (T.address .pml4).toNat σ.mem p j) ∧
      ensurePath flags (tablePathOf va) (T.address .pml4) σ =
        ensurePath flags [pdIndex va] (T.address .bootstrapPd) σ₂ := by
  obtain ⟨hnext₁, h₁, hsame₁, hpmm₁, hkeep₁⟩ :=
    h.ensure h.tables.1 (by decide) (by decide) h.ways.1 flags
  obtain ⟨hnext₂, h₂, hsame₂, hpmm₂, hkeep₂⟩ :=
    h₁.ensure h₁.tables.2.1 (by decide) (by decide) h₁.ways.2.1 flags
  refine ⟨_, h₂, fun x => (hsame₂ x).trans (hsame₁ x), hpmm₂.trans hpmm₁, fun hp hj hlen => ?_, ?_⟩
  · exact (hkeep₂ hp hj hlen).trans (hkeep₁ hp hj (Nat.lt_of_succ_lt hlen))
  · rw [tablePathOf, hlow.1, hlow.2, ensurePath]
    dsimp only
    rw [hnext₁, if_neg (T.ne_zero .pdpt), ensurePath]
    dsimp only
    rw [hnext₂, if_neg (T.ne_zero .bootstrapPd)]

/-- The tables below `bootstrap_pd` are in the tree. -/
theorem pdPath (hlow : LowShared va) : bootPaths.path ([1, 0] ++ [pdIndex va]) := by
  have := bootPaths_home va
  rwa [tablePathOf_home hlow] at this

/-- **`vmm_map_page` after the boot**: it goes its way, which keeps every
translation, and then fails or sets the leaf in the tree. -/
theorem Booted.map (h : Booted T σ a) (va pa flags : U64) :
    ∃ σ' a', Booted T σ' a' ∧
      (∀ x, vmmTranslate σ'.mem (T.address .pml4) x = vmmTranslate σ.mem (T.address .pml4) x) ∧
      ((∃ rc : ℤ, rc ≠ 0 ∧ vmmMapPage σ (T.address .pml4) va pa flags = (rc, σ')) ∨
      va.toNat % 4096 = 0 ∧ pa.toNat % 4096 = 0 ∧
        ∃ t, AtLeaf bootPaths (T.address .pml4).toNat σ'.mem (home va) t ∧
        vmmMapPage σ (T.address .pml4) va pa flags =
          (0, { σ' with mem := setSlot σ'.mem t (ptIndex (home va)) (vmmLeaf pa flags) })) := by
  by_cases hlow : LowShared va
  · rw [vmmMapPage_eq]
    rcases Decidable.em (va &&& ~~~vmmPageMask ≠ 0 ∨ pa &&& ~~~vmmPageMask ≠ 0) with hbad | hok
    · rw [if_pos hbad]
      exact ⟨σ, a, h, fun _ => rfl, Or.inl ⟨-1, by decide, rfl⟩⟩
    rw [if_neg hok]
    rw [not_or, not_not, not_not, and_not_pageMask_iff, and_not_pageMask_iff] at hok
    obtain ⟨σ₂, h₂, hsame₂, -, -, hdescent⟩ := h.descent hlow flags
    obtain ⟨a', hw⟩ := ensurePath_way h₂.tree h₂.tables.2.2.2 (Or.inl (List.cons_ne_nil _ _))
      (pdPath hlow) flags
    rw [hdescent]
    generalize ensurePath flags [pdIndex va] (T.address .bootstrapPd) σ₂ = r at hw ⊢
    obtain ⟨h', hsame'⟩ := h₂.raises hw.tree (hw.raises (by simp))
    refine ⟨r.2, a', h', fun x => (hsame' x).trans (hsame₂ x), ?_⟩
    unfold mapLeaf
    split_ifs with hzero hpresent
    · exact Or.inl ⟨-1, by decide, rfl⟩
    · exact Or.inl ⟨-2, by decide, rfl⟩
    · obtain ⟨htable, hraised⟩ := hw.arrived hzero
      rw [present_iff, Bool.not_eq_true, ← ptIndex_home] at hpresent
      refine Or.inr ⟨hok.1, hok.2, r.1.toNat, ⟨?_, ?_, hpresent⟩, by rw [ptIndex_home]⟩
      · rw [tablePathOf_home hlow]
        exact htable
      · rw [tablePathOf_home hlow]
        intro p j hon
        have hon : OnWay [] ([1, 0] ++ [pdIndex va]) p j := hon
        rcases onWay_concat.1 hon with hon | ⟨rfl, rfl⟩
        · exact h'.smallWay p j hon
        · exact (hraised (Or.inl ⟨rfl, rfl⟩)).small
  · rw [home_of_not hlow]
    have hpath : bootPaths.path (tablePathOf va) := by
      have := bootPaths_home va
      rwa [home_of_not hlow] at this
    obtain ⟨σ', a', htree, hr, hcases⟩ := vmmMapPage_cases h.tree hpath pa flags
    obtain ⟨h', hsame⟩ := h.raises htree hr
    exact ⟨σ', a', h', hsame, hcases⟩

/-- Behind a table that is there, mapping goes on from it. -/
theorem mappable_smallTable {free : Finset ℕ} {leaf : ℕ} {path : List ℕ}
    (h : smallTable m t i = some f) (hne : f ≠ 0) :
    Mappable m free leaf t (i :: path) ↔ Mappable m free leaf f path := by
  obtain ⟨hpresent, hsmall, rfl⟩ := smallTable_eq_some.1 h
  rw [mappable_there hpresent, and_iff_right hsmall,
    and_iff_right fun hzero => hne (congrArg BitVec.toNat hzero)]

/-- **When `vmm_map_page` succeeds after the boot.** -/
theorem Booted.map_eq_zero_iff (h : Booted T σ a) (va pa flags : U64) :
    (vmmMapPage σ (T.address .pml4) va pa flags).1 = 0 ↔ CanMap (T.address .pml4) σ va pa := by
  by_cases hlow : LowShared va
  · obtain ⟨σ₂, h₂, -, hpmm, hkeep, hdescent⟩ := h.descent hlow flags
    have hne : ∀ k, (T.address k).toNat ≠ 0 :=
      fun k hzero => T.ne_zero k (BitVec.eq_of_toNat_eq hzero)
    have hpt : ptIndex va < 512 := index_lt ..
    obtain ⟨hlow₄, hlow₃, -, -⟩ := h.ways
    refine canMap_iff ?_
    rw [hdescent, mapLeaf_eq_zero_iff h₂.tree h₂.tables.2.2.2 (Or.inl (List.cons_ne_nil _ _))
      (pdPath hlow) hpt, hpmm, tablePathOf, hlow.1, hlow.2, mappable_smallTable hlow₄ (hne _),
      mappable_smallTable hlow₃ (hne _)]
    refine mappable_congr h.tables.2.2.2 h₂.tables.2.2.2 (pdPath hlow) fun p j hon => ?_
    have hlen := hon.length.1
    rcases onWay_concat.1 hon with hon | ⟨rfl, rfl⟩
    · have hp := hon.path (pdPath hlow)
      exact hkeep (bootPaths.closed hp) (bootPaths.lt hp) hlen
    · exact hkeep (pdPath hlow) hpt hlen
  · have hpath := bootPaths_home va
    rw [home_of_not hlow] at hpath
    exact vmmMapPage_eq_zero_iff h.tree hpath pa flags

/-- **`vmm_unmap_page` after the boot**: it does nothing, or clears the leaf in the
tree. -/
theorem Booted.unmap (h : Booted T σ a) (va : U64) :
    vmmUnmapPage σ (T.address .pml4) va = (none, σ) ∨
    va.toNat % 4096 = 0 ∧
      ∃ t, HasTable bootPaths (T.address .pml4).toNat σ.mem (tablePathOf (home va)) t ∧
      SmallWay (T.address .pml4).toNat σ.mem (tablePathOf (home va)) ∧
      (slot σ.mem t (ptIndex (home va))).getLsbD 0 = true ∧
      vmmUnmapPage σ (T.address .pml4) va =
        (some (slot σ.mem t (ptIndex (home va)) &&& entryAddrMask),
          { σ with mem := setSlot σ.mem t (ptIndex (home va)) 0 }) := by
  -- the two ways lead to the same table
  have hwalk : walk (smallTable σ.mem) (T.address .pml4).toNat (tablePathOf va) =
      walk (smallTable σ.mem) (T.address .pml4).toNat (tablePathOf (home va)) := by
    by_cases hlow : LowShared va
    · rw [tablePathOf_home hlow, tablePathOf, hlow.1, hlow.2]
      rw [show [0, 256, pdIndex va] = [0, 256] ++ [pdIndex va] from rfl,
        show [1, 0, pdIndex va] = [1, 0] ++ [pdIndex va] from rfl, walk_append, walk_append,
        h.walk_pd.1, h.walk_pd.2]
    · rw [home_of_not hlow]
  rcases eq_or_ne (va &&& ~~~vmmPageMask) 0 with halign | halign
  · have halign' : va.toNat % 4096 = 0 := (and_not_pageMask_iff va).1 halign
    have hhome : home va &&& ~~~vmmPageMask = 0 := by
      rw [and_not_pageMask_iff]
      rw [toNat_home_mod, halign']
    have heq : vmmUnmapPage σ (T.address .pml4) va = vmmUnmapPage σ (T.address .pml4)
        (home va) := by
      rw [vmmUnmapPage_eq, vmmUnmapPage_eq, hwalk, ptIndex_home, if_neg (not_not.2 halign),
        if_neg (not_not.2 hhome)]
    rw [heq]
    exact (vmmUnmapPage_cases σ (T.address .pml4) (bootPaths_home va)).imp_right
      fun hcase => ⟨halign', hcase.2⟩
  · rw [vmmUnmapPage_eq, if_pos halign]
    exact Or.inl rfl

/-! ### Independence -/

/-- The page a call is about. -/
def VmmCall.page : VmmCall → U64
  | .map va _ _ => va
  | .unmap va => va

/-- The call has done what it was asked for. -/
def Succeeds (pml4 : U64) (σ : Phys) : VmmCall → Prop
  | .map va pa flags => (vmmMapPage σ pml4 va pa flags).1 = 0
  | .unmap va => (vmmUnmapPage σ pml4 va).1 ≠ none

/-- The call can do what it is asked for. -/
def VmmCall.Possible (pml4 : U64) (σ : Phys) : VmmCall → Prop
  | .map va pa _ => CanMap pml4 σ va pa
  | .unmap va => CanUnmap pml4 σ va

/-- A call does what it can do. -/
theorem Booted.succeeds_iff (h : Booted T σ a) (call : VmmCall) :
    Succeeds (T.address .pml4) σ call ↔ call.Possible (T.address .pml4) σ := by
  cases call with
  | map va pa flags => exact h.map_eq_zero_iff va pa flags
  | unmap va => exact vmmUnmapPage_ne_none_iff σ (T.address .pml4) va

/-- The call changes the translation of no other page.  Pages are told apart by the
36 bits that the tables translate. -/
def Independent (pml4 : U64) (σ : Phys) (call : VmmCall) : Prop :=
  ∀ x : U64, x.toNat / 4096 % 2 ^ 36 ≠ call.page.toNat / 4096 % 2 ^ 36 →
    vmmTranslate (vmmStep pml4 σ call).2.mem pml4 x = vmmTranslate σ.mem pml4 x

/-- The page has a twin. -/
def HasTwin (va : U64) : Prop := LowShared va ∨ HighShared va

/-- A call that succeeds turns the leaf of its page, or of the page's twin, from
missing to present or back. -/
structure Turns (T : StaticTables) (σ σ' : Phys) (va : U64) : Prop where
  booted : ∃ a, Booted T σ' a
  other : ∀ x, pathOf (home x) ≠ pathOf (home va) →
    vmmTranslate σ'.mem (T.address .pml4) x = vmmTranslate σ.mem (T.address .pml4) x
  turned : ∀ x, pathOf (home x) = pathOf (home va) → x.toNat % 4096 = 1 →
    vmmTranslate σ'.mem (T.address .pml4) x ≠ vmmTranslate σ.mem (T.address .pml4) x

/-- The translation of a page and its twin is read off their leaf.  An address
inside the page tells a leaf that is there from none. -/
theorem Booted.translate_leaf (h : Booted T σ a)
    (ht : HasTable bootPaths (T.address .pml4).toNat σ.mem (tablePathOf va) t)
    (hway : SmallWay (T.address .pml4).toNat σ.mem (tablePathOf va)) {x : U64}
    (hx : pathOf (home x) = pathOf va) (hlow : x.toNat % 4096 = 1) :
    ((slot σ.mem t (ptIndex va)).getLsbD 0 = false →
      vmmTranslate σ.mem (T.address .pml4) x = 0) ∧
    ((slot σ.mem t (ptIndex va)).getLsbD 0 = true →
      vmmTranslate σ.mem (T.address .pml4) x ≠ 0) := by
  obtain ⟨hnone, hsome⟩ := hway.trail_eq ht.path
  rw [ht.entries_eq] at hnone hsome
  rw [h.translate_home x, vmmTranslate_eq, hx]
  constructor
  · intro habsent
    rw [hnone habsent]
    rfl
  · intro hpresent hzero
    obtain ⟨l, hl, htrail⟩ := hsome hpresent
    rw [htrail, Option.elim_some, physicalOf_leaf _ _ hl] at hzero
    have hnat := (toNat_physical (slot σ.mem t (ptIndex va)) (home x)).symm.trans
      (congrArg BitVec.toNat hzero)
    rw [toNat_home_mod, hlow] at hnat
    exact absurd hnat (by simp)

/-- Setting a leaf that was missing, or clearing one that was there, turns it. -/
theorem Booted.setLeaf_turns (h : Booted T σ a)
    (ht : HasTable bootPaths (T.address .pml4).toNat σ.mem (tablePathOf (home va)) t)
    (hway : SmallWay (T.address .pml4).toNat σ.mem (tablePathOf (home va))) {e : U64}
    (hturn : e.getLsbD 0 ≠ (slot σ.mem t (ptIndex (home va))).getLsbD 0) :
    Turns T σ { σ with mem := setSlot σ.mem t (ptIndex (home va)) e } va := by
  obtain ⟨h', hother⟩ := h.setLeaf ht hway e
  obtain ⟨-, ht', hway', -, -⟩ := h.tree.setLeaf ht hway e
  refine ⟨⟨a, h'⟩, hother, fun x hx hlow => ?_⟩
  obtain ⟨habsent, hpresent⟩ := h.translate_leaf ht hway hx hlow
  obtain ⟨habsent', hpresent'⟩ := h'.translate_leaf ht' hway' hx hlow
  rw [slot_setSlot] at habsent' hpresent'
  rcases Bool.eq_false_or_eq_true (e.getLsbD 0) with he | he
  · have hold := Bool.eq_false_iff.2 fun hold => hturn (he.trans hold.symm)
    rw [habsent hold]
    exact hpresent' he
  · have hold := Bool.eq_true_of_not_eq_false fun hold => hturn (he.trans hold.symm)
    rw [habsent' he]
    exact (hpresent hold).symm

/-- **One call after the boot**: it turns the leaf of its page, or fails and changes
no translation. -/
theorem Booted.call (h : Booted T σ a) (call : VmmCall) :
    (∃ a', Booted T (vmmStep (T.address .pml4) σ call).2 a') ∧
    (Succeeds (T.address .pml4) σ call → Turns T σ (vmmStep (T.address .pml4) σ call).2 call.page) ∧
    (¬ Succeeds (T.address .pml4) σ call → ∀ x,
      vmmTranslate (vmmStep (T.address .pml4) σ call).2.mem (T.address .pml4) x =
        vmmTranslate σ.mem (T.address .pml4) x) := by
  cases call with
  | map va pa flags =>
    change (∃ a', Booted T (vmmMapPage σ (T.address .pml4) va pa flags).2 a') ∧
      ((vmmMapPage σ (T.address .pml4) va pa flags).1 = 0 →
        Turns T σ (vmmMapPage σ (T.address .pml4) va pa flags).2 va) ∧
      ((vmmMapPage σ (T.address .pml4) va pa flags).1 ≠ 0 → ∀ x,
        vmmTranslate (vmmMapPage σ (T.address .pml4) va pa flags).2.mem (T.address .pml4) x =
          vmmTranslate σ.mem (T.address .pml4) x)
    obtain ⟨σ', a', h', hsame, ⟨rc, hrc, heq⟩ | ⟨-, hpa, t, hat, heq⟩⟩ := h.map va pa flags
    · rw [heq]
      exact ⟨⟨a', h'⟩, fun h0 => absurd h0 hrc, fun _ => hsame⟩
    · rw [heq]
      have hturn : (vmmLeaf pa flags).getLsbD 0 ≠
          (slot σ'.mem t (ptIndex (home va))).getLsbD 0 := by
        rw [hat.empty, vmmLeaf, BitVec.getLsbD_or, BitVec.getLsbD_or,
          show vmmPresent.getLsbD 0 = true from by decide]
        simp
      obtain ⟨hbooted, hother, hturned⟩ := h'.setLeaf_turns hat.table hat.way hturn
      refine ⟨hbooted, fun _ => ⟨hbooted, fun x hx => (hother x hx).trans (hsame x), ?_⟩,
        fun h0 => absurd rfl h0⟩
      intro x hx hlow
      rw [← hsame x]
      exact hturned x hx hlow
  | unmap va =>
    change (∃ a', Booted T (vmmUnmapPage σ (T.address .pml4) va).2 a') ∧
      ((vmmUnmapPage σ (T.address .pml4) va).1 ≠ none →
        Turns T σ (vmmUnmapPage σ (T.address .pml4) va).2 va) ∧
      (¬ (vmmUnmapPage σ (T.address .pml4) va).1 ≠ none → ∀ x,
        vmmTranslate (vmmUnmapPage σ (T.address .pml4) va).2.mem (T.address .pml4) x =
          vmmTranslate σ.mem (T.address .pml4) x)
    rcases h.unmap va with heq | ⟨-, t, ht, hway, hpresent, heq⟩
    · rw [heq]
      exact ⟨⟨a, h⟩, fun h0 => absurd rfl h0, fun _ _ => rfl⟩
    · rw [heq]
      have hturns := h.setLeaf_turns ht hway (e := 0) (by rw [hpresent]; simp)
      exact ⟨hturns.booted, fun _ => hturns, fun h0 => absurd (by simp) h0⟩

/-- The slots of a home, for an address of the lower range. -/
theorem pathOf_home (h : LowShared va) : pathOf (home va) = [1, 0, pdIndex va, ptIndex va] := by
  obtain ⟨h₄, h₃, h₂, h₁⟩ := home_indices h
  rw [pathOf, h₄, h₃, h₂, h₁]

/-- Different pages are twins if they have one home. -/
theorem hasTwin_of_home {x : U64} (hhome : pathOf (home x) = pathOf (home va))
    (hne : pathOf x ≠ pathOf va) : HasTwin va := by
  by_cases hva : LowShared va
  · exact Or.inl hva
  rw [home_of_not hva] at hhome
  by_cases hx : LowShared x
  · rw [pathOf_home hx, pathOf] at hhome
    obtain ⟨h₄, hrest⟩ := List.cons.inj hhome
    exact Or.inr ⟨h₄.symm, (List.cons.inj hrest).1.symm⟩
  · rw [home_of_not hx] at hhome
    exact absurd hhome hne

/-- The lower range in numbers. -/
theorem lowShared_iff : LowShared va ↔
    va.toNat / 2 ^ 39 % 512 = 0 ∧ va.toNat / 2 ^ 30 % 512 = 256 := by
  rw [LowShared, pml4Index, pdptIndex, toNat_index, toNat_index]

/-- The upper range in numbers. -/
theorem highShared_iff : HighShared va ↔
    va.toNat / 2 ^ 39 % 512 = 1 ∧ va.toNat / 2 ^ 30 % 512 = 0 := by
  rw [HighShared, pml4Index, pdptIndex, toNat_index, toNat_index]

/-- A page with a twin has an address in the twin. -/
theorem exists_twin (h : HasTwin va) : ∃ x : U64,
    x.toNat / 4096 % 2 ^ 36 ≠ va.toNat / 4096 % 2 ^ 36 ∧ pathOf (home x) = pathOf (home va) ∧
      x.toNat % 4096 = 1 := by
  have hlt := va.isLt
  rcases h with hlow | hhigh
  · have hhome := toNat_home hlow
    have hbits := lowShared_iff.1 hlow
    have hx : (BitVec.ofNat 64 (va.toNat / 4096 * 4096 + 2 ^ 38 + 1)).toNat =
        va.toNat / 4096 * 4096 + 2 ^ 38 + 1 := by
      rw [BitVec.toNat_ofNat]
      omega
    refine ⟨BitVec.ofNat 64 (va.toNat / 4096 * 4096 + 2 ^ 38 + 1), ?_, ?_, ?_⟩
    · rw [hx]
      omega
    · rw [home_of_not (by rw [lowShared_iff, hx]; omega), pathOf_eq_iff_bits, hx, hhome]
      omega
    · rw [hx]
      omega
  · have hbits := highShared_iff.1 hhigh
    have hx : (BitVec.ofNat 64 (va.toNat / 4096 * 4096 - 2 ^ 38 + 1)).toNat =
        va.toNat / 4096 * 4096 - 2 ^ 38 + 1 := by
      rw [BitVec.toNat_ofNat]
      omega
    have hlow : LowShared (BitVec.ofNat 64 (va.toNat / 4096 * 4096 - 2 ^ 38 + 1)) := by
      rw [lowShared_iff, hx]
      omega
    refine ⟨BitVec.ofNat 64 (va.toNat / 4096 * 4096 - 2 ^ 38 + 1), ?_, ?_, ?_⟩
    · rw [hx]
      omega
    · have hnot : ¬ LowShared va := by
        rw [lowShared_iff]
        omega
      rw [home_of_not hnot, pathOf_eq_iff_bits, toNat_home hlow, hx]
      omega
    · rw [hx]
      omega

/-- `vmm_init` has run, and its tables are in place. -/
def Ready (T : StaticTables) (s : VmmState) : Prop :=
  s.bootstrapReady = true ∧ ∃ a, Booted T s.phys a

/-- Every call keeps the tables of `vmm_init` in place. -/
theorem ready_step (s : VmmState) (op : VmmOp) (h : Ready T s) : Ready T (vmmOpStep T s op).2 := by
  obtain ⟨hready, a, hbooted⟩ := h
  cases op with
  | init =>
    have hsame : vmmInit T s = s := by rw [vmmInit, if_pos hready]
    change Ready T (vmmInit T s)
    rw [hsame]
    exact ⟨hready, a, hbooted⟩
  | call c => exact ⟨hready, (hbooted.call c).1⟩

/-- They are in place after the boot. -/
theorem bootedVmm_ready (T : StaticTables) (m : Mem) {pmm : Pmm} (hr : Refines bootstrapLimit pmm a)
    (htaken : ∀ k, (T.address k).toNat / 4096 ∉ a.free) : Ready T (bootedVmm T m pmm) := by
  refine ⟨?_, a, bootedVmm_booted T m hr htaken⟩
  rw [bootedVmm, vmmInit, if_neg (by simp)]

/-- **Kernel mappings are independent but for twins.**  After the boot, `vmm_init`
and any calls, a call changes the translation of another page exactly when its page
lies in one of the two ranges that share `bootstrap_pd`, and can be mapped or unmapped
as it asks for. -/
theorem vmm_independent_iff (T : StaticTables) (m : Mem) {pmm : Pmm}
    (hr : Refines bootstrapLimit pmm a) (htaken : ∀ k, (T.address k).toNat / 4096 ∉ a.free)
    (ops : List VmmOp) (call : VmmCall) :
    let σ := (run (vmmOpStep T) (bootedVmm T m pmm) ops).phys
    Independent (T.address .pml4) σ call ↔
      ¬ (call.Possible (T.address .pml4) σ ∧ HasTwin call.page) := by
  intro σ
  obtain ⟨-, a', hσ⟩ := run_invariant ready_step ops (bootedVmm_ready T m hr htaken)
  obtain ⟨-, hturns, hfails⟩ := hσ.call call
  rw [← hσ.succeeds_iff]
  constructor
  · rintro hind ⟨hok, htwin⟩
    obtain ⟨x, hne, hhome, hlow⟩ := exists_twin htwin
    exact (hturns hok).turned x hhome hlow (hind x hne)
  · intro hnot x hne
    rcases Classical.em (Succeeds (T.address .pml4) σ call) with hok | hfail
    · refine (hturns hok).other x fun hhome => hnot ⟨hok, hasTwin_of_home hhome fun hpath => hne ?_⟩
      exact pathOf_eq_iff_bits.1 hpath
    · exact hfails hfail x

/-! ### A page that is mapped with its twin -/

/-- What is mapped, is mapped at its home. -/
theorem Booted.map_home (h : Booted T σ a)
    (hok : (vmmMapPage σ (T.address .pml4) va pa flags).1 = 0) (hsmall : pa.toNat < 2 ^ 52) :
    vmmTranslate σ.mem (T.address .pml4) (home va) = 0 ∧
      vmmTranslate (vmmMapPage σ (T.address .pml4) va pa flags).2.mem (T.address .pml4) (home va) =
        pa := by
  obtain ⟨σ', a', h', hsame, ⟨rc, hrc, heq⟩ | ⟨hva, hpa, t, hat, heq⟩⟩ := h.map va pa flags
  · rw [heq] at hok
    exact absurd hok hrc
  · have halign : (home va).toNat % 4096 = 0 := (toNat_home_mod va).trans hva
    have hmapped := (hat.mapped h'.tree halign hpa hsmall flags).1 0 (by decide)
    rw [heq]
    refine ⟨?_, by simpa using hmapped⟩
    rw [← hsame, vmmTranslate_eq, hat.trail_none]
    rfl

/-- `ensure_table` on an entry that `vmm_init` has written. -/
theorem ensureTable_bootstrap {k c : StaticTable}
    (h : slot σ.mem (T.address k).toNat i = bootstrapEntry (T.address c)) (flags : U64) :
    ensureTable σ (T.address k) i flags = (T.address c, { σ with
      mem := setSlot σ.mem (T.address k).toNat i
        (bootstrapEntry (T.address c) ||| (flags &&& (vmmWritable ||| vmmUser))) }) := by
  obtain ⟨htarget, hpresent, hsmall⟩ := bootstrapEntry_spec T c
  rw [ensureTable_there (by rw [h]; exact hpresent) (by rw [h]; exact hsmall), h, htarget]

/-- The first page of the lower range can be mapped right after `vmm_init`, without a
page of the allocator. -/
theorem bootedVmm_canMap (T : StaticTables) (m : Mem) (pmm : Pmm) (hpa : pa.toNat % 4096 = 0) :
    CanMap (T.address .pml4) (bootedVmm T m pmm).phys 0x4000000000 pa := by
  have hne : ∀ k, (T.address k).toNat ≠ 0 :=
    fun k hzero => T.ne_zero k (BitVec.eq_of_toNat_eq hzero)
  have hslot : slot (bootedVmm T m pmm).phys.mem (T.address .bootstrapPt).toNat 0 = 0 := by
    rw [bootedVmm_slot T m pmm .bootstrapPt (by decide)]
    rfl
  refine ⟨by decide, hpa, ?_⟩
  rw [show tablePathOf 0x4000000000 = [0, 256, 0] from by decide,
    show ptIndex 0x4000000000 = 0 from by decide,
    mappable_smallTable (bootedVmm_smallTable T m pmm (c := .pdpt) (by decide) rfl) (hne _),
    mappable_smallTable (bootedVmm_smallTable T m pmm (c := .bootstrapPd) (by decide) rfl) (hne _),
    mappable_smallTable (bootedVmm_smallTable T m pmm (c := .bootstrapPt) (by decide) rfl) (hne _),
    Mappable, hslot]
  exact BitVec.zero_and

/-- Six tables from 1000h on. -/
def lowTables : StaticTables where
  address
    | .pml4 => 0x1000
    | .pdpt => 0x2000
    | .pd => 0x3000
    | .bootstrapPd => 0x4000
    | .bootstrapPt => 0x5000
    | .bootstrapHighPdpt => 0x6000
  aligned t := by cases t <;> decide
  low t := by cases t <;> decide
  ne_zero t := by cases t <;> decide
  injective t t' h := by cases t <;> cases t' <;> first | rfl | exact absurd h (by decide)
  pdpt_eq := rfl
  pd_eq := rfl

/-- The allocator of the examples does not hand out the six tables. -/
theorem lowTables_taken (k : StaticTable) :
    (lowTables.address k).toNat / 4096 ∉ highPages.free := by
  rw [mem_highPages_free]
  cases k <;> decide

/-- **Mapping 4000000000h maps 8000000000h as well.** -/
theorem map_changes_twin :
    let σ := (bootedVmm lowTables (fun _ => 0) highPmm).phys
    let r := vmmMapPage σ (lowTables.address .pml4) 0x4000000000 0x7000 3
    r.1 = 0 ∧ vmmTranslate σ.mem (lowTables.address .pml4) 0x8000000000 = 0 ∧
      vmmTranslate r.2.mem (lowTables.address .pml4) 0x8000000000 = 0x7000 := by
  have hbooted := bootedVmm_booted lowTables (fun _ => 0) highPmm_refines lowTables_taken
  have hok := (hbooted.map_eq_zero_iff 0x4000000000 0x7000 3).2
    (bootedVmm_canMap lowTables (fun _ => 0) highPmm (by decide))
  have htwin := hbooted.map_home hok (by decide)
  rw [show home 0x4000000000 = 0x8000000000 by decide] at htwin
  exact ⟨hok, htwin⟩

/-- Pages outside the two ranges are independent, also after a page with a twin has
been mapped. -/
theorem lowTables_independent :
    (∀ k, (lowTables.address k).toNat / 4096 ∉ highPages.free) ∧
      Independent (lowTables.address .pml4)
        (run (vmmOpStep lowTables) (bootedVmm lowTables (fun _ => 0) highPmm)
          [.call (.map 0x4000000000 0x7000 3), .init]).phys (.map 0xFFFF800000200000 0x9000 3) := by
  refine ⟨lowTables_taken,
    (vmm_independent_iff lowTables (fun _ => 0) highPmm_refines lowTables_taken _ _).2 ?_⟩
  rintro ⟨-, hlow | hhigh⟩
  · exact absurd hlow.1 (by decide)
  · exact absurd hhigh.1 (by decide)

end SuiraBox.Mm
