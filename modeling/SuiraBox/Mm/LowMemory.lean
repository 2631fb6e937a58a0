/-
# The first gibibyte

`boot.S` maps the first gibibyte to itself with 512 large pages, and the kernel lives on that: its
code, its stacks, its tables and the frames of the allocator are used at their physical addresses.
`vmm_map_page` and `vmm_unmap_page` work on the same tables.

An entry that is there is raised or refused and never replaced, and what is unmapped is an entry of
a last table.  So the way to the large pages stays whatever calls are made (`LowMapped`), and so do
the rights on it: a large page of `boot.S` is not for ring 3, even if the entries above it are
raised.  Without `SB_VMM_USER` in a call the slot of the PML4 stays closed as well.

The tables of both ways to `bootstrap_pd` are tables of the tree (`Booted.allTables_taken`), so that
no table in use is ever free.
-/

import SuiraBox.Mm.UserMap
import SuiraBox.Mm.VmmBoot

namespace SuiraBox.Mm

open ByteMem Forest Runs

/-! ### The entries -/

/-- The entry leads to the table at `next`, and does not take away rights of the kernel. -/
structure LeadsTo (next e : U64) : Prop where
  target : tableFromEntry e = next
  present : e.getLsbD 0 = true
  writable : e.getLsbD 1 = true
  small : e.getLsbD 7 = false
  exec : e.getLsbD 63 = false

/-- The large page `j` of `boot.S`. -/
def largeEntry (j : ℕ) : U64 := BitVec.ofNat 64 (0x83 + 0x200000 * j)

/-- The entries on the way to the large pages; with `closed`, the first one is not for ring 3. -/
def LowEntry (T : StaticTables) (closed : Prop) : StaticTable → ℕ → U64 → Prop
  | .pml4, 0, e => LeadsTo (T.address .pdpt) e ∧ (closed → e.getLsbD 2 = false)
  | .pdpt, 0, e => LeadsTo (T.address .pd) e
  | .pd, j, e => e = largeEntry j
  | _, _, _ => True

/-- They are in place, and no static table is a free page. -/
structure LowMapped (T : StaticTables) (closed : Prop) (σ : Phys) (a : PageSets) : Prop where
  refines : Refines bootstrapLimit σ.pmm a
  taken : ∀ k, (T.address k).toNat / 4096 ∉ a.free
  entry : ∀ k j, j < 512 → LowEntry T closed k j (slot σ.mem (T.address k).toNat j)

section Entries

variable {T : StaticTables} {closed : Prop} {k : StaticTable} {next e e' flags : U64} {j : ℕ}

theorem LeadsTo.raise (h : LeadsTo next e) (flags : U64) :
    LeadsTo next (e ||| (flags &&& (vmmWritable ||| vmmUser))) := by
  obtain ⟨htarget, hbits⟩ := raise_bits flags e
  refine ⟨htarget.trans h.target, ?_, ?_, ?_, ?_⟩ <;> rw [hbits]
  · rw [h.present, Bool.true_or]
  · rw [h.writable, Bool.true_or]
  · rw [h.small]
    simp
  · rw [h.exec]
    simp

theorem bootstrapEntry_leadsTo (T : StaticTables) (k : StaticTable) :
    LeadsTo (T.address k) (bootstrapEntry (T.address k)) ∧
    (bootstrapEntry (T.address k)).getLsbD 2 = false := by
  have hlow := T.low k
  obtain ⟨htarget, hpresent, hsmall, hexec, hwritable, huser⟩ :=
    tableEntry_spec vmmWritable (T.aligned k) (by omega : (T.address k).toNat < 2 ^ 52)
  rw [bootstrapEntry_eq]
  exact ⟨⟨htarget, hpresent, hwritable.trans (by decide), hsmall, hexec⟩, huser.trans (by decide)⟩

/-- The bits of a large page. -/
theorem largeEntry_bits (hj : j < 512) :
    (largeEntry j).getLsbD 0 = true ∧ (largeEntry j).getLsbD 1 = true ∧
    (largeEntry j).getLsbD 2 = false ∧ (largeEntry j).getLsbD 7 = true ∧
    (largeEntry j).getLsbD 63 = false := by
  simp only [largeEntry, BitVec.getLsbD_ofNat, Nat.testBit_eq_decide_div_mod_eq]
  refine ⟨?_, ?_, ?_, ?_, ?_⟩ <;> simp <;> omega

/-- An entry that is not there is none of them. -/
theorem LowEntry.of_absent (h : LowEntry T closed k j e) (hj : j < 512)
    (habsent : e.getLsbD 0 = false) (e' : U64) : LowEntry T closed k j e' := by
  unfold LowEntry at h ⊢
  split at h
  · exact absurd (habsent.symm.trans h.1.present) (by simp)
  · exact absurd (habsent.symm.trans h.present) (by simp)
  · rw [h, (largeEntry_bits hj).1] at habsent
    exact absurd habsent (by simp)
  · trivial

/-- An entry that is raised is still one of them. -/
theorem LowEntry.raise (h : LowEntry T closed k j e) (hj : j < 512) (hsmall : e.getLsbD 7 = false)
    (hflags : closed → flags.getLsbD 2 = false) :
    LowEntry T closed k j (e ||| (flags &&& (vmmWritable ||| vmmUser))) := by
  unfold LowEntry at h ⊢
  split at h
  · refine ⟨h.1.raise flags, fun hclosed => ?_⟩
    rw [(raise_bits flags _).2, h.2 hclosed, hflags hclosed]
    rfl
  · exact h.raise flags
  · rw [h, (largeEntry_bits hj).2.2.2.1] at hsmall
    exact absurd hsmall (by simp)
  · trivial

end Entries

/-! ### The calls -/

section Calls

variable {T : StaticTables} {closed : Prop} {σ : Phys} {a : PageSets} {t i : ℕ}
  {table flags e : U64} (h : LowMapped T closed σ a)

include h

/-- Storing an entry. -/
theorem LowMapped.setSlot (halign : t % 4096 = 0) (hi : i < 512)
    (he : ∀ k, t = (T.address k).toNat → LowEntry T closed k i e) :
    LowMapped T closed { σ with mem := Mm.setSlot σ.mem t i e } a := by
  refine ⟨h.refines, h.taken, fun k j hj => ?_⟩
  rcases Classical.em ((T.address k).toNat = t ∧ j = i) with ⟨rfl, rfl⟩ | hne
  · rw [slot_setSlot]
    exact he k rfl
  · dsimp only
    rw [slot_setSlot_of_ne halign (T.aligned k) hi hj fun heq => hne (Prod.mk.inj heq)]
    exact h.entry k j hj

/-- Taking a page, whatever it is used for. -/
theorem LowMapped.take {c : ℕ} (hc : c ∈ a.free) {pmm : Pmm} {m : Mem}
    (hr : Refines bootstrapLimit pmm (a.take c)) (hm : ∀ x, x / 4096 ≠ c → m x = σ.mem x) :
    LowMapped T closed ⟨m, pmm⟩ (a.take c) := by
  refine ⟨hr, fun k hfree => h.taken k ?_, fun k j hj => ?_⟩
  · rw [PageSets.free_take] at hfree
    exact Finset.mem_of_mem_erase hfree
  · rw [slot_congr (T.aligned k) hj fun x hx => hm x fun heq => h.taken k (hx ▸ heq ▸ hc)]
    exact h.entry k j hj

/-- `ensure_table`, anywhere. -/
theorem LowMapped.ensureTable (halign : table.toNat % 4096 = 0)
    (hi : i < 512) (hflags : closed → flags.getLsbD 2 = false) :
    (Mm.ensureTable σ table i flags).1.toNat % 4096 = 0 ∧
      ∃ a', LowMapped T closed (Mm.ensureTable σ table i flags).2 a' := by
  unfold Mm.ensureTable
  dsimp only
  split_ifs with hpresent hlarge hzero
  · exact ⟨rfl, a, h⟩
  · rw [ne_eq, not_not, small_iff] at hlarge
    refine ⟨?_, a, h.setSlot halign hi fun k hk => ?_⟩
    · rw [toNat_tableFromEntry]
      omega
    · have hentry := h.entry k i hi
      rw [← hk] at hentry
      exact hentry.raise hi hlarge hflags
  · refine ⟨rfl, ?_⟩
    rcases h.refines.allocPage_cases with ⟨-, halloc⟩ | ⟨c, hc, -, -, hr⟩
    · rw [halloc]
      exact ⟨a, h⟩
    · exact ⟨_, h.take hc hr fun _ _ => rfl⟩
  · rw [present_iff, Bool.not_eq_true] at hpresent
    rcases h.refines.allocPage_cases with ⟨-, halloc⟩ | ⟨c, hc, -, hpage, hr⟩
    · rw [halloc] at hzero
      exact absurd rfl hzero
    · have hpagealign : (pmmAllocPage bootstrapLimit σ.pmm).1.toNat % 4096 = 0 := by omega
      have hdiv : (pmmAllocPage bootstrapLimit σ.pmm).1.toNat / 4096 = c := by omega
      have htaken := h.take hc hr (m := zeroPage σ.mem (pmmAllocPage bootstrapLimit σ.pmm).1.toNat)
          fun x hx => by
        rw [zeroPage_apply hpagealign, if_neg (by rw [hdiv]; exact hx)]
      refine ⟨hpagealign, _, htaken.setSlot halign hi fun k hk => ?_⟩
      have hentry := h.entry k i hi
      rw [← hk] at hentry
      exact hentry.of_absent hi hpresent _

/-- Three tables down. -/
theorem LowMapped.ensurePath {path : List ℕ}
    (hpath : ∀ i ∈ path, i < 512) (halign : table.toNat % 4096 = 0)
    (hflags : closed → flags.getLsbD 2 = false) :
    (Mm.ensurePath flags path table σ).1.toNat % 4096 = 0 ∧
      ∃ a', LowMapped T closed (Mm.ensurePath flags path table σ).2 a' := by
  induction path generalizing table σ a with
  | nil => exact ⟨halign, a, h⟩
  | cons i path ih =>
    obtain ⟨hnext, a₁, h₁⟩ := h.ensureTable halign (hpath i (List.mem_cons_self ..)) hflags
    rw [Mm.ensurePath]
    dsimp only
    split_ifs
    · exact ⟨rfl, a₁, h₁⟩
    · exact ih h₁ (fun j hj => hpath j (List.mem_cons_of_mem i hj)) hnext

/-- `vmm_map_page`. -/
theorem LowMapped.map (va pa : U64)
    (hflags : closed → flags.getLsbD 2 = false) :
    ∃ a', LowMapped T closed (vmmMapPage σ (T.address .pml4) va pa flags).2 a' := by
  rw [vmmMapPage_eq]
  split_ifs
  · exact ⟨a, h⟩
  obtain ⟨halign, a', h'⟩ := h.ensurePath (allTables_tablePathOf va).2 (T.aligned .pml4) hflags
  rw [mapLeaf]
  split_ifs with _ hpresent
  · exact ⟨a', h'⟩
  · exact ⟨a', h'⟩
  · rw [present_iff, Bool.not_eq_true] at hpresent
    refine ⟨a', h'.setSlot halign (index_lt ..) fun k hk => ?_⟩
    have hentry := h'.entry k (ptIndex va) (index_lt ..)
    rw [← hk] at hentry
    exact hentry.of_absent (index_lt ..) hpresent _

/-- The three tables of the way are above the last level. -/
theorem LowMapped.above {a' : PageSets} (hb : Booted T σ a')
    {k : StaticTable} (hk : k = .pml4 ∨ k = .pdpt ∨ k = .pd) : ∃ p, p.length < 3 ∧
      HasTable bootPaths (T.address .pml4).toNat σ.mem p (T.address k).toNat := by
  obtain ⟨hroot, hpdpt, -⟩ := hb.tables
  rcases hk with rfl | rfl | rfl
  · exact ⟨[], by decide, hroot⟩
  · exact ⟨[0], by decide, hpdpt⟩
  · have hentry : LeadsTo (T.address .pd) (slot σ.mem (T.address .pdpt).toNat 0) :=
      h.entry .pdpt 0 (by decide)
    refine ⟨[0, 0], by decide, hpdpt.below (i := 0) ⟨⟨by decide, by decide⟩, by simp⟩ ?_⟩
    exact smallTable_eq_some.2 ⟨hentry.present, hentry.small, by rw [hentry.target]⟩

/-- `vmm_unmap_page`. -/
theorem LowMapped.unmap {a' : PageSets} (hb : Booted T σ a')
    (va : U64) : LowMapped T closed (vmmUnmapPage σ (T.address .pml4) va).2 a := by
  rcases hb.unmap va with heq | ⟨-, t, ht, -, -, heq⟩
  · rw [heq]
    exact h
  · rw [heq]
    refine h.setSlot (hb.tree.table_aligned ht) (index_lt ..) fun k hk => ?_
    -- none of the three is a last table
    have hlow : ¬ (k = .pml4 ∨ k = .pdpt ∨ k = .pd) := by
      intro hway
      obtain ⟨p, hlen, hp⟩ := h.above hb hway
      rw [(hb.tree.page_unique hp ht (by rw [hk])).1] at hlen
      exact absurd hlen (by simp [tablePathOf])
    rw [not_or, not_or] at hlow
    unfold LowEntry
    split
    · exact absurd rfl hlow.1
    · exact absurd rfl hlow.2.1
    · exact absurd rfl hlow.2.2
    · trivial

end Calls

/-! ### Runs -/

section Runs

variable {T : StaticTables} {closed : Prop} {σ : Phys} {a : PageSets} {ops : List VmmOp}

/-- The machine after `vmm_init`. -/
theorem bootedVmm_lowMapped (T : StaticTables) (m : Mem) {pmm : Pmm}
    (hr : Refines bootstrapLimit pmm a) (htaken : ∀ k, (T.address k).toNat / 4096 ∉ a.free) :
    LowMapped T closed (bootedVmm T m pmm).phys a := by
  refine ⟨?_, htaken, fun k j hj => ?_⟩
  · rw [bootedVmm, vmmInit, if_neg (by simp)]
    exact hr
  · rw [bootedVmm_slot T m pmm k hj]
    unfold LowEntry
    split
    · obtain ⟨hleads, huser⟩ := bootstrapEntry_leadsTo T .pdpt
      exact ⟨hleads, fun _ => huser⟩
    · exact (bootstrapEntry_leadsTo T .pd).1
    · rfl
    · trivial

/-- No call of the run asks for a page of ring 3. -/
def NoUser (ops : List VmmOp) : Prop :=
  ∀ va pa flags, VmmOp.call (.map va pa flags) ∈ ops → flags.getLsbD 2 = false

/-- The state of a run: `vmm_init` has been run, its tables are in place, and so is the way to the
large pages. -/
def LowReady (T : StaticTables) (closed : Prop) (s : VmmState) : Prop :=
  Ready T s ∧ ∃ a, LowMapped T closed s.phys a

theorem lowReady_step {s : VmmState} {op : VmmOp} (hop : op ∈ ops) (h : LowReady T (NoUser ops) s) :
    LowReady T (NoUser ops) (vmmOpStep T s op).2 := by
  obtain ⟨hready, a, hlow⟩ := h
  refine ⟨ready_step s op hready, ?_⟩
  obtain ⟨hinit, a', hb⟩ := hready
  cases op with
  | init =>
    change ∃ a, LowMapped T (NoUser ops) (vmmInit T s).phys a
    rw [vmmInit, if_pos hinit]
    exact ⟨a, hlow⟩
  | call c =>
    cases c with
    | map va pa flags => exact hlow.map va pa fun hno => hno va pa flags hop
    | unmap va => exact ⟨a, hlow.unmap hb va⟩

theorem lowReady_run (T : StaticTables) (m : Mem) {pmm : Pmm} (hr : Refines bootstrapLimit pmm a)
    (htaken : ∀ k, (T.address k).toNat / 4096 ∉ a.free) (ops : List VmmOp) :
    LowReady T (NoUser ops) (run (vmmOpStep T) (bootedVmm T m pmm) ops) :=
  run_invariant_of_mem (fun _ _ hop => lowReady_step hop)
    ⟨bootedVmm_ready T m hr htaken, a, bootedVmm_lowMapped T m hr htaken⟩

end Runs

/-! ### What the processor finds -/

section Access

variable {T : StaticTables} {closed : Prop} {σ : Phys} {a : PageSets}

/-- The address in a large page. -/
theorem largeEntry_address {x : ℕ} (hx : x < 2 ^ 30) :
    (largeEntry (x / 2 ^ 21) &&& 0x000FFFFFFFE00000) ||| (BitVec.ofNat 64 x &&& 0x1FFFFF) =
      BitVec.ofNat 64 x := by
  have hlow : (BitVec.ofNat 64 x &&& 0x1FFFFF).toNat = x % 2 ^ 21 := by
    rw [show (0x1FFFFF : U64) = BitVec.ofNat 64 (2 ^ 21 - 1) from rfl,
      Words.toNat_and_low _ (by decide), BitVec.toNat_ofNat]
    omega
  have hhigh : (largeEntry (x / 2 ^ 21) &&& 0x000FFFFFFFE00000).toNat = 2 ^ 21 * (x / 2 ^ 21) := by
    rw [BitVec.toNat_and, show (0x000FFFFFFFE00000 : U64).toNat = (2 ^ 31 - 1) * 2 ^ 21 from rfl,
      Words.land_run, largeEntry, BitVec.toNat_ofNat]
    omega
  refine BitVec.eq_of_toNat_eq ?_
  rw [BitVec.toNat_or, hlow, hhigh, ← Nat.two_pow_add_eq_or_of_lt (Nat.mod_lt _ (by decide)),
    BitVec.toNat_ofNat]
  omega

/-- **The first gibibyte is mapped to itself**, for the kernel alone. -/
theorem LowMapped.access_eq (h : LowMapped T closed σ a) {x : ℕ} (hx : x < 2 ^ 30) :
    access σ.mem (T.address .pml4) (BitVec.ofNat 64 x) =
      some ⟨BitVec.ofNat 64 x, true, false, false⟩ := by
  have hvalue : (BitVec.ofNat 64 x).toNat = x := by
    rw [BitVec.toNat_ofNat]
    omega
  have hpath : pathOf (BitVec.ofNat 64 x) = [0, 0, x / 2 ^ 21, ptIndex (BitVec.ofNat 64 x)] := by
    have h₄ : pml4Index (BitVec.ofNat 64 x) = 0 := by rw [pml4Index, toNat_index, hvalue]; omega
    have h₃ : pdptIndex (BitVec.ofNat 64 x) = 0 := by rw [pdptIndex, toNat_index, hvalue]; omega
    have h₂ : pdIndex (BitVec.ofNat 64 x) = x / 2 ^ 21 := by
      rw [pdIndex, toNat_index, hvalue]; omega
    rw [pathOf, h₄, h₃, h₂]
  have hj : x / 2 ^ 21 < 512 := by omega
  have h₄ : LeadsTo (T.address .pdpt) (slot σ.mem (T.address .pml4).toNat 0) :=
    (h.entry .pml4 0 (by decide)).1
  have h₃ : LeadsTo (T.address .pd) (slot σ.mem (T.address .pdpt).toNat 0) :=
    h.entry .pdpt 0 (by decide)
  have h₂ : slot σ.mem (T.address .pd).toNat (x / 2 ^ 21) = largeEntry (x / 2 ^ 21) :=
    h.entry .pd _ hj
  obtain ⟨hpresent, hwritable, huser, hlarge, hexec⟩ := largeEntry_bits hj
  rw [access, hpath, trail_four]
  dsimp only
  rw [h₄.target, h₃.target, h₂, trailStep_table h₄.present (by rw [h₄.small]; simp),
    trailStep_table h₃.present (by rw [h₃.small]; simp),
    trailStep_large hpresent hlarge (Or.inl rfl)]
  simp only [Option.map_some, List.all_cons, List.all_nil, List.any_cons, List.any_nil, h₄.writable,
    h₃.writable, hwritable, huser, h₄.exec, h₃.exec, hexec, Bool.and_true, Bool.and_false,
    Bool.or_false, Option.some.injEq]
  congr 1
  exact largeEntry_address hx

/-- Every table is one of the tree: the second way to `bootstrap_pd` comes to the same tables. -/
theorem Booted.hasTable_bootPaths (h : Booted T σ a) {p : List ℕ} {f : ℕ}
    (hf : HasTable allTables (T.address .pml4).toNat σ.mem p f) :
    ∃ q, q.length = p.length ∧ HasTable bootPaths (T.address .pml4).toNat σ.mem q f := by
  induction p using List.reverseRecOn generalizing f with
  | nil => exact ⟨[], rfl, hasTable_nil.2 (hasTable_nil.1 hf)⟩
  | append_singleton p i ih =>
    obtain ⟨hpath, t, ht, hstep⟩ := hasTable_concat.1 hf
    obtain ⟨q, hlen, hq⟩ := ih ht
    have hall : allTables.path (q ++ [i]) := by
      refine ⟨?_, fun j hj => ?_⟩
      · have := hpath.1
        rw [List.length_append] at this ⊢
        omega
      · rcases List.mem_append.1 hj with hj | hj
        · exact hq.path.1.2 j hj
        · exact hpath.2 j (List.mem_append_right _ hj)
    by_cases hpre : [0, 256] <+: q ++ [i]
    · -- the step of the second way
      obtain ⟨rfl, rfl⟩ : q = [0] ∧ i = 256 := by
        rcases List.prefix_concat_iff.1 hpre with heq | hbefore
        · have heq' : [0] ++ [256] = q ++ [i] := heq
          obtain ⟨hq', hi'⟩ := List.append_inj' heq' rfl
          exact ⟨hq'.symm, (List.singleton_inj.1 hi').symm⟩
        · exact absurd hbefore hq.path.2
      obtain ⟨-, hpdpt, -, hpd⟩ := h.tables
      obtain rfl : t = (T.address .pdpt).toNat := Owned.unique hq hpdpt
      obtain ⟨hpresent, hsmall, htarget⟩ := smallTable_eq_some.1 h.ways.2.1
      obtain rfl : f = (T.address .bootstrapPd).toNat := by
        rw [← (subTarget_eq_some.1 hstep).2.2, htarget]
      refine ⟨[1, 0], ?_, hpd⟩
      rw [List.length_append, ← hlen]
      rfl
    · refine ⟨q ++ [i], by rw [List.length_append, List.length_append, hlen], ?_⟩
      exact hasTable_concat.2 ⟨⟨hall, hpre⟩, t, hq, hstep⟩

/-- No table in use is a free page. -/
theorem Booted.allTables_taken (h : Booted T σ a) {p : List ℕ} {f : ℕ}
    (hf : HasTable allTables (T.address .pml4).toNat σ.mem p f) : f / 4096 ∉ a.free := by
  obtain ⟨q, -, hq⟩ := h.hasTable_bootPaths hf
  exact h.tree.notFree hq

end Access

/-- **The kernel keeps its memory.**  After the boot, `vmm_init` and any calls that map or unmap
pages, with any flags and whether they succeed or not: the first gibibyte is mapped to itself,
writable and executable for the kernel and not for ring 3, and no page table in use is a free
page. -/
theorem low_memory_kept (T : StaticTables) (m : Mem) {pmm : Pmm} {a : PageSets}
    (hr : Refines bootstrapLimit pmm a) (htaken : ∀ k, (T.address k).toNat / 4096 ∉ a.free)
    (ops : List VmmOp) : let σ := (run (vmmOpStep T) (bootedVmm T m pmm) ops).phys
    (∀ x < 2 ^ 30, access σ.mem (T.address .pml4) (BitVec.ofNat 64 x) =
      some ⟨BitVec.ofNat 64 x, true, false, false⟩) ∧
    ∀ p f, HasTable allTables (T.address .pml4).toNat σ.mem p f →
    f / 4096 ∉ freeSet bootstrapLimit σ.pmm := by
  obtain ⟨⟨-, a', hb⟩, a'', hlow⟩ := lowReady_run T m hr htaken ops
  refine ⟨fun x hx => hlow.access_eq hx, fun p f hf => ?_⟩
  rw [hb.tree.refines.freeSet_eq]
  exact hb.allTables_taken hf

/-- A run that maps a page of ring 3 next to the kernel's own. -/
theorem lowTables_kept :
    let σ := (run (vmmOpStep lowTables) (bootedVmm lowTables (fun _ => 0) highPmm)
      [.call (.map 0x4000000000 0x200000 7), .call (.unmap 0x4000000000)]).phys
    access σ.mem (lowTables.address .pml4) 0x100000 = some ⟨0x100000, true, false, false⟩ :=
  (low_memory_kept lowTables (fun _ => 0) highPmm_refines lowTables_taken _).1 0x100000 (by decide)

end SuiraBox.Mm
