/-
# Page tables as a tree of entries

`ensure_table` is one function in two files: `kernel/mm/address_space.c` goes
down with it in a user address space, `kernel/mm/vmm.c` in the kernel's own.  What
the way down leaves behind is said here once for both.

The tables under a PML4 are a tree when no table is reached by two paths and none
is a free page (`Tree`).  Frames that leaves point to do not matter: they may be
free, shared or tables.  Read through the tree, memory is a function from table
paths and indices to entries (`entries`), and every write of the kernel is an
update of that function.  `ensure_table` raises the entry it passes (`Raised`): an
entry that is there gets more permissions, a missing one gets an empty table.
Raising keeps every translation, because an empty table translates nothing
(`trailOf_raises`).

Which tables have to form a tree is a parameter (`TablePaths`): the user part of
an address space, all of the kernel's tables, or all but the ones shared on
purpose.
-/

import SuiraBox.Mm.AddressSpace

namespace SuiraBox.Mm

open ByteMem Forest

/-- The paths from a PML4 to the tables that count. -/
structure TablePaths where
  path : List ℕ → Prop
  nil : path []
  closed : ∀ {p i}, path (p ++ [i]) → path p
  lt : ∀ {p i}, path (p ++ [i]) → i < 512
  short : ∀ {p}, path p → p.length ≤ 3

/-- All tables. -/
def allTables : TablePaths where
  path p := p.length ≤ 3 ∧ ∀ i ∈ p, i < 512
  nil := ⟨Nat.zero_le _, by simp⟩
  closed := fun {p i} h => ⟨by
    have := h.1
    rw [List.length_append] at this
    omega, fun j hj => h.2 j (List.mem_append_left _ hj)⟩
  lt h := h.2 _ (by simp)
  short h := h.1

/-- They are those of one owner. -/
def TablePaths.shape (S : TablePaths) : Shape Unit ℕ := ⟨fun _ => S.path, fun _ => S.nil, S.closed⟩

/-- The table that entry `e` of the table at `t` points to.  A large page has no
table below; in the PML4 itself the page-size bit says nothing. -/
def subTarget (root t : ℕ) (e : U64) : Option ℕ :=
  if e &&& vmmPresent ≠ 0 ∧ (t = root ∨ e &&& entryLarge = 0) then some (tableFromEntry e).toNat
  else none

/-- The table below slot `i` of the table at `t`. -/
def subTable (root : ℕ) (m : Mem) (t i : ℕ) : Option ℕ := subTarget root t (slot m t i)

/-- Path `p` leads from the PML4 at `root` to the table at `f`. -/
def HasTable (S : TablePaths) (root : ℕ) (m : Mem) (p : List ℕ) (f : ℕ) : Prop :=
  Owned S.shape (subTable root m) (fun _ => some root) () p f

/-- The entries by their paths. -/
def entries (root : ℕ) (m : Mem) (p : List ℕ) (i : ℕ) : U64 :=
  entryAt (subTable root m) (slot m) (fun _ : Unit => some root) () p i

/-- The tables form a tree, and the allocator knows that they are taken. -/
structure Tree (S : TablePaths) (root : ℕ) (σ : Phys) (a : PageSets) : Prop where
  refines : Refines bootstrapLimit σ.pmm a
  aligned : root % 4096 = 0
  separate : Separate S.shape (subTable root σ.mem) (fun _ => some root)
  notFree : ∀ {p f}, HasTable S root σ.mem p f → f / 4096 ∉ a.free

variable {e table : U64} {r : U64 × Phys}

/-- A path that may go on is itself one that counts. -/
theorem TablePaths.above (S : TablePaths) {p q : List ℕ} (h : S.path (p ++ q)) : S.path p := by
  induction q using List.reverseRecOn with
  | nil => rwa [List.append_nil] at h
  | append_singleton q i ih =>
    rw [← List.append_assoc] at h
    exact ih (S.closed h)

theorem TablePaths.lt_of_mem (S : TablePaths) {p q : List ℕ} (h : S.path (p ++ q)) :
    ∀ j ∈ q, j < 512 := by
  intro j hj
  obtain ⟨front, back, rfl⟩ := List.append_of_mem hj
  rw [← List.append_assoc, List.append_cons] at h
  exact S.lt (S.above h)

variable {S : TablePaths} {root : ℕ} {σ σ' : Phys} {a a' a₁ a₂ : PageSets} {p q : List ℕ}
  {f g t i j : ℕ} {m m' : Mem} {pmm' : Pmm} {flags : U64}

theorem subTarget_eq_some : subTarget root t e = some f ↔
    e.getLsbD 0 = true ∧ (t = root ∨ e.getLsbD 7 = false) ∧ (tableFromEntry e).toNat = f := by
  rw [← present_iff, ← small_iff, subTarget]
  split_ifs with h
  · rw [Option.some.injEq]
    exact ⟨fun hf => ⟨h.1, h.2, hf⟩, fun hf => hf.2.2⟩
  · exact iff_of_false (by simp) fun hc => h ⟨hc.1, hc.2.1⟩

theorem subTarget_of_absent (h : e.getLsbD 0 = false) : subTarget root t e = none := by
  rw [subTarget, if_neg fun hc => hc.1 ((absent_iff e).2 h)]

theorem hasTable_nil : HasTable S root m [] f ↔ f = root := by
  rw [HasTable, owned_nil, Option.some.injEq]
  exact eq_comm

/-- The table at the end of a path hangs in the one before it. -/
theorem hasTable_concat : HasTable S root m (p ++ [i]) f ↔
    S.path (p ++ [i]) ∧ ∃ t, HasTable S root m p t ∧ subTable root m t i = some f := owned_concat

theorem HasTable.path (h : HasTable S root m p f) : S.path p := h.1

theorem HasTable.entries_eq (h : HasTable S root m p f) (i : ℕ) : entries root m p i = slot m f i :=
  Owned.entryAt h i

theorem entries_of_none (hp : S.path p) (h : ∀ f, ¬ HasTable S root m p f) (i : ℕ) :
    entries root m p i = 0 := entryAt_of_not_owned (S := S.shape) hp h i

/-- Below a missing entry there is nothing. -/
theorem not_hasTable_of_absent (h : (entries root m p i).getLsbD 0 = false) (f : ℕ) :
    ¬ HasTable S root m (p ++ [i]) f := by
  intro hf
  obtain ⟨-, t, ht, hstep⟩ := hasTable_concat.1 hf
  rw [subTable, subTarget_eq_some, ← ht.entries_eq, h] at hstep
  exact absurd hstep.1 (by simp)

theorem HasTable.mono {S S' : TablePaths} (h : HasTable S root m p f) (hp : S'.path p) :
    HasTable S' root m p f := ⟨hp, h.2⟩

theorem hasTable_aligned {S : TablePaths} (hp : p ≠ []) (hf : HasTable S root m p f) :
    f % 4096 = 0 := by
  obtain ⟨q, i, rfl⟩ := List.eq_nil_or_concat' p |>.resolve_left hp
  obtain ⟨-, t, -, hstep⟩ := hasTable_concat.1 hf
  rw [← (subTarget_eq_some.1 hstep).2.2, toNat_tableFromEntry]
  omega

/-- Tables are page-aligned. -/
theorem Tree.table_aligned (h : Tree S root σ a) (hf : HasTable S root σ.mem p f) :
    f % 4096 = 0 := by
  rcases eq_or_ne p [] with rfl | hp
  · rw [hasTable_nil.1 hf]
    exact h.aligned
  · exact hasTable_aligned hp hf

/-- Two tables in one page are one table, on one path. -/
theorem Tree.page_unique (h : Tree S root σ a) (hf : HasTable S root σ.mem p f)
    (hg : HasTable S root σ.mem q g) (hpage : f / 4096 = g / 4096) : p = q ∧ f = g := by
  obtain rfl : f = g := by
    have h₁ := h.table_aligned hf
    have h₂ := h.table_aligned hg
    omega
  exact ⟨(h.separate hf hg).2, rfl⟩

/-! ### Writing to a tree -/

/-- A change of memory that no table sees keeps the tree. -/
theorem Tree.congr (h : Tree S root σ a) (m' : Mem) (hr : Refines bootstrapLimit pmm' a')
    (hfree : ∀ {p f}, HasTable S root σ.mem p f → f / 4096 ∉ a'.free)
    (hnext : ∀ {p f j}, HasTable S root σ.mem p f → S.path (p ++ [j]) →
      subTable root m' f j = subTable root σ.mem f j) :
    Tree S root ⟨m', pmm'⟩ a' ∧ ∀ p f, HasTable S root m' p f ↔ HasTable S root σ.mem p f := by
  have hsame : ∀ p f, HasTable S root m' p f ↔ HasTable S root σ.mem p f := owned_congr hnext
  exact ⟨⟨hr, h.aligned, separate_mono h.separate fun _ p f => (hsame p f).1,
    fun hf => hfree ((hsame _ _).1 hf)⟩, hsame⟩

/-- The entries after a write to slot `i` of the table that `q` leads to. -/
def SetEntry (S : TablePaths) (root : ℕ) (m m' : Mem) (q : List ℕ) (i : ℕ) (e : U64) : Prop :=
  ∀ {p j}, S.path p → j < 512 →
    (p = q ∧ j = i → entries root m' p j = e) ∧
      (¬ (p = q ∧ j = i) → entries root m' p j = entries root m p j)

/-- Writing an entry that points where the old one does. -/
theorem Tree.set (h : Tree S root σ a) (ht : HasTable S root σ.mem q t) (hi : i < 512)
    (he : S.path (q ++ [i]) → subTarget root t e = subTarget root t (slot σ.mem t i)) :
    Tree S root { σ with mem := setSlot σ.mem t i e } a ∧
      (∀ p f, HasTable S root (setSlot σ.mem t i e) p f ↔ HasTable S root σ.mem p f) ∧
      SetEntry S root σ.mem (setSlot σ.mem t i e) q i e := by
  have hother : ∀ {p f j}, HasTable S root σ.mem p f → j < 512 → (f, j) ≠ (t, i) →
      slot (setSlot σ.mem t i e) f j = slot σ.mem f j :=
    fun hf hj hne => slot_setSlot_of_ne (h.table_aligned ht) (h.table_aligned hf) hi hj hne
  obtain ⟨htree, hsame⟩ := h.congr (setSlot σ.mem t i e) h.refines h.notFree (by
    intro p f j hf hp
    rcases eq_or_ne (f, j) (t, i) with heq | hne
    · obtain ⟨rfl, rfl⟩ := Prod.mk.inj heq
      rw [subTable, subTable, slot_setSlot]
      refine he ?_
      rw [(h.separate ht hf).2]
      exact hp
    · rw [subTable, subTable, hother hf (S.lt hp) hne])
  refine ⟨htree, hsame, fun {p j} hp hj => ?_⟩
  have hentry :=
    entryAt_set (slot σ.mem) (slot (setSlot σ.mem t i e)) (i := i) (j := j) h.separate ht hp
    (hsame p)
    fun f hf hne => hother hf hj hne
  rw [slot_setSlot] at hentry
  exact hentry

/-- The entry for the new table in `page`. -/
def tableEntry (page flags : U64) : U64 :=
  (page &&& entryAddrMask) ||| vmmPresent ||| (flags &&& (vmmWritable ||| vmmUser))

/-- The entry for a new table points to it, is no large page, and has the rights asked for. -/
theorem tableEntry_spec {page : U64} (flags : U64) (halign : page.toNat % 4096 = 0)
    (hsmall : page.toNat < 2 ^ 52) :
    tableFromEntry (tableEntry page flags) = page ∧ (tableEntry page flags).getLsbD 0 = true ∧
      (tableEntry page flags).getLsbD 7 = false ∧ (tableEntry page flags).getLsbD 63 = false ∧
      (tableEntry page flags).getLsbD 1 = flags.getLsbD 1 ∧
      (tableEntry page flags).getLsbD 2 = flags.getLsbD 2 := by
  obtain ⟨htarget, hbits⟩ :=
    entry_spec page flags vmmPresent (vmmWritable ||| vmmUser) halign hsmall
    (by decide) (by decide)
  have hbit : ∀ i, entryAddrMask.getLsbD i = false → (tableEntry page flags).getLsbD i =
      (vmmPresent.getLsbD i || flags.getLsbD i && (vmmWritable ||| vmmUser).getLsbD i) := hbits
  have hchosen : ∀ i, (vmmWritable ||| vmmUser).getLsbD i = (decide (i = 1) || decide (i = 2)) := by
    intro i
    rw [BitVec.getLsbD_or, vmmWritable, vmmUser, Words.getLsbD_one_shiftLeft (by decide),
      Words.getLsbD_one_shiftLeft (by decide)]
  have hfixed : ∀ i, vmmPresent.getLsbD i = decide (i = 0) :=
    Words.getLsbD_one_shiftLeft (by decide)
  refine ⟨htarget, ?_, ?_, ?_, ?_, ?_⟩
  all_goals
    rw [hbit _ (by decide), hchosen, hfixed]
    simp

/-- Hanging an empty table, in a page that was free, under a missing entry. -/
theorem Tree.hang (h : Tree S root σ a) (ht : HasTable S root σ.mem q t) (hp : S.path (q ++ [i]))
    (hempty : (slot σ.mem t i).getLsbD 0 = false) {page : U64} (flags : U64) {c : ℕ}
    (hc : c ∈ a.free) (hpage : page.toNat = 4096 * c)
    (hr : Refines bootstrapLimit pmm' (a.take c)) :
    let m' := setSlot (zeroPage σ.mem page.toNat) t i (tableEntry page flags)
    Tree S root ⟨m', pmm'⟩ (a.take c) ∧
      (∀ p f, HasTable S root m' p f ↔ HasTable S root σ.mem p f ∨ p = q ++ [i] ∧ f = page.toNat) ∧
      SetEntry S root σ.mem m' q i (tableEntry page flags) := by
  intro m'
  have hlt : _ < 65536 := h.refines.free_lt hc
  have halign : page.toNat % 4096 = 0 := by omega
  have hdiv : page.toNat / 4096 = c := by omega
  obtain ⟨htarget, hpresent, hlarge, -⟩ := tableEntry_spec flags halign (by omega)
  have hnew : ∀ {p f}, HasTable S root σ.mem p f → f / 4096 ≠ c :=
    fun hf he => h.notFree hf (he ▸ hc)
  have hslot : slot m' t i = tableEntry page flags := slot_setSlot ..
  have hother : ∀ {p f j}, HasTable S root σ.mem p f → j < 512 → (f, j) ≠ (t, i) →
      slot m' f j = slot σ.mem f j := by
    intro p f j hf hj hne
    refine (slot_setSlot_of_ne (h.table_aligned ht) (h.table_aligned hf) (S.lt hp) hj hne).trans ?_
    refine slot_congr (h.table_aligned hf) hj fun x hx => ?_
    rw [zeroPage_apply halign, if_neg]
    rw [hx, hdiv]
    exact hnew hf
  have hleaf : ∀ {j}, j < 512 → slot m' page.toNat j = 0 := by
    intro j hj
    refine (slot_setSlot_of_ne (h.table_aligned ht) halign (S.lt hp) hj fun heq => ?_).trans
      (slot_zeroPage halign hj _)
    have ht' := hnew ht
    rw [← (Prod.mk.inj heq).1] at ht'
    exact ht' hdiv
  have hiff : ∀ p f,
      HasTable S root m' p f ↔ HasTable S root σ.mem p f ∨ p = q ++ [i] ∧ f = page.toNat := by
    intro p f
    refine (owned_insert h.separate ht hp ?_ ?_ (fun j hj => ?_) (fun hf hj hne => ?_) () p f).trans
      (or_congr_right (and_iff_right rfl))
    · exact subTarget_of_absent hempty
    · rw [subTable, hslot, subTarget_eq_some, htarget]
      exact ⟨hpresent, Or.inr hlarge, rfl⟩
    · rw [subTable, hleaf (S.lt hj)]
      exact subTarget_of_absent (by simp)
    · rw [subTable, subTable, hother hf (S.lt hj) hne]
  refine ⟨⟨hr, h.aligned, separate_insert (k := ()) h.separate (fun hf => hnew hf hdiv)
    fun _ p f hf => ((hiff p f).1 hf).imp_right fun h' => ⟨rfl, h'⟩, fun {p f} hf => ?_⟩, hiff,
    fun {p j} hpath hj => ?_⟩
  · rcases (hiff _ _).1 hf with hf | ⟨-, rfl⟩
    · rw [PageSets.free_take]
      exact fun hmem => h.notFree hf (Finset.mem_of_mem_erase hmem)
    · rw [PageSets.free_take, hdiv]
      exact Finset.notMem_erase c a.free
  · have hentry := entryAt_insert (slot σ.mem) (slot m') (i := i) (j := j) h.separate ht
      (subTarget_of_absent hempty) hpath hiff (fun f hf hne => hother hf hj hne) (hleaf hj)
    rw [hslot] at hentry
    exact hentry

/-! ### The way down -/

/-- What `ensure_table` makes of the entry it comes by. -/
inductive Raised (flags e : U64) : U64 → Prop
  | there : e.getLsbD 0 = true → e.getLsbD 7 = false →
      Raised flags e (e ||| (flags &&& (vmmWritable ||| vmmUser)))
  | new {page : U64} : e.getLsbD 0 = false → page.toNat % 4096 = 0 → page.toNat < 2 ^ 52 →
      page ≠ 0 → Raised flags e (tableEntry page flags)

/-- More permissions, and the rest of the entry as it was. -/
theorem raise_bits (flags e : U64) :
    tableFromEntry (e ||| (flags &&& (vmmWritable ||| vmmUser))) = tableFromEntry e ∧
      ∀ i, (e ||| (flags &&& (vmmWritable ||| vmmUser))).getLsbD i =
        (e.getLsbD i || flags.getLsbD i && (decide (i = 1) || decide (i = 2))) := by
  constructor
  · refine tableFromEntry_or e _ ?_
    rw [BitVec.and_assoc, show (vmmWritable ||| vmmUser) &&& entryAddrMask = 0#64 from by decide]
    exact BitVec.and_zero
  · intro i
    rw [BitVec.getLsbD_or, BitVec.getLsbD_and, BitVec.getLsbD_or, vmmWritable, vmmUser,
      Words.getLsbD_one_shiftLeft (by decide), Words.getLsbD_one_shiftLeft (by decide)]

/-- The slots that the way from the table at `q` along a path passes. -/
def OnWay : List ℕ → List ℕ → List ℕ → ℕ → Prop
  | _, [], _, _ => False
  | q, i :: path, p, j => p = q ∧ j = i ∨ OnWay (q ++ [i]) path p j

theorem OnWay.length {path : List ℕ} (h : OnWay q path p j) :
    q.length ≤ p.length ∧ p.length < q.length + path.length := by
  induction path generalizing q with
  | nil => exact h.elim
  | cons i path ih =>
    rw [List.length_cons]
    rcases h with ⟨rfl, -⟩ | h
    · omega
    · have := ih h
      rw [List.length_append, List.length_singleton] at this
      omega

theorem onWay_concat {path : List ℕ} : OnWay q (path ++ [i]) p j ↔
    OnWay q path p j ∨ p = q ++ path ∧ j = i := by
  induction path generalizing q with
  | nil => rw [List.nil_append, List.append_nil, OnWay, OnWay, OnWay, or_false, false_or]
  | cons k path ih => rw [List.cons_append, OnWay, OnWay, ih, or_assoc, List.append_cons q k path]

/-- A way that is allowed passes allowed slots. -/
theorem OnWay.path {path : List ℕ} (h : OnWay q path p j) (hp : S.path (q ++ path)) :
    S.path (p ++ [j]) := by
  induction path generalizing q with
  | nil => exact h.elim
  | cons i path ih =>
    rw [List.append_cons] at hp
    rcases h with ⟨rfl, rfl⟩ | h
    · exact S.above hp
    · exact ih h hp

variable {path : List ℕ}

/-- The slots above the last table of a page. -/
theorem onWay_tablePathOf {va : U64} : OnWay [] (tablePathOf va) p j ↔
    p = [] ∧ j = pml4Index va ∨ p = [pml4Index va] ∧ j = pdptIndex va ∨
      p = [pml4Index va, pdptIndex va] ∧ j = pdIndex va := by
  rw [tablePathOf, OnWay, OnWay, OnWay, OnWay, or_false]
  rfl

/-- All tables on the way are there. -/
def OpenWay (root : ℕ) (m : Mem) (q path : List ℕ) : Prop :=
  ∀ p j, OnWay q path p j → (entries root m p j).getLsbD 0 = true ∧
    (entries root m p j).getLsbD 7 = false ∧ tableFromEntry (entries root m p j) ≠ 0

/-- The way down from the table at `q` along `path` has ended with `r`, a table or
nothing.  The entries on the way have been raised, as far as it went; every other
entry is as it was. -/
structure Way (S : TablePaths) (root : ℕ) (flags : U64) (σ : Phys) (a : PageSets) (q path : List ℕ)
    (r : U64 × Phys) (a' : PageSets) : Prop where
  tree : Tree S root r.2 a'
  free : a'.free ⊆ a.free
  mem : ∀ x, x / 4096 ∉ a.free → (∀ p f, HasTable S root σ.mem p f → x / 4096 ≠ f / 4096) →
    r.2.mem x = σ.mem x
  keep : ∀ {p f}, HasTable S root σ.mem p f → HasTable S root r.2.mem p f
  fresh : ∀ {p f}, HasTable S root r.2.mem p f →
    HasTable S root σ.mem p f ∨ f / 4096 ∈ a.free ∧ f ≠ 0
  entry : ∀ {p j}, S.path p → j < 512 → entries root r.2.mem p j = entries root σ.mem p j ∨
    OnWay q path p j ∧ Raised flags (entries root σ.mem p j) (entries root r.2.mem p j)
  arrived : r.1 ≠ 0 → HasTable S root r.2.mem (q ++ path) r.1.toNat ∧
    ∀ {p j}, OnWay q path p j → Raised flags (entries root σ.mem p j) (entries root r.2.mem p j)
  there : OpenWay root σ.mem q path → r.1 ≠ 0

/-- The way is blocked, or there is no page for a table: memory is as it was. -/
theorem Way.stay (htree : Tree S root ⟨σ.mem, pmm'⟩ a') (hfree : a'.free ⊆ a.free)
    (hblocked : ¬ OpenWay root σ.mem q path) :
    Way S root flags σ a q path (0, ⟨σ.mem, pmm'⟩) a' :=
  ⟨htree, hfree, fun _ _ _ => rfl, id, Or.inl, fun _ _ => Or.inl rfl, fun h0 => absurd rfl h0,
    fun hopen => absurd hopen hblocked⟩

/-- One entry has been raised. -/
theorem Way.one {next : U64} (htree : Tree S root σ' a') (hfree : a'.free ⊆ a.free)
    (hmem : ∀ x, x / 4096 ∉ a.free → (∀ p f, HasTable S root σ.mem p f → x / 4096 ≠ f / 4096) →
      σ'.mem x = σ.mem x) (hkeep : ∀ {p f}, HasTable S root σ.mem p f → HasTable S root σ'.mem p f)
    (hfresh : ∀ {p f}, HasTable S root σ'.mem p f →
      HasTable S root σ.mem p f ∨ f / 4096 ∈ a.free ∧ f ≠ 0)
    (hset : SetEntry S root σ.mem σ'.mem q i e) (hraised : Raised flags (entries root σ.mem q i) e)
    (hnext : HasTable S root σ'.mem (q ++ [i]) next.toNat)
    (hthere : OpenWay root σ.mem q [i] → next ≠ 0) :
    Way S root flags σ a q [i] (next, σ') a' := by
  have hpath := hnext.path
  have hat : ∀ {p j}, p = q ∧ j = i →
      Raised flags (entries root σ.mem p j) (entries root σ'.mem p j) := by
    rintro p j ⟨rfl, rfl⟩
    rw [(hset (S.closed hpath) (S.lt hpath)).1 ⟨rfl, rfl⟩]
    exact hraised
  refine ⟨htree, hfree, hmem, hkeep, hfresh, fun {p j} hp hj => ?_, fun _ => ⟨hnext, ?_⟩, hthere⟩
  · rcases Decidable.em (p = q ∧ j = i) with heq | hne
    · exact Or.inr ⟨Or.inl heq, hat heq⟩
    · exact Or.inl ((hset hp hj).2 hne)
  · rintro p j (heq | hfalse)
    · exact hat heq
    · exact hfalse.elim

/-- `ensure_table` on an entry that is there: it raises the rights and goes on. -/
theorem ensureTable_there (hpresent : (slot σ.mem table.toNat i).getLsbD 0 = true)
    (hlarge : (slot σ.mem table.toNat i).getLsbD 7 = false) :
    ensureTable σ table i flags = (tableFromEntry (slot σ.mem table.toNat i), { σ with
      mem := setSlot σ.mem table.toNat i
        (slot σ.mem table.toNat i ||| (flags &&& (vmmWritable ||| vmmUser))) }) := by
  unfold ensureTable
  dsimp only
  rw [if_pos ((present_iff _).2 hpresent), if_neg (not_not.2 ((small_iff _).2 hlarge)),
    slot_setSlot, (raise_bits _ _).1]

/-- A write that raises the entry and points where it did. -/
theorem subTarget_raise (flags e : U64) :
    subTarget root t (e ||| (flags &&& (vmmWritable ||| vmmUser))) = subTarget root t e := by
  obtain ⟨htarget, hbits⟩ := raise_bits flags e
  ext f
  rw [subTarget_eq_some, subTarget_eq_some, htarget, hbits, hbits]
  simp

/-- **`ensure_table` on a table of the tree** that may have a table below. -/
theorem ensureTable_way (h : Tree S root σ a)
    (ht : HasTable S root σ.mem q table.toNat) (hp : S.path (q ++ [i])) (flags : U64) :
    ∃ a', Way S root flags σ a q [i] (ensureTable σ table i flags) a' := by
  have hentry := ht.entries_eq i
  rcases Bool.eq_false_or_eq_true ((slot σ.mem table.toNat i).getLsbD 0) with hpresent | habsent
  · rcases Bool.eq_false_or_eq_true ((slot σ.mem table.toNat i).getLsbD 7) with hlarge | hsmall
    · -- a large page: the way ends here
      rw [ensureTable, if_pos ((present_iff _).2 hpresent), if_pos ((large_iff _).2 hlarge)]
      refine ⟨a, Way.stay h (Finset.Subset.refl _) fun hopen => ?_⟩
      have := (hopen q i (Or.inl ⟨rfl, rfl⟩)).2.1
      rw [hentry, hlarge] at this
      exact absurd this (by simp)
    · rw [ensureTable_there hpresent hsmall]
      obtain ⟨htree, hsame, hset⟩ := h.set ht (S.lt hp) fun _ =>
        subTarget_raise flags (slot σ.mem table.toNat i)
      refine ⟨a, Way.one htree (Finset.Subset.refl _) (fun x _ hx => ?_)
        (fun hf => (hsame _ _).2 hf)
        (fun hf => Or.inl ((hsame _ _).1 hf)) hset ?_ ?_ fun hopen => ?_⟩
      · exact setSlot_of_ne (h.table_aligned ht) (S.lt hp) (hx q _ ht)
      · rw [hentry]
        exact Raised.there hpresent hsmall
      · rw [hsame]
        exact hasTable_concat.2 ⟨hp, _, ht, subTarget_eq_some.2 ⟨hpresent, Or.inr hsmall, rfl⟩⟩
      · have := (hopen q i (Or.inl ⟨rfl, rfl⟩)).2.2
        rwa [hentry] at this
  · have hblocked : ¬ OpenWay root σ.mem q [i] := by
      intro hopen
      have := (hopen q i (Or.inl ⟨rfl, rfl⟩)).1
      rw [hentry, habsent] at this
      exact absurd this (by simp)
    rw [ensureTable, if_neg (not_not.2 ((absent_iff _).2 habsent))]
    dsimp only
    rcases h.refines.allocPage_cases with ⟨-, halloc⟩ | ⟨c, hc, -, hpage, hr⟩
    · rw [halloc, if_pos rfl]
      exact ⟨a, Way.stay h (Finset.Subset.refl _) hblocked⟩
    have hsub : (a.take c).free ⊆ a.free := by
      rw [PageSets.free_take]
      exact Finset.erase_subset c a.free
    split_ifs with hzero
    · -- page 0 was free: it is taken, and lost
      obtain ⟨htree, -⟩ := h.congr σ.mem hr (fun hf hmem => h.notFree hf (hsub hmem)) fun _ _ => rfl
      exact ⟨_, Way.stay htree hsub hblocked⟩
    · obtain ⟨htree, hsame, hset⟩ := h.hang ht hp habsent flags hc hpage hr
      have hlt : _ < 65536 := h.refines.free_lt hc
      generalize pmmAllocPage bootstrapLimit σ.pmm = r at *
      have halign : r.1.toNat % 4096 = 0 := by omega
      have hdiv : r.1.toNat / 4096 = c := by omega
      refine ⟨_, Way.one htree hsub (fun x hx htab => ?_) (fun hf => (hsame _ _).2 (Or.inl hf))
        (fun hf => ?_) hset ?_ ((hsame _ _).2 (Or.inr ⟨rfl, rfl⟩)) fun _ => hzero⟩
      · refine (setSlot_of_ne (h.table_aligned ht) (S.lt hp) (htab q _ ht)).trans ?_
        rw [zeroPage_apply halign, if_neg]
        rw [hdiv]
        rintro rfl
        exact hx hc
      · refine ((hsame _ _).1 hf).imp_right fun ⟨_, hf⟩ => ?_
        rw [hf, hdiv]
        exact ⟨hc, fun h0 => hzero (BitVec.eq_of_toNat_eq h0)⟩
      · rw [hentry]
        exact Raised.new habsent halign (by omega) hzero

/-- A step does not touch the entries of tables further down. -/
theorem Way.later (h : Way S root flags σ a q [i] r a') (hp : S.path p)
    (hj : j < 512) (hlen : q.length < p.length) :
    entries root r.2.mem p j = entries root σ.mem p j := by
  refine (h.entry hp hj).resolve_right ?_
  rintro ⟨hon, -⟩
  have := hon.length.2
  rw [List.length_singleton] at this
  omega

/-- One step further down. -/
theorem Way.trans {r' : U64 × Phys} (hp : S.path (q ++ i :: path))
    (h₁ : Way S root flags σ a q [i] r a₁) (hnext : r.1 ≠ 0)
    (h₂ : Way S root flags r.2 a₁ (q ++ [i]) path r' a₂) :
    Way S root flags σ a q (i :: path) r' a₂ := by
  rw [List.append_cons] at hp
  -- the slots of the rest of the way were not on its first step
  have hlater : ∀ {p j}, OnWay (q ++ [i]) path p j →
      entries root r.2.mem p j = entries root σ.mem p j := by
    intro p j hon
    have hpath := hon.path hp
    have hlen := hon.length.1
    rw [List.length_append, List.length_singleton] at hlen
    exact h₁.later (S.closed hpath) (S.lt hpath) (by omega)
  have hfirst : entries root r'.2.mem q i = entries root r.2.mem q i := by
    have hstep := S.above hp
    refine (h₂.entry (S.closed hstep) (S.lt hstep)).resolve_right fun ⟨hon, _⟩ => ?_
    have hlen := hon.length.1
    rw [List.length_append, List.length_singleton] at hlen
    omega
  refine ⟨h₂.tree, h₂.free.trans h₁.free, fun x hx htab => ?_, fun hf => h₂.keep (h₁.keep hf),
    fun hf => ?_, fun {p j} hpath hj => ?_, fun hne => ?_, fun hopen => h₂.there fun p j hon => ?_⟩
  · refine (h₂.mem x (fun hmem => hx (h₁.free hmem)) fun p f hf => ?_).trans (h₁.mem x hx htab)
    rcases h₁.fresh hf with hold | ⟨hmem, -⟩
    · exact htab p f hold
    · exact fun he => hx (he ▸ hmem)
  · rcases h₂.fresh hf with hold | ⟨hmem, hzero⟩
    · exact h₁.fresh hold
    · exact Or.inr ⟨h₁.free hmem, hzero⟩
  · rcases h₂.entry hpath hj with hsame | ⟨hon, hraised⟩
    · rw [hsame]
      refine (h₁.entry hpath hj).imp_right fun ⟨hon, hraised⟩ => ⟨?_, hraised⟩
      exact Or.inl (hon.resolve_right id)
    · rw [hlater hon] at hraised
      exact Or.inr ⟨Or.inr hon, hraised⟩
  · obtain ⟨htable, hrest⟩ := h₂.arrived hne
    rw [List.append_assoc] at htable
    refine ⟨htable, ?_⟩
    rintro p j (⟨rfl, rfl⟩ | hon)
    · rw [hfirst]
      exact (h₁.arrived hnext).2 (Or.inl ⟨rfl, rfl⟩)
    · rw [← hlater hon]
      exact hrest hon
  · rw [hlater hon]
    exact hopen p j (Or.inr hon)

/-- A way that has ended stays where it is. -/
theorem Way.stop (h : Way S root flags σ a q [i] r a₁)
    (hzero : r.1 = 0) : Way S root flags σ a q (i :: path) (0, r.2) a₁ := by
  refine ⟨h.tree, h.free, h.mem, h.keep, h.fresh, fun hpath hj => ?_, fun h0 => absurd rfl h0,
    fun hopen => ?_⟩
  · refine (h.entry hpath hj).imp_right fun ⟨hon, hraised⟩ => ⟨?_, hraised⟩
    exact Or.inl (hon.resolve_right id)
  · refine absurd hzero (h.there fun p j hon => ?_)
    exact hopen p j (Or.inl (hon.resolve_right id))

/-- **The way down as a whole.** -/
theorem ensurePath_way (h : Tree S root σ a)
    (ht : HasTable S root σ.mem q table.toNat) (hne : path ≠ [] ∨ table ≠ 0)
    (hp : S.path (q ++ path)) (flags : U64) :
    ∃ a', Way S root flags σ a q path (ensurePath flags path table σ) a' := by
  induction path generalizing q table σ a with
  | nil =>
    refine ⟨a, h, Finset.Subset.refl _, fun _ _ _ => rfl, id, Or.inl, fun _ _ => Or.inl rfl,
      fun _ => ⟨?_, fun hon => hon.elim⟩, fun _ => hne.resolve_left fun h => h rfl⟩
    rw [List.append_nil]
    exact ht
  | cons i path ih =>
    have hstep : S.path (q ++ [i]) := by
      rw [List.append_cons] at hp
      exact S.above hp
    obtain ⟨a₁, h₁⟩ := ensureTable_way h ht hstep flags
    rw [ensurePath]
    dsimp only
    rcases eq_or_ne (ensureTable σ table i flags).1 0 with hzero | hne
    · rw [if_pos hzero]
      exact ⟨a₁, h₁.stop hzero⟩
    · rw [if_neg hne]
      obtain ⟨a₂, h₂⟩ := ih h₁.tree (h₁.arrived hne).1 (Or.inr hne) (by rwa [← List.append_cons])
      exact ⟨a₂, h₁.trans hp hne h₂⟩

/-! ### Which pages can be mapped -/

/-- The slot `leaf` at the end of the path can be taken, with the pages `free` for new tables:
tables that are there are followed, large pages are in the way, and once a table is missing
there must be a page for it and for every table below; page 0 is as good as none. -/
def Mappable (m : Mem) (free : Finset ℕ) (leaf : ℕ) : ℕ → List ℕ → Prop
  | t, [] => slot m t leaf &&& vmmPresent = 0
  | t, i :: path =>
    if slot m t i &&& vmmPresent = 0 then 0 ∉ free ∧ path.length + 1 ≤ free.card
    else slot m t i &&& entryLarge = 0 ∧ tableFromEntry (slot m t i) ≠ 0 ∧
      Mappable m free leaf (tableFromEntry (slot m t i)).toNat path

section Mappable

variable {free : Finset ℕ} {leaf : ℕ}

theorem mappable_absent (h : (slot m t i).getLsbD 0 = false) :
    Mappable m free leaf t (i :: path) ↔ 0 ∉ free ∧ path.length + 1 ≤ free.card := by
  rw [Mappable, if_pos ((absent_iff _).2 h)]

theorem mappable_there (h : (slot m t i).getLsbD 0 = true) :
    Mappable m free leaf t (i :: path) ↔ (slot m t i).getLsbD 7 = false ∧
      tableFromEntry (slot m t i) ≠ 0 ∧
        Mappable m free leaf (tableFromEntry (slot m t i)).toNat path := by
  rw [Mappable, if_neg ((present_iff _).2 h), small_iff]

/-- From an empty table on every table below it is missing. -/
theorem mappable_empty (h : ∀ {j}, j < 512 → slot m t j = 0) (hleaf : leaf < 512)
    (hpath : ∀ j ∈ path, j < 512) :
    Mappable m free leaf t path ↔ path = [] ∨ 0 ∉ free ∧ path.length ≤ free.card := by
  cases path with
  | nil =>
    rw [Mappable, h hleaf]
    exact iff_of_true BitVec.zero_and (Or.inl rfl)
  | cons i path =>
    rw [mappable_absent (by rw [h (hpath i List.mem_cons_self)]; rfl), List.length_cons]
    exact ⟨Or.inr, fun hroom => hroom.resolve_left (List.cons_ne_nil _ _)⟩

/-- Only the entries on the way and the last slot count. -/
theorem mappable_congr (ht : HasTable S root m q t) (ht' : HasTable S root m' q t)
    (hp : S.path (q ++ path))
    (hsame : ∀ p j, OnWay q (path ++ [leaf]) p j → entries root m' p j = entries root m p j) :
    Mappable m' free leaf t path ↔ Mappable m free leaf t path := by
  induction path generalizing q t with
  | nil =>
    have hslot := hsame q leaf (Or.inl ⟨rfl, rfl⟩)
    rw [ht'.entries_eq, ht.entries_eq] at hslot
    rw [Mappable, Mappable, hslot]
  | cons i path ih =>
    have hslot := hsame q i (Or.inl ⟨rfl, rfl⟩)
    rw [ht'.entries_eq, ht.entries_eq] at hslot
    rw [List.append_cons] at hp
    rcases Bool.eq_false_or_eq_true ((slot m t i).getLsbD 0) with hthere | habsent
    · rw [mappable_there hthere, mappable_there (by rw [hslot]; exact hthere), hslot]
      refine and_congr_right fun hsmall => and_congr_right fun _ => ?_
      have hbelow : ∀ {m}, HasTable S root m q t → (slot m t i).getLsbD 0 = true →
          (slot m t i).getLsbD 7 = false →
          HasTable S root m (q ++ [i]) (tableFromEntry (slot m t i)).toNat := fun ht h h' =>
        hasTable_concat.2 ⟨S.above hp, _, ht, subTarget_eq_some.2 ⟨h, Or.inr h', rfl⟩⟩
      have hnext := hbelow ht' (by rw [hslot]; exact hthere) (by rw [hslot]; exact hsmall)
      rw [hslot] at hnext
      exact ih (hbelow ht hthere hsmall) hnext hp fun p j hon => hsame p j (Or.inr hon)
    · rw [mappable_absent habsent, mappable_absent (by rw [hslot]; exact habsent)]

/-- A page whose leaf is missing can be mapped when no large page is in the way and there are
pages for all tables. -/
theorem mappable_of_room (ht : HasTable S root m q t) (hp : S.path (q ++ path))
    (hway : ∀ {p j}, OnWay q path p j → (entries root m p j).getLsbD 0 = true →
      (entries root m p j).getLsbD 7 = false ∧ tableFromEntry (entries root m p j) ≠ 0)
    (hempty : (entries root m (q ++ path) leaf).getLsbD 0 = false) (hzero : 0 ∉ free)
    (hroom : path.length ≤ free.card) : Mappable m free leaf t path := by
  induction path generalizing q t with
  | nil =>
    rw [List.append_nil, ht.entries_eq] at hempty
    rw [Mappable]
    exact (absent_iff _).2 hempty
  | cons i path ih =>
    rw [List.append_cons] at hp hempty
    rw [List.length_cons] at hroom
    rcases Bool.eq_false_or_eq_true ((slot m t i).getLsbD 0) with hthere | habsent
    · obtain ⟨hsmall, hne⟩ := hway (Or.inl ⟨rfl, rfl⟩) (by rw [ht.entries_eq]; exact hthere)
      rw [ht.entries_eq] at hsmall hne
      have hnext := hasTable_concat.2
        ⟨S.above hp, _, ht, subTarget_eq_some.2 ⟨hthere, Or.inr hsmall, rfl⟩⟩
      exact (mappable_there hthere).2
        ⟨hsmall, hne, ih hnext hp (fun hon => hway (Or.inr hon)) hempty (by omega)⟩
    · exact (mappable_absent habsent).2 ⟨hzero, hroom⟩

/-- `ensure_table` on a missing entry takes the lowest free page. -/
theorem ensureTable_absent (hr : Refines bootstrapLimit σ.pmm a) (flags : U64)
    (habsent : (slot σ.mem table.toNat i).getLsbD 0 = false) :
    ((ensureTable σ table i flags).1 = 0 ∧ (0 ∈ a.free ∨ a.free = ∅)) ∨
    ((ensureTable σ table i flags).1 ≠ 0 ∧ 0 ∉ a.free ∧
      ∃ c ∈ a.free, freeSet bootstrapLimit (ensureTable σ table i flags).2.pmm =
        a.free.erase c) := by
  rw [ensureTable, if_neg (not_not.2 ((absent_iff _).2 habsent))]
  dsimp only
  rcases hr.allocPage_cases with ⟨hnone, halloc⟩ | ⟨c, hc, hmin, hpage, hr'⟩
  · rw [halloc, if_pos rfl]
    exact Or.inl ⟨rfl, Or.inr hnone⟩
  · split_ifs with hzero
    · rw [hzero, show (0 : U64).toNat = 0 from rfl] at hpage
      obtain rfl : c = 0 := by omega
      exact Or.inl ⟨rfl, Or.inl hc⟩
    · refine Or.inr ⟨hzero, fun hmem => hzero ?_, c, hc, ?_⟩
      · obtain rfl : c = 0 := Nat.le_zero.1 (hmin 0 hmem)
        exact BitVec.eq_of_toNat_eq hpage
      · rw [hr'.freeSet_eq, PageSets.free_take]

/-- The entries that a step down has left to be looked at. -/
theorem Way.later_onWay (h : Way S root flags σ a q [i] r a')
    (hp : S.path (q ++ [i] ++ path)) (hleaf : leaf < 512) {p : List ℕ} {j : ℕ}
    (hon : OnWay (q ++ [i]) (path ++ [leaf]) p j) :
    entries root r.2.mem p j = entries root σ.mem p j := by
  have hlen := hon.length.1
  rw [List.length_append, List.length_singleton] at hlen
  rcases onWay_concat.1 hon with hon | ⟨rfl, rfl⟩
  · exact h.later (S.closed (hon.path hp)) (S.lt (hon.path hp)) (by omega)
  · exact h.later hp hleaf (by omega)

/-- **One step down**: the page can be mapped if the step finds or makes a table, and it can be
mapped from there. -/
theorem Way.mappable_cons (htree : Tree S root σ a)
    (h : Way S root flags σ a q [i] (ensureTable σ table i flags) a')
    (ht : HasTable S root σ.mem q table.toNat) (hp : S.path (q ++ [i] ++ path))
    (hleaf : leaf < 512) :
    Mappable σ.mem (freeSet bootstrapLimit σ.pmm) leaf table.toNat (i :: path) ↔
      (ensureTable σ table i flags).1 ≠ 0 ∧ Mappable (ensureTable σ table i flags).2.mem
        (freeSet bootstrapLimit (ensureTable σ table i flags).2.pmm) leaf
        (ensureTable σ table i flags).1.toNat path := by
  have hstep := S.above hp
  rcases Bool.eq_false_or_eq_true ((slot σ.mem table.toNat i).getLsbD 0) with hthere | habsent
  · rw [mappable_there hthere]
    rcases Bool.eq_false_or_eq_true ((slot σ.mem table.toNat i).getLsbD 7) with hlarge | hsmall
    · refine iff_of_false (fun hc => absurd (hc.1.symm.trans hlarge) (by simp)) fun hc => hc.1 ?_
      rw [ensureTable, if_pos ((present_iff _).2 hthere), if_pos ((large_iff _).2 hlarge)]
    · have heq : ensureTable σ table i flags = _ := ensureTable_there hthere hsmall
      have hfirst : (ensureTable σ table i flags).1 =
          tableFromEntry (slot σ.mem table.toNat i) := by rw [heq]
      have hpmm : (ensureTable σ table i flags).2.pmm = σ.pmm := by rw [heq]
      rw [and_iff_right hsmall, hpmm, ← hfirst]
      refine and_congr_right fun hnext => (mappable_congr ?_ (h.arrived hnext).1 hp
        fun p j hon => h.later_onWay hp hleaf hon).symm
      rw [hfirst]
      exact hasTable_concat.2 ⟨hstep, _, ht, subTarget_eq_some.2 ⟨hthere, Or.inr hsmall, rfl⟩⟩
  · -- with a new table the rest of the way is missing
    rw [mappable_absent habsent, htree.refines.freeSet_eq]
    rcases ensureTable_absent htree.refines flags habsent with
      ⟨hzero, hfull⟩ | ⟨hnext, hfree, c, hc, herase⟩
    · refine iff_of_false ?_ fun hnext => hnext.1 hzero
      rintro ⟨hfree, hroom⟩
      rcases hfull with hmem | hnone
      · exact hfree hmem
      · rw [hnone, Finset.card_empty] at hroom
        omega
    · have hnew : ∀ {j}, j < 512 →
          slot (ensureTable σ table i flags).2.mem (ensureTable σ table i flags).1.toNat j = 0 := by
        intro j hj
        rw [← (h.arrived hnext).1.entries_eq, h.later hstep hj (by simp)]
        exact entries_of_none hstep
          (not_hasTable_of_absent (by rw [ht.entries_eq]; exact habsent)) j
      have hcard := Finset.card_erase_add_one hc
      rw [and_iff_right hnext, herase, mappable_empty hnew hleaf (S.lt_of_mem hp),
        and_iff_right hfree]
      constructor
      · exact fun hroom => Or.inr ⟨fun hmem => hfree (Finset.mem_of_mem_erase hmem), by omega⟩
      · rintro (rfl | ⟨-, hroom⟩)
        · rw [List.length_nil]
          omega
        · omega

/-- **Which pages can be mapped**, in terms of the tables and the free pages before. -/
theorem mapLeaf_eq_zero_iff (h : Tree S root σ a)
    (ht : HasTable S root σ.mem q table.toNat) (hne : path ≠ [] ∨ table ≠ 0)
    (hp : S.path (q ++ path)) (hleaf : leaf < 512) (flags e : U64) :
    (mapLeaf leaf e (ensurePath flags path table σ)).1 = 0 ↔
      Mappable σ.mem (freeSet bootstrapLimit σ.pmm) leaf table.toNat path := by
  induction path generalizing q table σ a with
  | nil =>
    rw [ensurePath, mapLeaf, if_neg (hne.resolve_left fun h => h rfl), Mappable]
    split_ifs with hpresent
    · exact iff_of_false (by decide : (-2 : ℤ) ≠ 0) hpresent
    · exact iff_of_true rfl (not_not.1 hpresent)
  | cons i path ih =>
    rw [List.append_cons] at hp
    obtain ⟨a₁, h₁⟩ := ensureTable_way h ht (S.above hp) flags
    rw [h₁.mappable_cons h ht hp hleaf, ensurePath]
    dsimp only
    rcases eq_or_ne (ensureTable σ table i flags).1 0 with hzero | hnext
    · rw [if_pos hzero, mapLeaf, if_pos rfl]
      exact iff_of_false (by decide : (-1 : ℤ) ≠ 0) fun hc => hc.1 hzero
    · rw [if_neg hnext, and_iff_right hnext]
      exact ih h₁.tree (h₁.arrived hnext).1 (Or.inr hnext) hp

end Mappable

/-! ### Translation -/

/-- The entries met on the way to a page, from the entry `e` and those `below`:
none when one is missing.  In the second and third level, with `n` levels to go,
the page-size bit ends the way. -/
def trailStep (e : U64) (n : ℕ) (below : Option (List U64)) : Option (List U64) :=
  if e &&& vmmPresent = 0 then none
  else if e &&& entryLarge ≠ 0 ∧ (n = 1 ∨ n = 2) then some [e]
  else below.map (e :: ·)

/-- The entries that the hardware meets in memory, from the table at `t`. -/
def trail (m : Mem) : ℕ → List ℕ → Option (List U64)
  | _, [] => some []
  | t, i :: rest =>
    trailStep (slot m t i) rest.length (trail m (tableFromEntry (slot m t i)).toNat rest)

theorem trail_cons (m : Mem) (t i : ℕ) (rest : List ℕ) : trail m t (i :: rest) =
    trailStep (slot m t i) rest.length (trail m (tableFromEntry (slot m t i)).toNat rest) := rfl

theorem trail_four (m : Mem) (t i₄ i₃ i₂ i₁ : ℕ) : trail m t [i₄, i₃, i₂, i₁] =
    let e₄ := slot m t i₄
    let e₃ := slot m (tableFromEntry e₄).toNat i₃
    let e₂ := slot m (tableFromEntry e₃).toNat i₂
    let e₁ := slot m (tableFromEntry e₂).toNat i₁
    trailStep e₄ 3 (trailStep e₃ 2 (trailStep e₂ 1 (trailStep e₁ 0 (some [])))) := rfl

/-- What `trail` gives, from the entries by their paths. -/
def trailOf : (List ℕ → ℕ → U64) → List ℕ → Option (List U64)
  | _, [] => some []
  | v, i :: rest => trailStep (v [] i) rest.length (trailOf (fun p j => v (i :: p) j) rest)

theorem trailStep_absent (h : e.getLsbD 0 = false) (n : ℕ) (below : Option (List U64)) :
    trailStep e n below = none := by
  rw [trailStep, if_pos ((absent_iff e).2 h)]

theorem trailStep_large (h : e.getLsbD 0 = true) (hlarge : e.getLsbD 7 = true) {n : ℕ}
    (hn : n = 1 ∨ n = 2) (below : Option (List U64)) : trailStep e n below = some [e] := by
  rw [trailStep, if_neg ((present_iff e).2 h), if_pos ⟨(large_iff e).2 hlarge, hn⟩]

theorem trailStep_table (h : e.getLsbD 0 = true) {n : ℕ}
    (hsmall : e.getLsbD 7 = true → ¬ (n = 1 ∨ n = 2)) (below : Option (List U64)) :
    trailStep e n below = below.map (e :: ·) := by
  rw [trailStep, if_neg ((present_iff e).2 h), if_neg]
  rintro ⟨hlarge, hn⟩
  exact hsmall ((large_iff e).1 hlarge) hn

/-- What an entry can be. -/
theorem entry_cases (e : U64) (n : ℕ) : e.getLsbD 0 = false ∨
    (e.getLsbD 0 = true ∧ e.getLsbD 7 = true ∧ (n = 1 ∨ n = 2)) ∨
    (e.getLsbD 0 = true ∧ (e.getLsbD 7 = true → ¬ (n = 1 ∨ n = 2))) := by
  rcases Bool.eq_false_or_eq_true (e.getLsbD 0) with hpresent | habsent
  · rcases Decidable.em (e.getLsbD 7 = true ∧ (n = 1 ∨ n = 2)) with hlarge | hsmall
    · exact Or.inr (Or.inl ⟨hpresent, hlarge⟩)
    · exact Or.inr (Or.inr ⟨hpresent, fun h hn => hsmall ⟨h, hn⟩⟩)
  · exact Or.inl habsent

/-- Only where an entry leads to a table does it matter what is below. -/
theorem trailStep_congr {n : ℕ} {below below' : Option (List U64)}
    (h : e.getLsbD 0 = true → (e.getLsbD 7 = true → ¬ (n = 1 ∨ n = 2)) → below = below') :
    trailStep e n below = trailStep e n below' := by
  rcases entry_cases e n with habsent | ⟨hpresent, hlarge, hn⟩ | ⟨hpresent, hsmall⟩
  · rw [trailStep_absent habsent, trailStep_absent habsent]
  · rw [trailStep_large hpresent hlarge hn, trailStep_large hpresent hlarge hn]
  · rw [h hpresent hsmall]

/-- A table that the hardware comes by is one of the tree, as far as the tree's
paths go. -/
theorem HasTable.step {r : List ℕ} (hf : HasTable S root m p f)
    (hlen : p.length + (r.length + 1) = 4) (hrest : r ≠ []) (hp : S.path (p ++ [i]))
    (hpresent : (slot m f i).getLsbD 0 = true)
    (hsmall : (slot m f i).getLsbD 7 = true → ¬ (r.length = 1 ∨ r.length = 2)) :
    HasTable S root m (p ++ [i]) (tableFromEntry (slot m f i)).toNat := by
  refine hasTable_concat.2 ⟨hp, f, hf, subTarget_eq_some.2 ⟨hpresent, ?_, rfl⟩⟩
  rcases Bool.eq_false_or_eq_true ((slot m f i).getLsbD 7) with hlarge | hlarge
  · -- only in the PML4 does the bit say nothing
    have hne := hsmall hlarge
    have hpos := List.length_pos_iff.2 hrest
    obtain rfl : p = [] := List.length_eq_zero_iff.1 (by omega)
    exact Or.inl (hasTable_nil.1 hf)
  · exact Or.inr hlarge

theorem dropLast_step {r : List ℕ} (hrest : r ≠ []) :
    p ++ (i :: r).dropLast = p ++ [i] ++ r.dropLast := by
  rw [List.dropLast_cons_of_ne_nil hrest, List.append_cons]

/-- The trail of a path is read off the entries. -/
theorem HasTable.trail_eq {r : List ℕ} (hf : HasTable S root m p f)
    (hlen : p.length + r.length = 4) (hpath : S.path (p ++ r.dropLast)) :
    trail m f r = trailOf (fun q j => entries root m (p ++ q) j) r := by
  induction r generalizing p f with
  | nil => rfl
  | cons i r ih =>
    rw [trail, trailOf, List.append_nil, hf.entries_eq]
    rcases eq_or_ne r [] with rfl | hrest
    · rfl
    rw [dropLast_step hrest] at hpath
    rw [List.length_cons] at hlen
    refine trailStep_congr fun hpresent hsmall => ?_
    have hg := hf.step hlen hrest (S.above hpath) hpresent hsmall
    rw [ih hg (by rw [List.length_append, List.length_singleton]; omega) hpath]
    simp only [List.append_assoc, List.singleton_append]

/-- Memory that agrees on the tables gives the same trails. -/
theorem HasTable.trail_congr {r : List ℕ} (hf : HasTable S root m p f)
    (hlen : p.length + r.length = 4) (hpath : S.path (p ++ r.dropLast))
    (hlt : ∀ i ∈ r, i < 512)
    (hsame : ∀ {q g j}, HasTable S root m q g → p <+: q → j < 512 → slot m' g j = slot m g j) :
    trail m' f r = trail m f r := by
  induction r generalizing p f with
  | nil => rfl
  | cons i r ih =>
    rw [trail, trail, hsame hf (List.prefix_refl p) (hlt i (List.mem_cons_self ..))]
    rcases eq_or_ne r [] with rfl | hrest
    · rfl
    rw [dropLast_step hrest] at hpath
    rw [List.length_cons] at hlen
    refine trailStep_congr fun hpresent hsmall => ?_
    have hg := hf.step hlen hrest (S.above hpath) hpresent hsmall
    exact ih hg (by rw [List.length_append, List.length_singleton]; omega) hpath
      (fun j hj => hlt j (List.mem_cons_of_mem i hj))
      fun hq hpre hj => hsame hq ((List.prefix_append p [i]).trans hpre) hj

/-- The same way with more permissions on it. -/
def Raise (flags : U64) (l l' : List U64) : Prop :=
  List.Forall₂ (fun e e' => e' = e ∨ e' = e ||| (flags &&& (vmmWritable ||| vmmUser))) l l' ∧
    l'.getLast? = l.getLast?

theorem trailOf_ne_nil (v : List ℕ → ℕ → U64) {rest : List ℕ} (hrest : rest ≠ []) :
    trailOf v rest ≠ some [] := by
  rcases rest with _ | ⟨i, rest⟩
  · exact absurd rfl hrest
  · rw [trailOf]
    rcases entry_cases (v [] i) rest.length with habsent | ⟨hpresent, hlarge, hn⟩
      | ⟨hpresent, hsmall⟩
    · rw [trailStep_absent habsent]
      simp
    · rw [trailStep_large hpresent hlarge hn]
      simp
    · rw [trailStep_table hpresent hsmall, Ne, Option.map_eq_some_iff]
      simp

theorem Raise.cons {e' : U64} {l l' : List U64} (h : Raise flags l l')
    (he : e' = e ∨ l ≠ [] ∧ e' = e ||| (flags &&& (vmmWritable ||| vmmUser))) :
    Raise flags (e :: l) (e' :: l') := by
  obtain ⟨hall, hlast⟩ := h
  refine ⟨List.Forall₂.cons (he.imp_right fun h => h.2) hall, ?_⟩
  rcases he with rfl | ⟨hne, -⟩
  · rw [List.getLast?_cons, List.getLast?_cons, hlast]
  · have hne' : l' ≠ [] :=
      fun hnil => hne (List.length_eq_zero_iff.1 (by rw [hall.length_eq, hnil]; rfl))
    rw [List.getLast?_cons_of_ne_nil hne, List.getLast?_cons_of_ne_nil hne', hlast]

/-- **Raising entries translates nothing anew.**  When the entries of a path have
been raised, except for the last, and below a missing entry there was nothing,
the hardware comes the same way. -/
theorem trailOf_raises {v v' : List ℕ → ℕ → U64} (hraised : ∀ p j s, path = p ++ j :: s →
      v' p j = v p j ∨ s ≠ [] ∧ Raised flags (v p j) (v' p j))
    (hground : ∀ p i j s, path = p ++ i :: j :: s → (v p i).getLsbD 0 = false →
      v (p ++ [i]) j = 0) :
    Option.Rel (Raise flags) (trailOf v path) (trailOf v' path) := by
  induction path generalizing v v' with
  | nil => exact Option.Rel.some ⟨List.Forall₂.nil, rfl⟩
  | cons i rest ih =>
    have hbelow : Option.Rel (Raise flags) (trailOf (fun p j => v (i :: p) j) rest)
        (trailOf (fun p j => v' (i :: p) j) rest) :=
      ih (fun p j s hp => hraised (i :: p) j s (by rw [hp]; rfl))
        (fun p k j s hp => hground (i :: p) k j s (by rw [hp]; rfl))
    have hne : rest ≠ [] → trailOf (fun p j => v (i :: p) j) rest ≠ some [] := trailOf_ne_nil _
    have hnone : (v [] i).getLsbD 0 = false → rest ≠ [] →
        trailOf (fun p j => v (i :: p) j) rest = none := by
      intro habsent hrest
      obtain ⟨j, s, rfl⟩ := List.exists_cons_of_ne_nil hrest
      have hzero : v [i] j = 0 := hground [] i j s rfl habsent
      rw [trailOf, hzero]
      exact trailStep_absent (by simp) _ _
    have hentry := hraised [] i rest rfl
    rw [trailOf, trailOf]
    generalize trailOf (fun p j => v (i :: p) j) rest = below at hbelow hne hnone ⊢
    generalize trailOf (fun p j => v' (i :: p) j) rest = below' at hbelow ⊢
    generalize v [] i = e at hentry hnone ⊢
    generalize v' [] i = e' at hentry ⊢
    rcases hentry with rfl | ⟨hrest, hr⟩
    · rcases entry_cases e' rest.length with habsent | ⟨hpresent, hlarge, hn⟩ | ⟨hpresent, hsmall⟩
      · rw [trailStep_absent habsent, trailStep_absent habsent]
        exact Option.Rel.none
      · rw [trailStep_large hpresent hlarge hn, trailStep_large hpresent hlarge hn]
        exact Option.Rel.some ⟨List.Forall₂.cons (Or.inl rfl) List.Forall₂.nil, rfl⟩
      · rw [trailStep_table hpresent hsmall, trailStep_table hpresent hsmall]
        cases hbelow with
        | none => exact Option.Rel.none
        | some h => exact Option.Rel.some (h.cons (Or.inl rfl))
    · cases hr with
      | there hpresent hsmall =>
        obtain ⟨-, hbits⟩ := raise_bits flags e
        rw [trailStep_table hpresent fun hlarge => absurd (hsmall.symm.trans hlarge) (by simp),
          trailStep_table (by rw [hbits, hpresent, Bool.true_or])
            fun hlarge => absurd hlarge (by rw [hbits, hsmall]; simp)]
        cases hbelow with
        | none => exact Option.Rel.none
        | some h =>
          exact Option.Rel.some (h.cons (Or.inr ⟨fun hnil => hne hrest (by rw [hnil]), rfl⟩))
      | new habsent halign hbound hzero =>
        -- the new table is empty, and there was nothing below
        obtain ⟨-, hpresent, hsmall, -⟩ := tableEntry_spec flags halign hbound
        obtain rfl := hnone habsent hrest
        rw [trailStep_absent habsent,
          trailStep_table hpresent fun hlarge => absurd (hsmall.symm.trans hlarge) (by simp)]
        cases hbelow
        exact Option.Rel.none

/-- Entries above the last level have been raised, and no other entry has changed. -/
structure Raises (S : TablePaths) (root : ℕ) (flags : U64) (m m' : Mem) : Prop where
  keep : ∀ {p f}, HasTable S root m p f → HasTable S root m' p f
  entry : ∀ {p j}, S.path p → j < 512 → entries root m' p j = entries root m p j ∨
    p.length < 3 ∧ Raised flags (entries root m p j) (entries root m' p j)

theorem Raises.refl (S : TablePaths) (root : ℕ) (flags : U64) (m : Mem) : Raises S root flags m m :=
  ⟨id, fun _ _ => Or.inl rfl⟩

/-- A way down raises entries above the last level, and no others. -/
theorem Way.raises (hw : Way S root flags σ a q path r a')
    (hlen : (q ++ path).length ≤ 3) : Raises S root flags σ.mem r.2.mem := by
  refine ⟨hw.keep, fun hp hj => (hw.entry hp hj).imp_right fun ⟨hon, hr⟩ => ⟨?_, hr⟩⟩
  have := hon.length.2
  rw [← List.length_append] at this
  omega

/-- **Raising keeps every trail.** -/
theorem Raises.trail_rel (h : Raises S root flags m m') {rest : List ℕ} (hrest : rest.length = 4)
    (hpath : S.path rest.dropLast) (hlt : ∀ i ∈ rest, i < 512) :
    Option.Rel (Raise flags) (trail m root rest) (trail m' root rest) := by
  rw [HasTable.trail_eq (S := S) (p := []) (hasTable_nil.2 rfl) (by simpa using hrest) hpath,
    HasTable.trail_eq (S := S) (p := []) (hasTable_nil.2 rfl) (by simpa using hrest) hpath]
  have habove : ∀ {p j s}, rest = p ++ j :: s → S.path p := by
    intro p j s hp
    rw [hp, List.dropLast_append_cons] at hpath
    exact S.above hpath
  refine trailOf_raises (fun p j s hp => ?_) fun p i j s hp habsent => ?_
  · refine (h.entry (habove hp) (hlt j (by rw [hp]; simp))).imp_right fun ⟨hlen, hr⟩ => ⟨?_, hr⟩
    rintro rfl
    rw [hp, List.length_append, List.length_singleton] at hrest
    omega
  · refine entries_of_none (S := S) (habove (j := j) (s := s) ?_) (not_hasTable_of_absent habsent) j
    rw [hp, List.append_cons, List.nil_append]

/-- A trail looks at the entries of its path only. -/
theorem trailOf_congr {v v' : List ℕ → ℕ → U64}
    (h : ∀ p j s, path = p ++ j :: s → v' p j = v p j) : trailOf v' path = trailOf v path := by
  induction path generalizing v v' with
  | nil => rfl
  | cons i rest ih =>
    rw [trailOf, trailOf, h [] i rest rfl, ih fun p j s hp => h (i :: p) j s (by rw [hp]; rfl)]

/-- Writing a slot of a last table changes the trail of its page only. -/
theorem SetEntry.trail_of_ne (h : SetEntry S root m m' q i e) {rest : List ℕ}
    (hrest : rest.length = 4) (hpath : S.path rest.dropLast) (hlt : ∀ i ∈ rest, i < 512)
    (hq : q.length = 3) (hne : rest ≠ q ++ [i]) : trail m' root rest = trail m root rest := by
  rw [HasTable.trail_eq (S := S) (p := []) (hasTable_nil.2 rfl) (by simpa using hrest) hpath,
    HasTable.trail_eq (S := S) (p := []) (hasTable_nil.2 rfl) (by simpa using hrest) hpath]
  refine trailOf_congr fun p j s hp => ?_
  have habove : S.path p := by
    rw [hp, List.dropLast_append_cons] at hpath
    exact S.above hpath
  refine (h habove (hlt j (by rw [hp]; simp))).2 fun ⟨hpq, hj⟩ => hne ?_
  have hpq : p = q := hpq
  obtain rfl : s = [] := by
    rw [hp, List.length_append, List.length_cons, hpq, hq] at hrest
    exact List.length_eq_zero_iff.1 (by omega)
  rw [hp, hpq, hj]

/-- A page that is mapped through four levels. -/
theorem trailOf_full {v : List ℕ → ℕ → U64} {i₄ i₃ i₂ i₁ : ℕ} (h₄ : (v [] i₄).getLsbD 0 = true)
    (h₃ : (v [i₄] i₃).getLsbD 0 = true) (hs₃ : (v [i₄] i₃).getLsbD 7 = false)
    (h₂ : (v [i₄, i₃] i₂).getLsbD 0 = true) (hs₂ : (v [i₄, i₃] i₂).getLsbD 7 = false)
    (h₁ : (v [i₄, i₃, i₂] i₁).getLsbD 0 = true) :
    trailOf v [i₄, i₃, i₂, i₁] =
      some [v [] i₄, v [i₄] i₃, v [i₄, i₃] i₂, v [i₄, i₃, i₂] i₁] := by
  rw [trailOf, trailStep_table h₄ (by simp), trailOf,
    trailStep_table h₃ fun hl => absurd (hs₃.symm.trans hl) (by simp), trailOf,
    trailStep_table h₂ fun hl => absurd (hs₂.symm.trans hl) (by simp), trailOf,
    trailStep_table h₁ (by simp)]
  rfl

/-- The physical address at the end of a trail: a 1 GiB page after two entries, a
2 MiB page after three, a page after four. -/
def physicalOf (va : U64) (l : List U64) : U64 :=
  match l.length, l.getLast? with
  | 2, some e => (e &&& 0x000FFFFFC0000000) ||| (va &&& 0x3FFFFFFF)
  | 3, some e => (e &&& 0x000FFFFFFFE00000) ||| (va &&& 0x1FFFFF)
  | 4, some e => (e &&& entryAddrMask) ||| (va &&& 0xFFF)
  | _, _ => 0

theorem physicalOf_page (va e₄ e₃ e₂ e₁ : U64) :
    physicalOf va [e₄, e₃, e₂, e₁] = (e₁ &&& entryAddrMask) ||| (va &&& pageOffsetMask) := rfl

/-- Raising rights does not change where an address leads. -/
theorem Raise.physicalOf_eq {l l' : List U64} (h : Raise flags l l') (va : U64) :
    physicalOf va l' = physicalOf va l := by
  rw [physicalOf, physicalOf, h.2, h.1.length_eq]

/-! ### An empty tree -/

/-- An allocator with the pages from 2 MiB to 256 MiB. -/
def highPmm : Pmm := PmmBoot.state bootstrapLimit ⟨0, 0, 0, 0, 0⟩ (.init 0x200000 0x10000000)

/-- Its pages. -/
def highPages : PageSets := PmmBoot.sets bootstrapLimit (.init 0x200000 0x10000000)

theorem highPmm_refines : Refines bootstrapLimit highPmm highPages := pmmBoot_refines _ _ _

theorem mem_highPages_free {c : ℕ} : c ∈ highPages.free ↔ 512 ≤ c ∧ c < 65536 := by
  rw [PageSets.mem_free, highPages, PmmBoot.sets, mem_insidePages, Inside]
  simp [bootstrapLimit, PageSets.empty]
  omega

theorem highPmm_alloc : (pmmAllocPage bootstrapLimit highPmm).1 = 0x200000 :=
  (highPmm_refines.allocPage_eq (mem_highPages_free.2 (by omega))
    fun _ hq => (mem_highPages_free.1 hq).1).1

/-- Empty kernel tables in page 1. -/
def emptyPhys : Phys := ⟨fun _ => 0, highPmm⟩

theorem emptyPhys_tables (hf : HasTable S 0x1000 emptyPhys.mem p f) : p = [] ∧ f = 0x1000 := by
  refine owned_of_leaf ?_ (fun j _ => ?_) hf
  · rfl
  · have hslot : slot emptyPhys.mem 0x1000 j = 0 := read64_eq_zero fun _ _ _ => rfl
    exact subTarget_of_absent (by rw [hslot]; simp)

theorem emptyPhys_tree : Tree S 0x1000 emptyPhys highPages where
  refines := highPmm_refines
  aligned := rfl
  separate hf hg := ⟨rfl, (emptyPhys_tables hf).1.trans (emptyPhys_tables hg).1.symm⟩
  notFree hf := by
    rw [(emptyPhys_tables hf).2, mem_highPages_free]
    decide

end SuiraBox.Mm
