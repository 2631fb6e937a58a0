/-
# Who owns which frame

Page tables of several address spaces share one physical memory with each other
and with single pages held by other owners.  An owner is an address space (it
has a PML4 and all that PML4 slot 1 reaches) or holds one page only.  What an
owner owns is a tree in memory in the sense of `Forest`: the PML4 by the empty
path, tables by paths of one to three indices, user data by paths of four.

`Tables` is the invariant: no frame is owned twice, every owned frame is an
allocated page, and every present entry is a user entry.  `Grows` is what any
operation on one address space does to the rest of the machine: it writes only
to frames that were free and to its own tables, and it gives back no page that
was allocated.  Both are kept by `ensure_table`, by `address_space_map_user` and
by whatever is made of them.
-/

import SuiraBox.Mm.AddressSpace

namespace SuiraBox.Mm

open ByteMem Forest

variable {κ : Type*}

/-- The paths of the owners: those of PML4 slot 1 for address spaces, the empty
path for an owner of a single page. -/
def frameShape (user : κ → Prop) : Shape κ ℕ where
  path k p := p = [] ∨ user k ∧ UserPath p
  nil k := Or.inl rfl
  closed := by
    rintro k p i (h | ⟨hk, hlen, hlt, hhead⟩)
    · exact absurd h (by simp)
    · rcases p with _ | ⟨j, p⟩
      · exact Or.inl rfl
      · refine Or.inr ⟨hk, ?_, fun j' hj' => hlt j' (List.mem_append_left _ hj'), hhead⟩
        rw [List.length_append] at hlen
        omega

/-- Owner `k` owns the frame at `f`, by path `p`. -/
def Owns (user : κ → Prop) (m : Mem) (root : κ → Option ℕ) (k : κ) (p : List ℕ) (f : ℕ) : Prop :=
  Owned (frameShape user) (nextTable m) root k p f

/-- The invariant of page tables and allocator. -/
structure Tables (user : κ → Prop) (root : κ → Option ℕ) (σ : Phys) (a : PageSets) : Prop where
  refines : Refines bootstrapLimit σ.pmm a
  separate : Separate (frameShape user) (nextTable σ.mem) root
  aligned : ∀ {k p f}, Owns user σ.mem root k p f → f % 4096 = 0
  allocated : ∀ {k p f}, Owns user σ.mem root k p f → f / 4096 ∈ a.allocated
  unreserved : ∀ {k p f}, Owns user σ.mem root k p f → f / 4096 ∉ a.reserved
  entry : ∀ {k p f i}, Owns user σ.mem root k p f → user k → UserPath (p ++ [i]) →
    (slot σ.mem f i).getLsbD 0 = true →
      (slot σ.mem f i).getLsbD 2 = true ∧ (p.length < 3 → (slot σ.mem f i).getLsbD 7 = false)

/-- From `σ` to `σ'` owner `k` has grown: by tables in frames that were free,
and by the leaves of `N`. -/
structure Grows (user : κ → Prop) (root : κ → Option ℕ) (k : κ) (N : List ℕ → ℕ → Prop)
    (σ : Phys) (a : PageSets) (σ' : Phys) (a' : PageSets) : Prop where
  usable : a'.usable = a.usable
  reserved : a'.reserved = a.reserved
  allocated : a.allocated ⊆ a'.allocated
  mem : ∀ x, x / 4096 ∉ a.free →
    (∀ p f, Owns user σ.mem root k p f → p.length < 4 → x / 4096 ≠ f / 4096) → σ'.mem x = σ.mem x
  keep : ∀ {p f}, Owns user σ.mem root k p f → Owns user σ'.mem root k p f
  fresh : ∀ {p f}, Owns user σ'.mem root k p f → Owns user σ.mem root k p f ∨
    p.length < 4 ∧ f / 4096 ∈ a.free ∨ p.length = 4 ∧ N p f
  leaf : ∀ {q f i}, Owns user σ.mem root k q f → q.length = 3 → i < 512 →
    (slot σ.mem f i).getLsbD 0 = true → slot σ'.mem f i = slot σ.mem f i
  outside : ∀ {r i}, root k = some r → i < 512 → i ≠ userPml4Index →
    slot σ'.mem r i = slot σ.mem r i

variable {user : κ → Prop} {root : κ → Option ℕ} {k : κ} {σ σ' σ₁ σ₂ : Phys} {a a' a₁ a₂ : PageSets}
  {N N₁ N₂ : List ℕ → ℕ → Prop} {p q : List ℕ} {c f g t i : ℕ} {pml4 : U64} {m' : Mem}
  {pmm' : Pmm}

theorem userPath_nil : UserPath [] := by
  refine ⟨Nat.zero_le _, fun i hi => absurd hi List.not_mem_nil, fun i hi => ?_⟩
  cases hi

theorem UserPath.lt (h : UserPath (q ++ [i])) : i < 512 := h.2.1 i (by simp)

theorem UserPath.length_lt (h : UserPath (q ++ [i])) : q.length < 4 := by
  have hlen := h.1
  rw [List.length_append] at hlen
  exact hlen

/-- A user path stays one when its last step is dropped. -/
theorem UserPath.closed (h : UserPath (q ++ [i])) : UserPath q := by
  obtain ⟨hlen, hlt, hhead⟩ := h
  refine ⟨?_, fun j hj => hlt j (List.mem_append_left _ hj), fun j hj => hhead j ?_⟩
  · rw [List.length_append] at hlen
    omega
  · rw [List.head?_append, hj]
    rfl

/-- A path that goes on is a path of an address space. -/
theorem UserPath.above {p : List ℕ} (h : UserPath (q ++ p)) : UserPath q := by
  induction p using List.reverseRecOn with
  | nil => rwa [List.append_nil] at h
  | append_singleton p i ih =>
    rw [← List.append_assoc] at h
    exact ih h.closed

theorem path_concat : (frameShape user).path k (p ++ [i]) ↔ user k ∧ UserPath (p ++ [i]) :=
  ⟨fun h => h.resolve_left (by simp), Or.inr⟩

theorem nextTable_eq_some {m : Mem} : nextTable m t i = some f ↔
    (slot m t i).getLsbD 0 = true ∧ (tableFromEntry (slot m t i)).toNat = f := by
  rw [nextTable, ← present_iff]
  split_ifs with h
  · rw [Option.some.injEq]
    exact (and_iff_right h).symm
  · exact iff_of_false (by simp) fun hc => h hc.1

theorem nextTable_eq_none {m : Mem} : nextTable m t i = none ↔ (slot m t i).getLsbD 0 = false := by
  rw [nextTable, ← Bool.not_eq_true, ← present_iff]
  split_ifs with h
  · exact iff_of_false (by simp) (not_not.2 h)
  · exact iff_of_true rfl h

theorem nextTable_congr {m : Mem} (h : slot m' f i = slot m f i) :
    nextTable m' f i = nextTable m f i := by
  rw [nextTable, nextTable, h]

/-- The free pages of the allocator only get fewer. -/
theorem Grows.free_subset (h : Grows user root k N σ a σ' a') : a'.free ⊆ a.free := by
  intro x hx
  rw [PageSets.mem_free] at hx ⊢
  rw [h.usable, h.reserved] at hx
  exact ⟨hx.1, hx.2.1, fun hmem => hx.2.2 (h.allocated hmem)⟩

theorem Grows.mono (h : Grows user root k N σ a σ' a')
    (hN : ∀ p f, N p f → N₁ p f) : Grows user root k N₁ σ a σ' a' :=
  { h with fresh := fun ho => (h.fresh ho).imp_right fun h' => h'.imp_right fun ⟨hl, hn⟩ =>
    ⟨hl, hN _ _ hn⟩ }

theorem Grows.refl (σ : Phys) (a : PageSets) : Grows user root k (fun _ _ => False) σ a σ a :=
  ⟨rfl, rfl, Finset.Subset.refl _, fun _ _ _ => rfl, id, Or.inl, fun _ _ _ _ => rfl,
    fun _ _ _ => rfl⟩

theorem Grows.trans (h₁ : Grows user root k N₁ σ a σ₁ a₁) (h₂ : Grows user root k N₂ σ₁ a₁ σ₂ a₂) :
    Grows user root k (fun p f => N₁ p f ∨ N₂ p f) σ a σ₂ a₂ where
  usable := h₂.usable.trans h₁.usable
  reserved := h₂.reserved.trans h₁.reserved
  allocated := h₁.allocated.trans h₂.allocated
  mem x hx htab := by
    refine (h₂.mem x (fun hfree => hx (h₁.free_subset hfree)) fun p f ho hlen => ?_).trans
      (h₁.mem x hx htab)
    rcases h₁.fresh ho with hold | ⟨-, hfree⟩ | ⟨hfour, -⟩
    · exact htab p f hold hlen
    · exact fun he => hx (he ▸ hfree)
    · omega
  keep ho := h₂.keep (h₁.keep ho)
  fresh ho := by
    rcases h₂.fresh ho with hold | ⟨hlen, hfree⟩ | ⟨hlen, hn⟩
    · rcases h₁.fresh hold with h | h | ⟨hlen, hn⟩
      · exact Or.inl h
      · exact Or.inr (Or.inl h)
      · exact Or.inr (Or.inr ⟨hlen, Or.inl hn⟩)
    · exact Or.inr (Or.inl ⟨hlen, h₁.free_subset hfree⟩)
    · exact Or.inr (Or.inr ⟨hlen, Or.inr hn⟩)
  leaf ho hlen hi hpres := by
    have hsame := h₁.leaf ho hlen hi hpres
    refine (h₂.leaf (h₁.keep ho) hlen hi ?_).trans hsame
    rw [hsame]
    exact hpres
  outside hr hi hne := (h₂.outside hr hi hne).trans (h₁.outside hr hi hne)

/-- Growing by tables only. -/
theorem Grows.trans_tables (h₁ : Grows user root k (fun _ _ => False) σ a σ₁ a₁)
    (h₂ : Grows user root k (fun _ _ => False) σ₁ a₁ σ₂ a₂) :
    Grows user root k (fun _ _ => False) σ a σ₂ a₂ :=
  (h₁.trans h₂).mono fun _ _ h => h.elim id id

/-- Two owned frames in one page are the same frame, with the same use. -/
theorem Tables.page_unique (h : Tables user root σ a) {k' : κ} (ho : Owns user σ.mem root k p f)
    (ho' : Owns user σ.mem root k' q g) (hpage : f / 4096 = g / 4096) : k = k' ∧ p = q := by
  obtain rfl : f = g := by
    have h₁ := h.aligned ho
    have h₂ := h.aligned ho'
    omega
  exact h.separate ho ho'

/-- Operations on one address space change no other owner's tables. -/
theorem Grows.slot_other (hg : Grows user root k N σ a σ' a') (h : Tables user root σ a) {k' : κ}
    (hk : k' ≠ k) (ho : Owns user σ.mem root k' p f) (hi : i < 512) :
    slot σ'.mem f i = slot σ.mem f i := by
  refine slot_congr (h.aligned ho) hi fun x hx => hg.mem x ?_ ?_
  · rw [hx, PageSets.mem_free]
    exact fun hfree => hfree.2.2 (h.allocated ho)
  · intro p' f' ho' _ hpage
    exact hk (h.page_unique ho ho' (hx.symm.trans hpage)).1

theorem Grows.owns_other (hg : Grows user root k N σ a σ' a') (h : Tables user root σ a) {k' : κ}
    (hk : k' ≠ k) (p : List ℕ) (f : ℕ) :
    Owns user σ'.mem root k' p f ↔ Owns user σ.mem root k' p f :=
  owned_congr (fun ho hp => nextTable_congr (hg.slot_other h hk ho (path_concat.1 hp).2.lt)) p f

/-- Nobody owns anything. -/
theorem Tables.empty (hr : Refines bootstrapLimit σ.pmm a) (hroot : ∀ k, root k = none) :
    Tables user root σ a := by
  have hno : ∀ {k p f}, ¬ Owns user σ.mem root k p f := by
    rintro k p f ⟨-, r, hr, -⟩
    rw [hroot] at hr
    exact absurd hr (by simp)
  exact ⟨hr, fun h => absurd h hno, fun h => absurd h hno, fun h => absurd h hno,
    fun h => absurd h hno, fun h => absurd h hno⟩

/-! ### Changes that keep the invariant -/

/-- Entry `e'` points where `e` does and is a user entry if `e` is one. -/
structure SameTarget (e e' : U64) : Prop where
  present : e'.getLsbD 0 = e.getLsbD 0
  target : tableFromEntry e' = tableFromEntry e
  user : e.getLsbD 2 = true → e'.getLsbD 2 = true
  large : e'.getLsbD 7 = e.getLsbD 7

theorem SameTarget.of_eq {e e' : U64} (h : e' = e) : SameTarget e e' :=
  ⟨by rw [h], by rw [h], by rw [h]; exact id, by rw [h]⟩

/-- Memory may change outside the tables, entries in the bits that do not
matter, and the allocator as long as it keeps what is owned. -/
theorem Tables.write (h : Tables user root σ a) (m' : Mem) (hr : Refines bootstrapLimit pmm' a')
    (hres : a'.reserved = a.reserved)
    (halloc : ∀ {k p f}, Owns user σ.mem root k p f → f / 4096 ∈ a'.allocated)
    (hslot : ∀ {k p f i}, Owns user σ.mem root k p f → user k → UserPath (p ++ [i]) →
      SameTarget (slot σ.mem f i) (slot m' f i)) :
    Tables user root ⟨m', pmm'⟩ a' ∧
      ∀ k p f, Owns user m' root k p f ↔ Owns user σ.mem root k p f := by
  have hsame : ∀ k p f, Owns user m' root k p f ↔ Owns user σ.mem root k p f := by
    refine fun k => owned_congr fun ho hp => ?_
    obtain ⟨hpresent, htarget, -, -⟩ := hslot ho (path_concat.1 hp).1 (path_concat.1 hp).2
    exact if_congr (by rw [present_iff, present_iff, hpresent]) (by rw [htarget]) rfl
  refine ⟨⟨hr, separate_mono h.separate fun k p f => (hsame k p f).1,
    fun ho => h.aligned ((hsame _ _ _).1 ho), fun ho => halloc ((hsame _ _ _).1 ho), fun ho => ?_,
    fun ho hk hp hbit => ?_⟩, hsame⟩
  · rw [hres]
    exact h.unreserved ((hsame _ _ _).1 ho)
  · have ho' := (hsame _ _ _).1 ho
    obtain ⟨hpresent, -, huser, hlarge⟩ := hslot ho' hk hp
    obtain ⟨hu, hl⟩ := h.entry ho' hk hp (hpresent.symm.trans hbit)
    exact ⟨huser hu, fun hlen => hlarge.trans (hl hlen)⟩

/-- A new frame `g` in the empty slot `i` of table `t`. -/
theorem Tables.hang (h : Tables user root σ a) (m' : Mem) (hk : user k)
    (ht : Owns user σ.mem root k q t) (hpath : UserPath (q ++ [i]))
    (hempty : (slot σ.mem t i).getLsbD 0 = false)
    (hr : Refines bootstrapLimit pmm' a') (hres : a'.reserved = a.reserved)
    (halloc : a.allocated ⊆ a'.allocated)
    (hpresent : (slot m' t i).getLsbD 0 = true) (huser : (slot m' t i).getLsbD 2 = true)
    (hlarge : q.length < 3 → (slot m' t i).getLsbD 7 = false)
    (haddr : (tableFromEntry (slot m' t i)).toNat = g)
    (hother : ∀ {k' p f j}, Owns user σ.mem root k' p f → user k' → UserPath (p ++ [j]) →
      (f, j) ≠ (t, i) → slot m' f j = slot σ.mem f j)
    (hleaf : ∀ j, UserPath (q ++ [i] ++ [j]) → slot m' g j = 0)
    (hg : g % 4096 = 0) (hg' : g / 4096 ∈ a'.allocated) (hg'' : g / 4096 ∉ a'.reserved)
    (hfresh : ∀ {k' p}, ¬ Owns user σ.mem root k' p g) :
    Tables user root ⟨m', pmm'⟩ a' ∧ ∀ k' p f,
      Owns user m' root k' p f ↔ Owns user σ.mem root k' p f ∨ k' = k ∧ p = q ++ [i] ∧ f = g := by
  have hiff : ∀ k' p f,
      Owns user m' root k' p f ↔ Owns user σ.mem root k' p f ∨ k' = k ∧ p = q ++ [i] ∧ f = g := by
    refine owned_insert h.separate ht (path_concat.2 ⟨hk, hpath⟩) (nextTable_eq_none.2 hempty)
      (nextTable_eq_some.2 ⟨hpresent, haddr⟩) (fun j hj => nextTable_eq_none.2 ?_)
      fun ho hp hne => nextTable_congr (hother ho (path_concat.1 hp).1 (path_concat.1 hp).2 hne)
    rw [hleaf j (path_concat.1 hj).2]
    simp
  refine ⟨⟨hr, separate_insert h.separate hfresh fun k' p f => (hiff k' p f).1, ?_, ?_, ?_, ?_⟩,
    hiff⟩
  · intro k' p f ho
    rcases (hiff _ _ _).1 ho with ho | ⟨-, -, rfl⟩
    · exact h.aligned ho
    · exact hg
  · intro k' p f ho
    rcases (hiff _ _ _).1 ho with ho | ⟨-, -, rfl⟩
    · exact halloc (h.allocated ho)
    · exact hg'
  · intro k' p f ho
    rcases (hiff _ _ _).1 ho with ho | ⟨-, -, rfl⟩
    · rw [hres]
      exact h.unreserved ho
    · exact hg''
  · intro k' p f j ho hk' hp hbit
    rcases (hiff _ _ _).1 ho with ho | ⟨rfl, rfl, rfl⟩
    · rcases eq_or_ne (f, j) (t, i) with heq | hne
      · obtain ⟨rfl, rfl⟩ := Prod.mk.inj heq
        obtain ⟨rfl, rfl⟩ := h.separate ho ht
        exact ⟨huser, hlarge⟩
      · simp only [hother ho hk' hp hne] at hbit ⊢
        exact h.entry ho hk' hp hbit
    · simp only [hleaf j hp] at hbit
      exact absurd hbit (by simp)

/-! ### `ensure_table` -/

/-- An owned frame is no free page. -/
theorem Tables.not_free (h : Tables user root σ a) (ho : Owns user σ.mem root k p f) :
    f / 4096 ∉ a.free := fun hfree => (PageSets.mem_free.1 hfree).2.2 (h.allocated ho)

/-- Taking a free page and writing to it is nothing to the owners. -/
theorem Tables.alloc (h : Tables user root σ a) (hc : c ∈ a.free)
    (hr : Refines bootstrapLimit pmm' (a.take c)) (hmem : ∀ x, x / 4096 ≠ c → m' x = σ.mem x) :
    Tables user root ⟨m', pmm'⟩ (a.take c) ∧
    (∀ k p f, Owns user m' root k p f ↔ Owns user σ.mem root k p f) ∧
    Grows user root k (fun _ _ => False) σ a ⟨m', pmm'⟩
      (a.take c) := by
  have hslot : ∀ {k p f i}, Owns user σ.mem root k p f → i < 512 →
      slot m' f i = slot σ.mem f i := by
    intro k p f i ho hi
    refine slot_congr (h.aligned ho) hi fun x hx => hmem x fun he => ?_
    exact h.not_free ho (hx ▸ he ▸ hc)
  obtain ⟨htables, howns⟩ := h.write m' hr rfl (fun ho => Finset.mem_insert_of_mem (h.allocated ho))
    fun ho _ hp => SameTarget.of_eq (hslot ho hp.lt)
  refine ⟨htables, howns, rfl, rfl, Finset.subset_insert _ _, fun x hx _ => hmem x ?_,
    fun ho => (howns _ _ _).2 ho, fun ho => Or.inl ((howns _ _ _).1 ho), fun ho _ hi _ =>
    hslot ho hi, fun hr hi _ => hslot (owned_nil.2 hr) hi⟩
  rintro rfl
  exact hx hc

/-- The slots of a PML4 other than slot 1 lie on no user path. -/
theorem Tables.root_slot_ne (h : Tables user root σ a) (ht : Owns user σ.mem root k q t)
    (hpath : UserPath (q ++ [i])) {r j : ℕ} (hroot : root k = some r) (hj : j ≠ userPml4Index) :
    (r, j) ≠ (t, i) := by
  intro heq
  obtain ⟨rfl, rfl⟩ := Prod.mk.inj heq
  obtain ⟨-, rfl⟩ := h.separate (owned_nil.2 hroot) ht
  exact hj (hpath.2.2 j rfl)

/-- Adding flags to a present entry keeps its target. -/
theorem SameTarget.or_flags {e : U64} (flags : U64) (hpresent : e.getLsbD 0 = true) :
    SameTarget e (e ||| (flags &&& (vmmWritable ||| vmmUser))) := by
  have hmask : (flags &&& (vmmWritable ||| vmmUser)) &&& entryAddrMask = 0 := by
    rw [BitVec.and_assoc, show (vmmWritable ||| vmmUser) &&& entryAddrMask = 0#64 from by decide]
    exact BitVec.and_zero
  have hlarge : (vmmWritable ||| vmmUser).getLsbD 7 = false := by decide
  refine ⟨?_, tableFromEntry_or e _ hmask, fun h => ?_, ?_⟩
  · rw [BitVec.getLsbD_or, hpresent, Bool.true_or]
  · rw [BitVec.getLsbD_or, h, Bool.true_or]
  · rw [BitVec.getLsbD_or, BitVec.getLsbD_and, hlarge, Bool.and_false, Bool.or_false]

/-- Tables at different depths have no slot in common. -/
theorem Tables.slot_ne (h : Tables user root σ a) {k' : κ} {j : ℕ} (ho : Owns user σ.mem root k p f)
    (ht : Owns user σ.mem root k' q t) (hlen : p.length ≠ q.length) : (f, j) ≠ (t, i) := by
  intro heq
  rw [(Prod.mk.inj heq).1] at ho
  exact hlen (congrArg List.length (h.separate ho ht).2)

/-- Rewriting one entry of one of its tables is all that an address space has
done, when the entry keeps its target. -/
theorem Tables.setSlot (h : Tables user root σ a) (ht : Owns user σ.mem root k q t)
    (hpath : UserPath (q ++ [i])) (hlen : q.length < 3) {e : U64}
    (he : SameTarget (slot σ.mem t i) e) :
    Tables user root { σ with mem := setSlot σ.mem t i e } a ∧
    (∀ k p f, Owns user (Mm.setSlot σ.mem t i e) root k p f ↔ Owns user σ.mem root k p f) ∧
    Grows user root k (fun _ _ => False) σ a { σ with mem := Mm.setSlot σ.mem t i e } a := by
  have hother : ∀ {k p f j}, Owns user σ.mem root k p f → j < 512 → (f, j) ≠ (t, i) →
      slot (Mm.setSlot σ.mem t i e) f j = slot σ.mem f j :=
    fun ho hj hne => slot_setSlot_of_ne (h.aligned ht) (h.aligned ho) hpath.lt hj hne
  obtain ⟨htables, howns⟩ := h.write (Mm.setSlot σ.mem t i e) h.refines rfl h.allocated
    (by
      intro k p f j ho _ hp
      rcases eq_or_ne (f, j) (t, i) with heq | hne
      · obtain ⟨rfl, rfl⟩ := Prod.mk.inj heq
        rw [slot_setSlot]
        exact he
      · exact SameTarget.of_eq (hother ho hp.lt hne))
  refine ⟨htables, howns, rfl, rfl, Finset.Subset.refl _, fun x _ htab => ?_,
    fun ho => (howns _ _ _).2 ho, fun ho => Or.inl ((howns _ _ _).1 ho), fun ho hthree hj _ => ?_,
    fun hr hj hne => hother (owned_nil.2 hr) hj (h.root_slot_ne ht hpath hr hne)⟩
  · exact setSlot_of_ne (h.aligned ht) hpath.lt (htab q t ht (by omega))
  · exact hother ho hj (h.slot_ne ho ht (by omega))

/-- Hanging a fresh table into an empty slot. -/
theorem Tables.newTable (h : Tables user root σ a) (hk : user k) (ht : Owns user σ.mem root k q t)
    (hpath : UserPath (q ++ [i])) (hlen : q.length < 3)
    (hempty : (slot σ.mem t i).getLsbD 0 = false) {page flags : U64} (hc : c ∈ a.free)
    (hpage : page.toNat = 4096 * c) (hflags : flags.getLsbD 2 = true)
    (hr : Refines bootstrapLimit pmm' (a.take c)) :
    let m' := Mm.setSlot (zeroPage σ.mem page.toNat) t i
      ((page &&& entryAddrMask) ||| vmmPresent ||| (flags &&& (vmmWritable ||| vmmUser)))
    Tables user root ⟨m', pmm'⟩ (a.take c) ∧
    (∀ k' p f, Owns user m' root k' p f ↔
      Owns user σ.mem root k' p f ∨ k' = k ∧ p = q ++ [i] ∧ f = page.toNat) ∧
    Grows user root k (fun _ _ => False) σ a ⟨m', pmm'⟩ (a.take c) := by
  intro m'
  have hcfree := PageSets.mem_free.1 hc
  have hlt : _ < 65536 := h.refines.free_lt hc
  have halign : page.toNat % 4096 = 0 := by omega
  have hdiv : page.toNat / 4096 = c := by omega
  obtain ⟨htarget, hbits⟩ := entry_spec page flags vmmPresent (vmmWritable ||| vmmUser) halign
    (by omega) (by decide) (by decide)
  have hnew : ∀ {k p f}, Owns user σ.mem root k p f → f / 4096 ≠ c :=
    fun ho he => h.not_free ho (he ▸ hc)
  have hslot : slot m' t i =
      (page &&& entryAddrMask) ||| vmmPresent ||| (flags &&& (vmmWritable ||| vmmUser)) :=
    slot_setSlot ..
  have hother : ∀ {k p f j}, Owns user σ.mem root k p f → j < 512 → (f, j) ≠ (t, i) →
      slot m' f j = slot σ.mem f j := by
    intro k p f j ho hj hne
    refine (slot_setSlot_of_ne (h.aligned ht) (h.aligned ho) hpath.lt hj hne).trans ?_
    refine slot_congr (h.aligned ho) hj fun x hx => ?_
    rw [zeroPage_apply halign, if_neg]
    rw [hx, hdiv]
    exact hnew ho
  obtain ⟨htables, howns⟩ := h.hang (g := page.toNat) m' hk ht hpath hempty hr rfl
    (Finset.subset_insert _ _) (by rw [hslot, hbits 0 (by decide)]; rfl)
    (by rw [hslot, hbits 2 (by decide), hflags]; rfl)
    (fun _ => by
      rw [hslot, hbits 7 (by decide), show (vmmWritable ||| vmmUser).getLsbD 7 = false
        from by decide, Bool.and_false]
      rfl)
    (by rw [hslot, htarget]) (fun ho _ hp => hother ho hp.lt)
    (by
      intro j hj
      refine (slot_setSlot_of_ne (h.aligned ht) halign hpath.lt hj.lt fun heq => ?_).trans
        (slot_zeroPage halign hj.lt _)
      have ht' := hnew ht
      rw [← (Prod.mk.inj heq).1] at ht'
      exact ht' hdiv)
    halign (by rw [hdiv]; exact Finset.mem_insert_self _ _) (by rw [hdiv]; exact hcfree.2.1)
    (fun ho => hnew ho hdiv)
  refine ⟨htables, howns, rfl, rfl, Finset.subset_insert _ _, fun x hx htab => ?_,
    fun ho => (howns _ _ _).2 (Or.inl ho), fun ho => ?_, fun ho hthree hj _ => ?_,
    fun hr hj hne => hother (owned_nil.2 hr) hj (h.root_slot_ne ht hpath hr hne)⟩
  · refine (setSlot_of_ne (h.aligned ht) hpath.lt (htab q t ht (by omega))).trans ?_
    rw [zeroPage_apply halign, if_neg]
    rw [hdiv]
    rintro rfl
    exact hx hc
  · rcases (howns _ _ _).1 ho with ho | ⟨-, rfl, rfl⟩
    · exact Or.inl ho
    · refine Or.inr (Or.inl ⟨?_, by rw [hdiv]; exact hc⟩)
      rw [List.length_append, List.length_singleton]
      omega
  · exact hother ho hj (h.slot_ne ho ht (by omega))

/-- With page 0 reserved no owned frame is at address 0, the null pointer. -/
theorem Tables.ne_zero (h : Tables user root σ a) (hzero : 0 ∈ a.reserved)
    (ho : Owns user σ.mem root k p f) : f ≠ 0 := by
  rintro rfl
  exact h.unreserved ho hzero

/-- What has been made is all there is, when no page has been taken. -/
theorem Grows.owns_iff (hg : Grows user root k (fun _ _ => False) σ a σ' a')
    (h' : Tables user root σ' a') (hfree : a'.free = a.free) :
    Owns user σ'.mem root k p f ↔ Owns user σ.mem root k p f := by
  constructor
  · intro ho
    rcases hg.fresh ho with hold | ⟨-, hmem⟩ | ⟨-, hfalse⟩
    · exact hold
    · exact absurd (hfree ▸ hmem) (h'.not_free ho)
    · exact hfalse.elim
  · exact hg.keep

/-- The way down from the tables of `σ` along `path` has ended with `r`, a table
or nothing, after at most `n` pages: tables have been made and nothing else.  When
the path was there before, no page is taken; otherwise one is, if there is one. -/
structure Descends (user : κ → Prop) (root : κ → Option ℕ) (k : κ) (σ : Phys) (a : PageSets)
    (path : List ℕ) (n : ℕ) (r : U64 × Phys) (a' : PageSets) : Prop where
  tables : Tables user root r.2 a'
  grows : Grows user root k (fun _ _ => False) σ a r.2 a'
  owns : r.1 ≠ 0 → Owns user r.2.mem root k path r.1.toNat
  room : a.free.card ≤ a'.free.card + n
  total : 0 ∈ a.reserved → n ≤ a.free.card → r.1 ≠ 0
  there : (∀ {p f}, Owns user σ.mem root k p f → f ≠ 0) → (∃ t, Owns user σ.mem root k path t) →
    a'.free = a.free ∧ r.1 ≠ 0
  takes : (∀ {p f}, Owns user σ.mem root k p f → f ≠ 0) → (∀ t, ¬ Owns user σ.mem root k path t) →
    0 < a.free.card → a'.free.card < a.free.card

/-- `ensure_table` on a table that is not the last of its path: the invariant is
kept, and the answer is the table below.  It takes at most one page, and with a
page to take it does not fail. -/
theorem ensureTable_descends (h : Tables user root σ a) (hk : user k) {table flags : U64}
    (ht : Owns user σ.mem root k q table.toNat) (hpath : UserPath (q ++ [i])) (hlen : q.length < 3)
    (hflags : flags.getLsbD 2 = true) :
    ∃ a', Descends user root k σ a (q ++ [i]) 1 (ensureTable σ table i flags) a' := by
  have hbelow : ∀ {g}, nextTable σ.mem table.toNat i = some g →
      Owns user σ.mem root k (q ++ [i]) g :=
    fun hstep => owned_concat.2 ⟨path_concat.2 ⟨hk, hpath⟩, _, ht, hstep⟩
  unfold ensureTable
  dsimp only
  split_ifs with hpresent hlarge hzero
  · -- a large page: no entry of ours
    rw [present_iff] at hpresent
    rw [large_iff, (h.entry ht hk hpath hpresent).2 hlen] at hlarge
    exact absurd hlarge (by simp)
  · rw [present_iff] at hpresent
    have hsame := SameTarget.or_flags flags hpresent
    obtain ⟨htables, howns, hgrows⟩ := h.setSlot ht hpath hlen hsame
    have hnext := hbelow (nextTable_eq_some.2 ⟨hpresent, rfl⟩)
    have htarget : tableFromEntry (slot (Mm.setSlot σ.mem table.toNat i
        (slot σ.mem table.toNat i ||| (flags &&& (vmmWritable ||| vmmUser)))) table.toNat i) =
        tableFromEntry (slot σ.mem table.toNat i) := by rw [slot_setSlot, hsame.target]
    rw [htarget]
    refine ⟨a, htables, hgrows, fun _ => (howns _ _ _).2 hnext, Nat.le_add_right ..,
      fun hres _ hzero => ?_, fun hnz _ => ⟨rfl, fun hzero => ?_⟩, fun _ hno _ =>
      absurd hnext (hno _)⟩
    · exact h.ne_zero hres hnext (congrArg BitVec.toNat hzero)
    · exact hnz hnext (congrArg BitVec.toNat hzero)
  all_goals
    rw [present_iff, Bool.not_eq_true] at hpresent
    have hno : ∀ t, ¬ Owns user σ.mem root k (q ++ [i]) t := by
      intro t ho
      obtain ⟨-, g, hg, hstep⟩ := owned_concat.1 ho
      rw [hg.unique ht, nextTable_eq_none.2 hpresent] at hstep
      exact absurd hstep (by simp)
  · rcases h.refines.allocPage_cases with ⟨hempty, halloc⟩ | ⟨c, hc, -, hpage, hr⟩
    · rw [halloc]
      have hnone : a.free.card = 0 := by rw [hempty, Finset.card_empty]
      exact ⟨a, h, Grows.refl σ a, fun h0 => absurd rfl h0, Nat.le_add_right ..,
        fun _ hfree => by omega, fun _ ⟨t, ho⟩ => absurd ho (hno t), fun _ _ hfree => by omega⟩
    · -- page 0 was free: it is taken, and lost
      obtain ⟨htables, -, hgrows⟩ := h.alloc (k := k) hc hr fun _ _ => rfl
      have hcard := PageSets.card_free_take hc
      refine ⟨_, htables, hgrows, fun h0 => absurd rfl h0, by omega, fun hres => ?_,
        fun _ ⟨t, ho⟩ => absurd ho (hno t), fun _ _ _ => by omega⟩
      rw [hzero, show (0 : U64).toNat = 0 from rfl] at hpage
      obtain rfl : c = 0 := by omega
      exact absurd hres (PageSets.mem_free.1 hc).2.1
  · rcases h.refines.allocPage_cases with ⟨-, halloc⟩ | ⟨c, hc, -, hpage, hr⟩
    · rw [halloc] at hzero
      exact absurd rfl hzero
    · obtain ⟨htables, howns, hgrows⟩ := h.newTable hk ht hpath hlen hpresent hc hpage hflags hr
      have hcard := PageSets.card_free_take hc
      exact ⟨_, htables, hgrows, fun _ => (howns _ _ _).2 (Or.inr ⟨rfl, rfl, rfl⟩), by omega,
        fun _ _ => hzero, fun _ ⟨t, ho⟩ => absurd ho (hno t), fun _ _ _ => by omega⟩

/-- One step further down. -/
theorem Descends.trans {path rest : List ℕ} {n n' : ℕ} {r r' : U64 × Phys}
    (h₁ : Descends user root k σ a path n r a₁)
    (h₂ : Descends user root k r.2 a₁ (path ++ rest) n' r' a₂) :
    Descends user root k σ a (path ++ rest) (n + n') r' a₂ := by
  have hsub : a₂.free.card ≤ a₁.free.card := Finset.card_le_card h₂.grows.free_subset
  have hroom₁ := h₁.room
  have hroom₂ := h₂.room
  refine ⟨h₂.tables, h₁.grows.trans_tables h₂.grows, h₂.owns, by omega, fun hres hfree => ?_,
    fun hnz ⟨t, ht⟩ => ?_, fun hnz hno hfree => ?_⟩
  · exact h₂.total (by rw [h₁.grows.reserved]; exact hres) (by omega)
  · obtain ⟨hsame, -⟩ := h₁.there hnz ht.above
    obtain ⟨hsame', hne⟩ := h₂.there (fun ho => hnz ((h₁.grows.owns_iff h₁.tables hsame).1 ho))
      ⟨t, h₁.grows.keep ht⟩
    exact ⟨hsame'.trans hsame, hne⟩
  · by_cases hmid : ∃ t, Owns user σ.mem root k path t
    · obtain ⟨hsame, -⟩ := h₁.there hnz hmid
      have howns := fun {p f} => h₁.grows.owns_iff (p := p) (f := f) h₁.tables hsame
      rw [hsame] at hsub
      have := h₂.takes (fun ho => hnz (howns.1 ho)) (fun t ho => hno t (howns.1 ho))
      rw [hsame] at this
      exact this hfree
    · have := h₁.takes hnz (fun t ho => hmid ⟨t, ho⟩) hfree
      omega

/-- A way down that has failed stays so. -/
theorem Descends.stop {path rest : List ℕ} {n n' : ℕ} {r : U64 × Phys}
    (h : Descends user root k σ a path n r a₁) (hzero : r.1 = 0) :
    Descends user root k σ a (path ++ rest) (n + n') (0, r.2) a₁ := by
  have hroom := h.room
  refine ⟨h.tables, h.grows, fun h0 => absurd rfl h0, by omega, fun hres hfree => ?_,
    fun hnz ⟨t, ht⟩ => absurd hzero (h.there hnz ht.above).2, fun hnz _ => h.takes hnz
    fun t ht => ?_⟩
  · exact absurd hzero (h.total hres (by omega))
  · exact (h.there hnz ⟨t, ht⟩).2 hzero

/-- The way down as a whole. -/
theorem ensurePath_descends (h : Tables user root σ a) (hk : user k) {path : List ℕ}
    {table flags : U64} (ht : Owns user σ.mem root k q table.toNat) (hne : path ≠ [] ∨ table ≠ 0)
    (hpath : UserPath (q ++ path)) (hlen : (q ++ path).length ≤ 3)
    (hflags : flags.getLsbD 2 = true) :
    ∃ a', Descends user root k σ a (q ++ path) path.length (ensurePath flags path table σ) a' := by
  induction path generalizing q table σ a with
  | nil =>
    rw [List.append_nil, ensurePath]
    have hne := hne.resolve_left fun h => h rfl
    exact ⟨a, h, Grows.refl σ a, fun _ => ht, Nat.le_add_right .., fun _ _ => hne,
      fun _ _ => ⟨rfl, hne⟩, fun _ hno => absurd ht (hno _)⟩
  | cons i path ih =>
    rw [List.append_cons] at hpath hlen ⊢
    have hstep : UserPath (q ++ [i]) := hpath.above
    have hshort : q.length < 3 := by
      rw [List.length_append, List.length_append, List.length_singleton] at hlen
      omega
    obtain ⟨a₁, h₁⟩ := ensureTable_descends h hk ht hstep hshort hflags
    rw [ensurePath, List.length_cons, Nat.add_comm path.length 1]
    dsimp only
    rcases eq_or_ne (ensureTable σ table i flags).1 0 with hzero | hne
    · rw [if_pos hzero]
      exact ⟨a₁, h₁.stop hzero⟩
    · rw [if_neg hne]
      obtain ⟨a₂, h₂⟩ := ih h₁.tables (h₁.owns hne) (Or.inr hne) hpath hlen
      exact ⟨a₂, h₁.trans h₂⟩

/-! ### `address_space_map_user` -/

/-- What a leaf entry says: the page, a user page, writable and not executable
as asked for. -/
theorem leafEntry_spec {pa : U64} (flags : U64) (halign : pa.toNat % 4096 = 0)
    (hsmall : pa.toNat < 2 ^ 52) :
    tableFromEntry (leafEntry pa flags) = pa ∧ (leafEntry pa flags).getLsbD 0 = true ∧
      (leafEntry pa flags).getLsbD 2 = true ∧
      (leafEntry pa flags).getLsbD 1 = flags.getLsbD 1 ∧
      (leafEntry pa flags).getLsbD 63 = flags.getLsbD 63 := by
  obtain ⟨htarget, hbits⟩ := entry_spec pa flags (vmmPresent ||| vmmUser) (vmmWritable ||| vmmNx)
    halign hsmall (by decide) (by decide)
  rw [leafEntry, BitVec.or_assoc (pa &&& entryAddrMask)]
  refine ⟨htarget, ?_, ?_, ?_, ?_⟩
  · rw [hbits 0 (by decide), show (vmmPresent ||| vmmUser).getLsbD 0 = true from by decide,
      Bool.true_or]
  · rw [hbits 2 (by decide), show (vmmPresent ||| vmmUser).getLsbD 2 = true from by decide,
      Bool.true_or]
  · rw [hbits 1 (by decide), show (vmmPresent ||| vmmUser).getLsbD 1 = false from by decide,
      show (vmmWritable ||| vmmNx).getLsbD 1 = true from by decide, Bool.and_true, Bool.false_or]
  · rw [hbits 63 (by decide), show (vmmPresent ||| vmmUser).getLsbD 63 = false from by decide,
      show (vmmWritable ||| vmmNx).getLsbD 63 = true from by decide, Bool.and_true, Bool.false_or]

/-- A frame that was neither free nor owned is owned by nobody afterwards,
except as a leaf of `N`. -/
theorem Grows.unowned (hg : Grows user root k N σ a σ' a') (h : Tables user root σ a)
    (hfree : g / 4096 ∉ a.free) (hN : ∀ p, ¬ N p g)
    (hfresh : ∀ {k p}, ¬ Owns user σ.mem root k p g) {k' : κ} : ¬ Owns user σ'.mem root k' p g := by
  intro ho
  rcases eq_or_ne k' k with rfl | hk
  · rcases hg.fresh ho with hold | ⟨-, hmem⟩ | ⟨-, hn⟩
    · exact hfresh hold
    · exact hfree hmem
    · exact hN p hn
  · exact hfresh ((hg.owns_other h hk p g).1 ho)

/-- Addresses that no operation on owner `k` writes to. -/
def Apart (user : κ → Prop) (root : κ → Option ℕ) (k : κ) (σ : Phys) (a : PageSets) (X : ℕ → Prop) :
    Prop :=
  ∀ x, X x → x / 4096 ∉ a.free ∧
    ∀ p f, Owns user σ.mem root k p f → p.length < 4 → x / 4096 ≠ f / 4096

/-- They keep their bytes and stay apart. -/
theorem Grows.apart (hg : Grows user root k N σ a σ' a') {X : ℕ → Prop}
    (hX : Apart user root k σ a X) :
    Apart user root k σ' a' X ∧ ∀ x, X x → σ'.mem x = σ.mem x := by
  refine ⟨fun x hx => ⟨fun hfree => (hX x hx).1 (hg.free_subset hfree), fun p f ho hlen => ?_⟩,
    fun x hx => hg.mem x (hX x hx).1 (hX x hx).2⟩
  rcases hg.fresh ho with hold | ⟨-, hfree⟩ | ⟨hfour, -⟩
  · exact (hX x hx).2 p f hold hlen
  · exact fun he => (hX x hx).1 (he ▸ hfree)
  · omega

/-- The bytes of a mapped page are such addresses. -/
theorem Tables.apart_leaf (h : Tables user root σ a) (ho : Owns user σ.mem root k p f)
    (hlen : p.length = 4) : Apart user root k σ a (fun x => x / 4096 = f / 4096) := by
  intro x hx
  refine ⟨fun hfree => h.not_free ho (hx ▸ hfree), fun q g hg hshort => ?_⟩
  rw [hx]
  intro hpage
  obtain ⟨-, rfl⟩ := h.page_unique ho hg hpage
  omega

/-- A page that belongs to nobody, in the empty slot of a last table. -/
theorem Tables.newLeaf (h : Tables user root σ a) (flags : U64) (hk : user k)
    (ht : Owns user σ.mem root k q t) (hpath : UserPath (q ++ [i])) (hlen : q.length = 3)
    (hempty : (slot σ.mem t i).getLsbD 0 = false) {pa : U64} (hc : c ∈ a.allocated)
    (hc' : c ∉ a.reserved) (hpa : pa.toNat = 4096 * c)
    (hfresh : ∀ {k p}, ¬ Owns user σ.mem root k p pa.toNat) :
    let m' := Mm.setSlot σ.mem t i (leafEntry pa flags)
    Tables user root { σ with mem := m' } a ∧
    (∀ k' p f, Owns user m' root k' p f ↔
      Owns user σ.mem root k' p f ∨ k' = k ∧ p = q ++ [i] ∧ f = pa.toNat) ∧
    Grows user root k (fun p f => p = q ++ [i] ∧ f = pa.toNat) σ a { σ with mem := m' } a := by
  intro m'
  have hlt : _ < 65536 := h.refines.allocated_lt hc
  have halign : pa.toNat % 4096 = 0 := by omega
  have hdiv : pa.toNat / 4096 = c := by omega
  obtain ⟨htarget, hpresent, huser, -, -⟩ := leafEntry_spec flags halign (by omega)
  have hslot : slot m' t i = leafEntry pa flags := slot_setSlot ..
  have hother : ∀ {k p f j}, Owns user σ.mem root k p f → j < 512 → (f, j) ≠ (t, i) →
      slot m' f j = slot σ.mem f j :=
    fun ho hj hne => slot_setSlot_of_ne (h.aligned ht) (h.aligned ho) hpath.lt hj hne
  obtain ⟨htables, howns⟩ := h.hang (g := pa.toNat) m' hk ht hpath hempty h.refines rfl
    (Finset.Subset.refl _) (by rw [hslot, hpresent]) (by rw [hslot, huser])
    (fun hshort => by omega) (by rw [hslot, htarget]) (fun ho _ hp => hother ho hp.lt)
    (fun j hj => by
      have hlong := hj.length_lt
      rw [List.length_append, List.length_singleton] at hlong
      omega)
    halign (by rw [hdiv]; exact hc) (by rw [hdiv]; exact hc') hfresh
  refine ⟨htables, howns, rfl, rfl, Finset.Subset.refl _, fun x _ htab => ?_,
    fun ho => (howns _ _ _).2 (Or.inl ho), fun ho => ?_, fun ho hthree hj hpres => ?_,
    fun hr hj hne => hother (owned_nil.2 hr) hj (h.root_slot_ne ht hpath hr hne)⟩
  · exact setSlot_of_ne (h.aligned ht) hpath.lt (htab q t ht (by omega))
  · rcases (howns _ _ _).1 ho with ho | ⟨-, rfl, rfl⟩
    · exact Or.inl ho
    · refine Or.inr (Or.inr ⟨?_, rfl, rfl⟩)
      rw [List.length_append, List.length_singleton]
      omega
  · refine hother ho hj fun heq => ?_
    obtain ⟨rfl, rfl⟩ := Prod.mk.inj heq
    rw [hempty] at hpres
    exact absurd hpres (by simp)

/-- A page that `address_space_map_user` may map. -/
structure UserPage (va : U64) : Prop where
  aligned : va &&& pageOffsetMask = 0
  index : pml4Index va = userPml4Index
  below : va < userLimit

/-- The check of the arguments in `address_space_map_user`. -/
theorem badArgs_iff {va pa : U64} :
    (va &&& pageOffsetMask ≠ 0 ∨ pa &&& pageOffsetMask ≠ 0 ∨ pml4Index va ≠ userPml4Index ∨
      userLimit ≤ va) ↔ ¬ (UserPage va ∧ pa &&& pageOffsetMask = 0) := by
  rw [← BitVec.not_lt]
  constructor
  · rintro hbad ⟨⟨hva, hindex, hbelow⟩, hpa⟩
    rcases hbad with hbad | hbad | hbad | hbad
    · exact hbad hva
    · exact hbad hpa
    · exact hbad hindex
    · exact hbad hbelow
  · intro hnot
    by_contra hok
    rw [not_or, not_or, not_or, not_not, not_not, not_not, not_not] at hok
    exact hnot ⟨⟨hok.1, hok.2.2.1, hok.2.2.2⟩, hok.2.1⟩

theorem userPath_pathOf {va : U64} (h : pml4Index va = userPml4Index) : UserPath (pathOf va) := by
  refine ⟨by simp [pathOf], fun i hi => ?_, fun i hi => ?_⟩
  · simp only [pathOf, List.mem_cons, List.not_mem_nil, or_false] at hi
    rcases hi with rfl | rfl | rfl | rfl <;> exact index_lt ..
  · obtain rfl := Option.some.inj hi
    exact h

/-- The way down to the last table: `address_space_map_user` gives up on the
way, or comes to the table of the page.  With three pages to take, or with the
tables there, it gives up on bad arguments and on a page that is mapped already
only; it takes pages when a table is missing, if there are any. -/
theorem addressSpaceMapUser_cases (h : Tables user root σ a) (hk : user k)
    (hroot : root k = some pml4.toNat) (va pa flags : U64) :
    ∃ σ' a', Tables user root σ' a' ∧ Grows user root k (fun _ _ => False) σ a σ' a' ∧
      a.free.card ≤ a'.free.card + 3 ∧
      ((∀ {p f}, Owns user σ.mem root k p f → f ≠ 0) →
        (a'.free.card < a.free.card ↔ UserPage va ∧ pa &&& pageOffsetMask = 0 ∧
          (∀ t, ¬ Owns user σ.mem root k (tablePathOf va) t) ∧ 0 < a.free.card)) ∧
      ((∃ rc : ℤ, rc ≠ 0 ∧ addressSpaceMapUser σ pml4 va pa flags = (rc, σ') ∧
        (UserPage va → pa &&& pageOffsetMask = 0 →
          (0 ∈ a.reserved ∧ 3 ≤ a.free.card ∨
            (∀ {p f}, Owns user σ.mem root k p f → f ≠ 0) ∧
              ∃ t, Owns user σ.mem root k (tablePathOf va) t) →
          ∃ f, Owns user σ.mem root k (pathOf va) f)) ∨
      ∃ pt, UserPage va ∧ Owns user σ'.mem root k (tablePathOf va) pt ∧
        (slot σ'.mem pt (ptIndex va)).getLsbD 0 = false ∧
        addressSpaceMapUser σ pml4 va pa flags =
          (0, { σ' with mem := Mm.setSlot σ'.mem pt (ptIndex va) (leafEntry pa flags) })) := by
  have hflags := getLsbD_or_vmmUser flags
  rw [addressSpaceMapUser_eq]
  rcases Classical.em (UserPage va ∧ pa &&& pageOffsetMask = 0) with hok | hbad
  swap
  · rw [if_pos (badArgs_iff.2 hbad)]
    exact ⟨σ, a, h, Grows.refl σ a, Nat.le_add_right .., fun _ => iff_of_false (lt_irrefl _)
      fun htakes => hbad ⟨htakes.1, htakes.2.1⟩,
      Or.inl ⟨-1, by decide, rfl, fun hva hpa => absurd ⟨hva, hpa⟩ hbad⟩⟩
  rw [if_neg fun hbad => badArgs_iff.1 hbad hok]
  obtain ⟨huser, hpa⟩ := hok
  have hpath : UserPath (tablePathOf va ++ [ptIndex va]) := userPath_pathOf huser.index
  obtain ⟨a', hd⟩ : ∃ a', Descends user root k σ a (tablePathOf va) 3
      (ensurePath (flags ||| vmmUser) (tablePathOf va) pml4 σ) a' :=
    ensurePath_descends (q := []) h hk (owned_nil.2 hroot) (Or.inl (List.cons_ne_nil _ _))
      hpath.above le_rfl hflags
  generalize ensurePath (flags ||| vmmUser) (tablePathOf va) pml4 σ = r at hd ⊢
  refine ⟨r.2, a', hd.tables, hd.grows, hd.room, fun hnz =>
      ⟨fun hlt => ?_, fun ⟨_, _, hno, hfree⟩ =>
    hd.takes hnz hno hfree⟩, ?_⟩
  · refine ⟨huser, hpa, fun t ht => ?_, by omega⟩
    rw [(hd.there hnz ⟨t, ht⟩).1] at hlt
    exact lt_irrefl _ hlt
  unfold mapLeaf
  split_ifs with hzero hpresent
  · refine Or.inl ⟨-1, by decide, rfl, fun _ _ hroom => ?_⟩
    rcases hroom with ⟨hres, hthree⟩ | ⟨hnz, hthere⟩
    · exact absurd hzero (hd.total hres hthree)
    · exact absurd hzero (hd.there hnz hthere).2
  · refine Or.inl ⟨-2, by decide, rfl, fun _ _ _ => ?_⟩
    -- the page is mapped now, and only tables have been made, so it was mapped before
    rw [present_iff] at hpresent
    have hmapped := owned_concat.2 ⟨path_concat.2 ⟨hk, hpath⟩, r.1.toNat, hd.owns hzero,
      nextTable_eq_some.2 ⟨hpresent, rfl⟩⟩
    rcases hd.grows.fresh hmapped with hold | ⟨hshort, -⟩ | ⟨-, hf⟩
    · exact ⟨_, hold⟩
    · exact absurd hshort (by simp [tablePathOf])
    · exact hf.elim
  · rw [present_iff, Bool.not_eq_true] at hpresent
    exact Or.inr ⟨r.1.toNat, huser, hd.owns hzero, hpresent, rfl⟩

/-- `address_space_map_user` of an allocated page that nobody owns: the
invariant is kept, and nothing but the page asked for is mapped, if the answer is
`0`, or nothing at all. -/
theorem addressSpaceMapUser_spec (h : Tables user root σ a) (hk : user k)
    (hroot : root k = some pml4.toNat) (va pa flags : U64) (hc : c ∈ a.allocated)
    (hc' : c ∉ a.reserved) (hpa : pa.toNat = 4096 * c)
    (hfresh : ∀ {k p}, ¬ Owns user σ.mem root k p pa.toNat) :
    ∃ a', Tables user root (addressSpaceMapUser σ pml4 va pa flags).2 a' ∧
      Grows user root k
        (fun p f => (addressSpaceMapUser σ pml4 va pa flags).1 = 0 ∧ p = pathOf va ∧ f = pa.toNat)
        σ a (addressSpaceMapUser σ pml4 va pa flags).2 a' ∧
      ((addressSpaceMapUser σ pml4 va pa flags).1 = 0 →
        UserPage va ∧ (∀ f, ¬ Owns user σ.mem root k (pathOf va) f) ∧
        Owns user (addressSpaceMapUser σ pml4 va pa flags).2.mem root k (pathOf va) pa.toNat ∧
        ∃ pt, Owns user (addressSpaceMapUser σ pml4 va pa flags).2.mem root k (tablePathOf va) pt ∧
          slot (addressSpaceMapUser σ pml4 va pa flags).2.mem pt (ptIndex va) =
            leafEntry pa flags) ∧
      a.free.card ≤ a'.free.card + 3 ∧
      ((∀ {p f}, Owns user σ.mem root k p f → f ≠ 0) →
        (a'.free.card < a.free.card ↔ UserPage va ∧
          (∀ t, ¬ Owns user σ.mem root k (tablePathOf va) t) ∧ 0 < a.free.card)) ∧
      (UserPage va → (0 ∈ a.reserved ∧ 3 ≤ a.free.card ∨
          (∀ {p f}, Owns user σ.mem root k p f → f ≠ 0) ∧
            ∃ t, Owns user σ.mem root k (tablePathOf va) t) →
        (∀ f, ¬ Owns user σ.mem root k (pathOf va) f) →
          (addressSpaceMapUser σ pml4 va pa flags).1 = 0) := by
  have halign : pa &&& pageOffsetMask = 0 := (and_pageMask_eq_zero_iff pa).2 (by omega)
  have hcfree : pa.toNat / 4096 ∉ a.free := by
    rw [show pa.toNat / 4096 = c by omega, PageSets.mem_free]
    exact fun hfree => hfree.2.2 hc
  obtain ⟨σ', a', h', hg, hcard, hexact, ⟨rc, hrc, heq, hfail⟩ | ⟨pt, hpage, hpt, hempty, heq⟩⟩ :=
    addressSpaceMapUser_cases h hk hroot va pa flags
  all_goals
    have hexact' : (∀ {p f}, Owns user σ.mem root k p f → f ≠ 0) →
        (a'.free.card < a.free.card ↔ UserPage va ∧
          (∀ t, ¬ Owns user σ.mem root k (tablePathOf va) t) ∧ 0 < a.free.card) := fun hnz => by
      rw [hexact hnz]
      exact and_congr_right fun _ => and_iff_right halign
  · rw [heq]
    refine ⟨a', h', hg.mono fun _ _ h => h.elim, fun h0 => absurd h0 hrc, hcard, hexact',
      fun hva hroom hnone => ?_⟩
    obtain ⟨f, hf⟩ := hfail hva halign hroom
    exact absurd hf (hnone f)
  · have hpath : UserPath (tablePathOf va ++ [ptIndex va]) := userPath_pathOf hpage.index
    have hnone : ∀ f, ¬ Owns user σ.mem root k (pathOf va) f := by
      intro f ho
      have ho' : Owns user σ'.mem root k (tablePathOf va ++ [ptIndex va]) f := hg.keep ho
      obtain ⟨-, t, ht, hstep⟩ := owned_concat.1 ho'
      obtain rfl := hpt.unique ht
      rw [nextTable_eq_none.2 hempty] at hstep
      exact absurd hstep (by simp)
    obtain ⟨h'', howns, hg'⟩ := h'.newLeaf flags hk hpt hpath rfl hempty
      (hg.allocated hc) (by rw [hg.reserved]; exact hc') hpa
      (hg.unowned h hcfree (fun _ => id) hfresh)
    rw [heq]
    refine ⟨a', h'', (hg.trans hg').mono ?_, fun _ => ⟨hpage, hnone, ?_, pt, ?_, slot_setSlot ..⟩,
      hcard, hexact', fun _ _ _ => rfl⟩
    · rintro p f (hf | ⟨rfl, rfl⟩)
      · exact hf.elim
      · exact ⟨rfl, rfl, rfl⟩
    · exact (howns _ _ _).2 (Or.inr ⟨rfl, rfl, rfl⟩)
    · exact (howns _ _ _).2 (Or.inl hpt)

/-! ### `address_space_translate_user` -/

/-- What a user entry points to. -/
def nextUser (m : Mem) (table index : ℕ) : Option ℕ :=
  if userEntry (slot m table index) then some (tableFromEntry (slot m table index)).toNat else none

/-- `address_space_translate_user` follows the four indices through user
entries. -/
theorem addressSpaceTranslateUser_eq (m : Mem) (pml4 va : U64)
    (hva : pml4Index va = userPml4Index ∧ va < userLimit) :
    addressSpaceTranslateUser m pml4 va = (walk (nextUser m) pml4.toNat (pathOf va)).map
      fun f => BitVec.ofNat 64 (f + va.toNat % 4096) := by
  have hlast : ∀ e : U64, (e &&& entryAddrMask) ||| (va &&& pageOffsetMask) =
      BitVec.ofNat 64 ((tableFromEntry e).toNat + va.toNat % 4096) := by
    intro e
    rw [← toNat_physical, BitVec.ofNat_toNat, BitVec.setWidth_eq]
  have hok : ¬ (pml4Index va ≠ userPml4Index ∨ userLimit ≤ va) := by
    rw [not_or, not_not, BitVec.not_le]
    exact hva
  rw [addressSpaceTranslateUser, if_neg hok]
  simp only [pathOf, walk, nextUser, hlast]
  cases userEntry (slot m pml4.toNat (pml4Index va)) with
  | false => rfl
  | true =>
    simp only [Bool.not_true, Bool.false_eq_true, if_false, if_true, Option.bind_some]
    generalize (tableFromEntry (slot m pml4.toNat (pml4Index va))).toNat = pdpt
    cases userEntry (slot m pdpt (pdptIndex va)) with
    | false => rfl
    | true =>
      simp only [Bool.not_true, Bool.false_eq_true, if_false, if_true, Option.bind_some]
      generalize (tableFromEntry (slot m pdpt (pdptIndex va))).toNat = pd
      cases userEntry (slot m pd (pdIndex va)) with
      | false => rfl
      | true =>
        simp only [Bool.not_true, Bool.false_eq_true, if_false, if_true, Option.bind_some]
        generalize (tableFromEntry (slot m pd (pdIndex va))).toNat = pt
        cases userEntry (slot m pt (ptIndex va)) with
        | false => rfl
        | true => rfl

/-- In our tables every present entry is a user entry, so the walk through user
entries reaches what is owned. -/
theorem Tables.owned_nextUser (h : Tables user root σ a) (p : List ℕ) (f : ℕ) :
    Owned (frameShape user) (nextUser σ.mem) root k p f ↔ Owns user σ.mem root k p f := by
  refine owned_congr (fun {p f i} ho hp => ?_) p f
  obtain ⟨hk, hpath⟩ := path_concat.1 hp
  refine if_congr ?_ rfl rfl
  rw [userEntry_iff, present_iff]
  exact ⟨fun hbits => hbits.1, fun hbit => ⟨hbit, (h.entry ho hk hpath hbit).1⟩⟩

/-- **Translation gives what is owned.**  A virtual address of PML4 slot 1
translates into the frame that its address space owns by the four indices, and
an address outside translates into nothing. -/
theorem addressSpaceTranslateUser_iff (h : Tables user root σ a) (hk : user k)
    (hroot : root k = some pml4.toNat) (va pa : U64) :
    addressSpaceTranslateUser σ.mem pml4 va = some pa ↔
      pml4Index va = userPml4Index ∧ va < userLimit ∧
        ∃ f, Owns user σ.mem root k (pathOf va) f ∧ pa = BitVec.ofNat 64 (f + va.toNat % 4096) := by
  by_cases hva : pml4Index va = userPml4Index ∧ va < userLimit
  · rw [addressSpaceTranslateUser_eq _ _ _ hva, ← and_assoc, and_iff_right hva,
      Option.map_eq_some_iff]
    refine exists_congr fun f => ?_
    rw [← h.owned_nextUser, Owned]
    constructor
    · rintro ⟨hwalk, rfl⟩
      exact ⟨⟨Or.inr ⟨hk, userPath_pathOf hva.1⟩, _, hroot, hwalk⟩, rfl⟩
    · rintro ⟨⟨-, r, hr, hwalk⟩, rfl⟩
      obtain rfl := Option.some.inj (hroot.symm.trans hr)
      exact ⟨hwalk, rfl⟩
  · refine iff_of_false ?_ fun htable => hva ⟨htable.1, htable.2.1⟩
    rw [addressSpaceTranslateUser, if_pos]
    · simp
    · rw [not_and_or, BitVec.not_lt] at hva
      exact hva

/-- Two memories in which an address space owns the same frames translate the
same. -/
theorem addressSpaceTranslateUser_congr {root' : κ → Option ℕ} (h : Tables user root σ a)
    (h' : Tables user root' σ' a') (hk : user k) (hroot : root k = some pml4.toNat)
    (hroot' : root' k = some pml4.toNat)
    (hsame : ∀ p f, Owns user σ'.mem root' k p f ↔ Owns user σ.mem root k p f) (va : U64) :
    addressSpaceTranslateUser σ'.mem pml4 va = addressSpaceTranslateUser σ.mem pml4 va := by
  refine Option.ext fun pa => ?_
  rw [addressSpaceTranslateUser_iff h hk hroot, addressSpaceTranslateUser_iff h' hk hroot']
  simp only [hsame]

/-! ### Pages given back -/

/-- Giving back a page that nobody owns. -/
theorem Tables.giveBack (h : Tables user root σ a) (hr : Refines bootstrapLimit pmm' (a.giveBack c))
    (hfresh : ∀ {k p f}, Owns user σ.mem root k p f → f / 4096 ≠ c) :
    Tables user root { σ with pmm := pmm' } (a.giveBack c) :=
  ⟨hr, h.separate, h.aligned, fun ho => Finset.mem_erase.2 ⟨hfresh ho, h.allocated ho⟩,
    h.unreserved, h.entry⟩

/-- A page taken on the way may be given back at the end. -/
theorem Grows.giveBack (hg : Grows user root k N σ a σ' a') (hc : c ∈ a.free) :
    Grows user root k N σ a { σ' with pmm := pmm' } (a'.giveBack c) :=
  { hg with
    allocated := fun _ hx => Finset.mem_erase.2
      ⟨fun he => (PageSets.mem_free.1 hc).2.2 (he ▸ hx), hg.allocated hx⟩ }

/-! ### New and dropped roots -/

section Roots

variable [DecidableEq κ]

/-- A free page becomes the root of an owner; it has no user entry yet.  What the
owner had before is no longer its own. -/
theorem Tables.newRoot (h : Tables user root σ a) (k : κ) (hc : c ∈ a.free)
    (hr : Refines bootstrapLimit pmm' (a.take c)) (hmem : ∀ x, x / 4096 ≠ c → m' x = σ.mem x)
    (hleaf : user k → (slot m' (4096 * c) userPml4Index).getLsbD 0 = false) :
    Tables user (Function.update root k (some (4096 * c))) ⟨m', pmm'⟩ (a.take c) ∧
    (∀ k', k' ≠ k → ∀ p f, Owns user m' (Function.update root k (some (4096 * c))) k' p f ↔
      Owns user σ.mem root k' p f) ∧
    ∀ p f, Owns user m' (Function.update root k (some (4096 * c))) k p f → p = [] ∧
      f = 4096 * c := by
  obtain ⟨htables, howns, -⟩ := h.alloc (k := k) hc hr hmem
  have hother : ∀ k', k' ≠ k → ∀ p f,
      Owns user m' (Function.update root k (some (4096 * c))) k' p f ↔
          Owns user σ.mem root k' p f := by
    intro k' hk p f
    rw [← howns]
    exact owned_setRoot_of_ne hk (fun k'' hk'' => Function.update_of_ne hk'' _ _) p f
  have hself : ∀ p f, Owns user m' (Function.update root k (some (4096 * c))) k p f →
      p = [] ∧ f = 4096 * c := by
    intro p f ho
    refine owned_of_leaf (Function.update_self ..) (fun j hj => ?_) ho
    obtain ⟨hk, hpath⟩ := path_concat.1 (show (frameShape user).path k ([] ++ [j]) from hj)
    obtain rfl := hpath.2.2 j rfl
    exact nextTable_eq_none.2 (hleaf hk)
  have hsplit : ∀ k' p f, Owns user m' (Function.update root k (some (4096 * c))) k' p f →
      Owns user σ.mem root k' p f ∨ k' = k ∧ p = [] ∧ f = 4096 * c := by
    intro k' p f ho
    rcases eq_or_ne k' k with rfl | hk
    · exact Or.inr ⟨rfl, hself p f ho⟩
    · exact Or.inl ((hother k' hk p f).1 ho)
  have hcfree := PageSets.mem_free.1 hc
  have hdiv : 4096 * c / 4096 = c := by omega
  have hfresh : ∀ {k' p}, ¬ Owns user σ.mem root k' p (4096 * c) := by
    intro k' p ho
    have := h.not_free ho
    rw [hdiv] at this
    exact this hc
  refine ⟨⟨hr, separate_insert h.separate hfresh hsplit, ?_, ?_, ?_, ?_⟩, hother, hself⟩
  · intro k' p f ho
    rcases hsplit k' p f ho with ho | ⟨-, -, rfl⟩
    · exact h.aligned ho
    · omega
  · intro k' p f ho
    rcases hsplit k' p f ho with ho | ⟨-, -, rfl⟩
    · exact Finset.mem_insert_of_mem (h.allocated ho)
    · rw [hdiv]
      exact Finset.mem_insert_self _ _
  · intro k' p f ho
    rcases hsplit k' p f ho with ho | ⟨-, -, rfl⟩
    · exact h.unreserved ho
    · rw [hdiv]
      exact hcfree.2.1
  · intro k' p f i ho hk hpath hbit
    rcases eq_or_ne k' k with rfl | hne
    · obtain ⟨rfl, rfl⟩ := hself p f ho
      obtain rfl := hpath.2.2 i rfl
      rw [hleaf hk] at hbit
      exact absurd hbit (by simp)
    · exact htables.entry ((howns _ _ _).2 ((hother k' hne p f).1 ho)) hk hpath hbit

/-- An owner gives its root page back and owns nothing any more. -/
theorem Tables.dropRoot (h : Tables user root σ a) {f : ℕ} (hroot : root k = some f)
    (hr : Refines bootstrapLimit pmm' (a.giveBack (f / 4096))) :
    Tables user (Function.update root k none) ⟨σ.mem, pmm'⟩ (a.giveBack (f / 4096)) ∧
    ∀ k', k' ≠ k → ∀ p g, Owns user σ.mem (Function.update root k none) k' p g ↔
      Owns user σ.mem root k' p g := by
  have hother : ∀ k', k' ≠ k → ∀ p g, Owns user σ.mem (Function.update root k none) k' p g ↔
      Owns user σ.mem root k' p g := fun k' hk p g =>
    owned_setRoot_of_ne hk (fun k'' hk'' => Function.update_of_ne hk'' _ _) p g
  have hold : ∀ {k' p g}, Owns user σ.mem (Function.update root k none) k' p g →
      k' ≠ k ∧ Owns user σ.mem root k' p g := by
    intro k' p g ho
    have hne : k' ≠ k := by
      rintro rfl
      obtain ⟨-, r, hr, -⟩ := ho
      rw [Function.update_self] at hr
      exact absurd hr (by simp)
    exact ⟨hne, (hother k' hne p g).1 ho⟩
  refine ⟨⟨hr, separate_mono h.separate fun k' p g ho => (hold ho).2, fun ho =>
    h.aligned (hold ho).2, ?_, fun ho => h.unreserved (hold ho).2, fun ho => h.entry (hold ho).2⟩,
    hother⟩
  intro k' p g ho
  obtain ⟨hne, ho'⟩ := hold ho
  have hfo : Owns user σ.mem root k [] f := owned_nil.2 hroot
  refine Finset.mem_erase.2 ⟨fun hpage => ?_, h.allocated ho'⟩
  exact hne (h.page_unique ho' hfo hpage).1

/-- A new space for owner `k`. -/
theorem NewSpace.tables {cr3 page : U64} (hn : NewSpace σ a cr3 page σ') (h : Tables user root σ a)
    (k : κ) :
    Tables user (Function.update root k (some page.toNat)) σ' (a.take (page.toNat / 4096)) ∧
    (∀ k', k' ≠ k → ∀ p f, Owns user σ'.mem (Function.update root k (some page.toNat)) k' p f ↔
      Owns user σ.mem root k' p f) ∧
    ∀ p f, Owns user σ'.mem (Function.update root k (some page.toNat)) k p f →
      p = [] ∧ f = page.toNat := by
  have hpage : 4096 * (page.toNat / 4096) = page.toNat :=
    Nat.mul_div_cancel' (Nat.dvd_of_mod_eq_zero hn.aligned)
  have hnew := h.newRoot k hn.free hn.refines hn.other fun _ => by
    rw [hpage, hn.empty _ (by decide) (by decide)]
    simp
  rwa [hpage] at hnew

end Roots

/-! ### A single address space -/

/-- A PML4 as `address_space_create` makes it. -/
structure FreshTable (σ : Phys) (pml4 : U64) : Prop where
  aligned : pml4.toNat % 4096 = 0
  allocated : pml4.toNat / 4096 < bootstrapLimit.pages ∧
    pageBit σ.pmm.allocatedBitmap (pml4.toNat / 4096) = true
  unreserved : pageBit σ.pmm.reservedBitmap (pml4.toNat / 4096) = false
  slots : ∀ j, 0 < j → j < 512 → slot σ.mem pml4.toNat j = 0

/-- The only owner, an address space. -/
def single (_ : Unit) : Prop := True

/-- Its root. -/
def singleRoot (pml4 : U64) (_ : Unit) : Option ℕ := some pml4.toNat

/-- A fresh PML4 is all that its address space owns. -/
theorem FreshTable.tables (hf : FreshTable σ pml4)
    (hr : Refines bootstrapLimit σ.pmm a) : Tables single (singleRoot pml4) σ a ∧
      ∀ {k p f}, Owns single σ.mem (singleRoot pml4) k p f → p = [] ∧ f = pml4.toNat := by
  have hempty : (slot σ.mem pml4.toNat userPml4Index).getLsbD 0 = false := by
    rw [hf.slots _ (by decide) (by decide)]
    simp
  have hself : ∀ {k p f}, Owns single σ.mem (singleRoot pml4) k p f → p = [] ∧ f = pml4.toNat := by
    intro k p f ho
    have hroot : singleRoot pml4 k = some pml4.toNat := rfl
    refine owned_of_leaf hroot (fun j hj => nextTable_eq_none.2 ?_) ho
    obtain ⟨-, hpath⟩ := path_concat.1 (show (frameShape single).path k ([] ++ [j]) from hj)
    obtain rfl := hpath.2.2 j rfl
    exact hempty
  refine ⟨⟨hr, fun h₁ h₂ => ⟨rfl, (hself h₁).1.trans (hself h₂).1.symm⟩, ?_, ?_, ?_, ?_⟩, hself⟩
  · intro k p f ho
    rw [(hself ho).2]
    exact hf.aligned
  · intro k p f ho
    rw [(hself ho).2]
    exact (hr.allocated _ hf.allocated.1).1 hf.allocated.2
  · intro k p f ho hmem
    rw [(hself ho).2, ← hr.reserved _ hf.allocated.1, hf.unreserved] at hmem
    exact absurd hmem (by simp)
  · intro k p f j ho _ hpath hbit
    obtain ⟨rfl, rfl⟩ := hself ho
    obtain rfl := hpath.2.2 j rfl
    rw [hempty] at hbit
    exact absurd hbit (by simp)

/-- A new space has a fresh PML4. -/
theorem NewSpace.fresh {cr3 page : U64} (hn : NewSpace σ a cr3 page σ')
    (hr : Refines bootstrapLimit σ.pmm a) : FreshTable σ' page := by
  have hlt := hr.free_lt hn.free
  refine ⟨hn.aligned, ⟨hlt, (hn.refines.allocated _ hlt).2 (Finset.mem_insert_self ..)⟩, ?_,
    hn.empty⟩
  rw [← Bool.not_eq_true, hn.refines.reserved _ hlt]
  exact (PageSets.mem_free.1 hn.free).2.1

end SuiraBox.Mm
