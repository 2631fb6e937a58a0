/-
# Room for the pages of an image

How many frames it takes to map a list of pages: one for each page, and one for each
table on the way to a page that is not there yet.  Both are paths of the page-table
tree, so the frames are counted as paths (`framePaths`), and those that nobody owns yet
are the ones to be taken (`missing`).

The loader succeeds on pages that there is room for (`ValidImage.headers_total`), and
where it has succeeded there was room (`ValidImage.headers_ok`).
-/

import SuiraBox.Exec.Loading

namespace SuiraBox
namespace Mm

open ByteMem Forest

section Room

variable {κ : Type*} {user : κ → Prop} {root : κ → Option ℕ} {k : κ} {σ σ' : Phys} {a a' : PageSets}
  {q : List ℕ} {i : ℕ}

/-- Tables that are made are not at address 0 when page 0 cannot be handed out. -/
theorem Grows.nonzero (hg : Grows user root k (fun _ _ => False) σ a σ' a') (hzero : 0 ∉ a.free)
    (hnz : ∀ {p f}, Owns user σ.mem root k p f → f ≠ 0) {p : List ℕ} {f : ℕ}
    (ho : Owns user σ'.mem root k p f) : f ≠ 0 := by
  rintro rfl
  rcases hg.fresh ho with hold | ⟨-, hfree⟩ | ⟨-, hfalse⟩
  · exact hnz hold rfl
  · exact hzero hfree
  · exact hfalse

/-- `ensure_table` with a page to take. -/
theorem ensureTable_ne_zero (h : Tables user root σ a) (hk : user k) {table : U64} (flags : U64)
    (ht : Owns user σ.mem root k q table.toNat) (hpath : UserPath (q ++ [i])) (hlen : q.length < 3)
    (hzero : 0 ∉ a.free) (hnz : ∀ {p f}, Owns user σ.mem root k p f → f ≠ 0)
    (hroom : 0 < a.free.card) : (ensureTable σ table i flags).1 ≠ 0 := by
  unfold ensureTable
  dsimp only
  split_ifs with hpresent hlarge hpage
  · rw [present_iff] at hpresent
    rw [large_iff, (h.entry ht hk hpath hpresent).2 hlen] at hlarge
    exact absurd hlarge (by simp)
  · rw [present_iff] at hpresent
    have hnext : Owns user σ.mem root k (q ++ [i])
        (tableFromEntry (slot σ.mem table.toNat i)).toNat :=
      owned_concat.2 ⟨path_concat.2 ⟨hk, hpath⟩, _, ht, nextTable_eq_some.2 ⟨hpresent, rfl⟩⟩
    rw [slot_setSlot, (SameTarget.or_flags flags hpresent).target]
    exact fun h0 => hnz hnext (congrArg BitVec.toNat h0)
  · rcases h.refines.allocPage_cases with ⟨hempty, -⟩ | ⟨c, hc, -, hpage', -⟩
    · rw [hempty, Finset.card_empty] at hroom
      exact absurd hroom (lt_irrefl 0)
    · rw [hpage, show (0 : U64).toNat = 0 from rfl] at hpage'
      obtain rfl : c = 0 := by omega
      exact absurd hc hzero
  · exact hpage

/-- The way down with the first `n` tables of the path there: it takes no more pages than
there are tables to make. -/
theorem ensurePath_room (h : Tables user root σ a) (hk : user k) {path : List ℕ} {table flags : U64}
    (ht : Owns user σ.mem root k q table.toNat) (hne : path ≠ [] ∨ table ≠ 0)
    (hpath : UserPath (q ++ path)) (hlen : (q ++ path).length ≤ 3) (hflags : flags.getLsbD 2 = true)
    (hzero : 0 ∉ a.free) (hnz : ∀ {p f}, Owns user σ.mem root k p f → f ≠ 0) {n : ℕ}
    (hn : n ≤ path.length) (hthere : ∃ t, Owns user σ.mem root k (q ++ path.take n) t)
    (hroom : path.length - n ≤ a.free.card) :
    (ensurePath flags path table σ).1 ≠ 0 ∧
      a.free.card ≤ (freeSet bootstrapLimit (ensurePath flags path table σ).2.pmm).card +
        (path.length - n) := by
  induction path generalizing q table σ a n with
  | nil =>
    rw [ensurePath, h.refines.freeSet_eq]
    exact ⟨hne.resolve_left fun h => h rfl, Nat.le_add_right ..⟩
  | cons i path ih =>
    rw [List.append_cons] at hpath hlen
    have hstep : UserPath (q ++ [i]) := hpath.above
    have hshort : q.length < 3 := by
      rw [List.length_append, List.length_append, List.length_singleton] at hlen
      omega
    obtain ⟨a₁, hd⟩ := ensureTable_descends h hk ht hstep hshort hflags
    have hnz₁ := fun {p f} => hd.grows.nonzero (p := p) (f := f) hzero hnz
    have hzero₁ : 0 ∉ a₁.free := fun hmem => hzero (hd.grows.free_subset hmem)
    rw [List.length_cons] at hn hroom ⊢
    rw [ensurePath]
    dsimp only
    by_cases hmid : ∃ t, Owns user σ.mem root k (q ++ [i]) t
    · -- the next table is there: nothing is taken
      obtain ⟨hsame, hne⟩ := hd.there hnz hmid
      obtain ⟨n', hn', hle, hthere'⟩ : ∃ n', n' ≤ path.length ∧
          path.length - n' ≤ path.length + 1 - n ∧
          ∃ t,
            Owns user (ensureTable σ table i flags).2.mem root k (q ++ [i] ++ path.take n') t := by
        rcases n with _ | n
        · obtain ⟨t, ht⟩ := hmid
          exact ⟨0, Nat.zero_le _, by omega, t, by
            rw [List.take_zero, List.append_nil]
            exact hd.grows.keep ht⟩
        · obtain ⟨t, ht⟩ := hthere
          rw [List.take_succ_cons, List.append_cons] at ht
          exact ⟨n, by omega, by omega, t, hd.grows.keep ht⟩
      rw [if_neg hne]
      obtain ⟨hok, hcard⟩ :=
        ih hd.tables (hd.owns hne) (Or.inr hne) hpath hlen hzero₁ hnz₁ hn' hthere'
        (by rw [hsame]; omega)
      rw [hsame] at hcard
      exact ⟨hok, by omega⟩
    · -- it is missing, so no table of the path is there
      obtain rfl : n = 0 := by
        rcases n with _ | n
        · rfl
        · obtain ⟨t, ht⟩ := hthere
          rw [List.take_succ_cons, List.append_cons] at ht
          exact absurd ht.above hmid
      have hne := ensureTable_ne_zero h hk flags ht hstep hshort hzero hnz (by omega)
      have htaken := hd.room
      rw [if_neg hne]
      obtain ⟨hok, hcard⟩ := ih hd.tables (hd.owns hne) (Or.inr hne) hpath hlen hzero₁ hnz₁
        (Nat.zero_le _) ⟨_, by
          rw [List.take_zero, List.append_nil]
          exact hd.owns hne⟩ (by omega)
      exact ⟨hok, by omega⟩

end Room

end Mm

namespace Exec

open ByteMem Forest Mm

section Page

variable {κ : Type*} {user : κ → Prop} {root : κ → Option ℕ} {k : κ} {σ σ' : Phys} {a a' : PageSets}
  {pml4 va flags : U64} {fill : Mem → U64 → Option Mem}

/-- What is new in the address space lies in frames that were free. -/
def FromFree (user : κ → Prop) (root : κ → Option ℕ) (k : κ) (σ : Phys) (a : PageSets) (σ' : Phys) :
    Prop :=
  ∀ {p f}, Owns user σ'.mem root k p f → Owns user σ.mem root k p f ∨ f / 4096 ∈ a.free

theorem FromFree.refl (σ : Phys) (a : PageSets) : FromFree user root k σ a σ := Or.inl

theorem FromFree.trans {σ₁ : Phys} {a₁ : PageSets} (h₁ : FromFree user root k σ a σ₁)
    (hsub : a₁.free ⊆ a.free) (h₂ : FromFree user root k σ₁ a₁ σ') : FromFree user root k σ a σ' :=
  fun ho => (h₂ ho).elim h₁ fun hfree => Or.inr (hsub hfree)

theorem FromFree.nonzero (hf : FromFree user root k σ a σ') (hzero : 0 ∉ a.free)
    (hnz : ∀ {p f}, Owns user σ.mem root k p f → f ≠ 0) {p : List ℕ} {f : ℕ}
    (ho : Owns user σ'.mem root k p f) : f ≠ 0 := by
  rintro rfl
  exact (hf ho).elim (fun hold => hnz hold rfl) hzero

/-- A round that has mapped its page: page 0 was not free, and only free frames have been
taken. -/
theorem mapFreshPage_taken (h : Tables user root σ a) (hk : user k)
    (hroot : root k = some pml4.toNat) (hfill : FillsInside fill)
    (hok : mapFreshPage fill pml4 va flags σ = .ok σ') :
    0 ∉ a.free ∧ FromFree user root k σ a σ' := by
  obtain ⟨hzero, c, page, σ₁, hf, hmap⟩ := mapFreshPage_ok h k hfill hok
  obtain ⟨a₂, -, hg₂, -⟩ := addressSpaceMapUser_spec hf.tables hk hroot va page flags
    (Finset.mem_insert_self c _) (PageSets.mem_free.1 hf.free).2.1 hf.address (hf.not_owns h)
  rw [hmap] at hg₂
  refine ⟨hzero, fun ho => ?_⟩
  rcases hg₂.fresh ho with hold | ⟨-, hfree⟩ | ⟨-, -, -, rfl⟩
  · exact Or.inl ((hf.owns _ _ _).1 hold)
  · rw [PageSets.free_take] at hfree
    exact Or.inr (Finset.mem_of_mem_erase hfree)
  · exact Or.inr (hf.div_eq.symm ▸ hf.free)

/-- A round for a page that is not mapped, with the first `n` tables on the way to it there: one
page and one page for each missing table are enough. -/
theorem mapFreshPage_room (h : Tables user root σ a) (hk : user k)
    (hroot : root k = some pml4.toNat) (hfill : FillsInside fill) (hfills : Fills fill σ.mem a.free)
    (hzero : 0 ∉ a.free) (hnz : ∀ {p f}, Owns user σ.mem root k p f → f ≠ 0) (hva : UserPage va)
    (hno : ∀ f, ¬ Owns user σ.mem root k (pathOf va) f) {n : ℕ} (hn : n ≤ 3)
    (hthere : ∃ t, Owns user σ.mem root k ((pathOf va).take n) t) (hroom : 4 - n ≤ a.free.card) :
    ∃ σ', mapFreshPage fill pml4 va flags σ = .ok σ' ∧
      a.free.card ≤ (freeSet bootstrapLimit σ'.pmm).card + (4 - n) := by
  rcases mapFreshPage_start h k hfill pml4 va flags with
    ⟨_, _, -, -, -, ⟨hempty, -⟩ | ⟨hmem, -⟩ | hbad⟩ | ⟨-, c, page, σ₁, hf, heq⟩
  · rw [hempty, Finset.card_empty] at hroom
    omega
  · exact absurd hmem hzero
  · exact absurd hfills hbad
  have hcard := PageSets.card_free_take hf.free
  have hzero₁ : 0 ∉ (a.take c).free := fun hmem => hzero <| by
    rw [PageSets.free_take] at hmem
    exact Finset.mem_of_mem_erase hmem
  have hpath : UserPath (tablePathOf va ++ [ptIndex va]) := userPath_pathOf hva.index
  have hflags := getLsbD_or_vmmUser flags
  have htake : (pathOf va).take n = (tablePathOf va).take n :=
    List.take_append_of_le_length (show n ≤ (tablePathOf va).length from hn)
  have hnz₁ : ∀ {p f}, Owns user σ₁.mem root k p f → f ≠ 0 := fun ho => hnz ((hf.owns _ _ _).1 ho)
  obtain ⟨t, ht⟩ := hthere
  rw [htake] at ht
  obtain ⟨a₂, hd⟩ : ∃ a₂, Descends user root k σ₁ (a.take c) (tablePathOf va) 3
      (ensurePath (flags ||| vmmUser) (tablePathOf va) pml4 σ₁) a₂ :=
    ensurePath_descends (q := []) hf.tables hk (owned_nil.2 hroot) (Or.inl (List.cons_ne_nil _ _))
      hpath.above le_rfl hflags
  obtain ⟨hne, hcard₂⟩ : (ensurePath (flags ||| vmmUser) (tablePathOf va) pml4 σ₁).1 ≠ 0 ∧
      (a.take c).free.card ≤ (freeSet bootstrapLimit
        (ensurePath (flags ||| vmmUser) (tablePathOf va) pml4 σ₁).2.pmm).card + (3 - n) :=
    ensurePath_room (q := []) hf.tables hk (owned_nil.2 hroot) (Or.inl (List.cons_ne_nil _ _))
      hpath.above le_rfl hflags hzero₁ hnz₁ hn ⟨t, (hf.owns _ _ _).2 ht⟩
      (show 3 - n ≤ (a.take c).free.card by omega)
  have hpage := hf.address
  rw [heq, addressSpaceMapUser_eq, if_neg fun hbad =>
    badArgs_iff.1 hbad ⟨hva, (and_pageMask_eq_zero_iff page).2 (by omega)⟩]
  generalize ensurePath (flags ||| vmmUser) (tablePathOf va) pml4 σ₁ = r at hd hne hcard₂ ⊢
  -- the slot is empty: only tables have been made
  have habsent : ¬ slot r.2.mem r.1.toNat (ptIndex va) &&& vmmPresent ≠ 0 := fun hpresent => by
    rw [present_iff] at hpresent
    have hmapped := owned_concat.2 ⟨path_concat.2 ⟨hk, hpath⟩, r.1.toNat, hd.owns hne,
      nextTable_eq_some.2 ⟨hpresent, rfl⟩⟩
    rcases hd.grows.fresh hmapped with hold | ⟨hshort, -⟩ | ⟨-, hf⟩
    · exact hno _ ((hf.owns _ _ _).1 hold)
    · exact absurd hshort (by simp [tablePathOf])
    · exact hf
  rw [mapLeaf, if_neg hne, if_neg habsent]
  exact ⟨_, rfl, by dsimp only; omega⟩

end Page

/-! ### Frames as paths -/

/-- The frames for a list of pages, as paths: the pages, and the tables above them. -/
def framePaths (pages : List Mapping) : Finset (List ℕ) :=
  (pages.flatMap fun pg => (List.range 4).map fun n => (pathOf pg.va).take (n + 1)).toFinset

theorem mem_framePaths {pages : List Mapping} {p : List ℕ} :
    p ∈ framePaths pages ↔ ∃ pg ∈ pages, ∃ n < 4, (pathOf pg.va).take (n + 1) = p := by
  simp only [framePaths, List.mem_toFinset, List.mem_flatMap, List.mem_map, List.mem_range]

section Frames

variable {κ : Type*} {user : κ → Prop} {root : κ → Option ℕ} {k : κ} {σ σ' : Phys} {a a' : PageSets}
  {pg : Mapping} {pages rest : List Mapping}

open Classical in
/-- The frames for a list of pages that nobody owns yet. -/
noncomputable def missing (user : κ → Prop) (root : κ → Option ℕ) (k : κ) (m : Mem)
    (pages : List Mapping) : Finset (List ℕ) :=
  (framePaths pages).filter fun p => ∀ f, ¬ Owns user m root k p f

theorem mem_missing {m : Mem} {p : List ℕ} : p ∈ missing user root k m pages ↔
    p ∈ framePaths pages ∧ ∀ f, ¬ Owns user m root k p f := by
  classical
  exact Finset.mem_filter

/-- There is room for the pages: they are user pages that are not mapped, all different, and there
is a frame to take for each of them and for each missing table. -/
structure Room (user : κ → Prop) (root : κ → Option ℕ) (k : κ) (σ : Phys) (a : PageSets)
    (pages : List Mapping) : Prop where
  zero : 0 ∉ a.free
  nonzero : ∀ {p f}, Owns user σ.mem root k p f → f ≠ 0
  page : ∀ pg ∈ pages, UserPage pg.va
  fresh : ∀ pg ∈ pages, ∀ f, ¬ Owns user σ.mem root k (pathOf pg.va) f
  distinct : pages.Pairwise fun pg pg' => pathOf pg.va ≠ pathOf pg'.va
  enough : (missing user root k σ.mem pages).card ≤ a.free.card

theorem pathOf_take {va : U64} {n n' : ℕ} (hn : n ≤ 4) (hn' : n' ≤ 4)
    (h : (pathOf va).take n = (pathOf va).take n') : n = n' := by
  have hlen := congrArg List.length h
  rw [List.length_take, List.length_take, show (pathOf va).length = 4 from rfl] at hlen
  omega

/-- The parts of a page's path from length `n + 1` on. -/
theorem card_paths_from (va : U64) {n : ℕ} (hn : n ≤ 4) :
    ((Finset.range (4 - n)).image fun j => (pathOf va).take (n + j + 1)).card = 4 - n := by
  rw [Finset.card_image_of_injOn, Finset.card_range]
  intro j hj j' hj' heq
  rw [Finset.coe_range, Set.mem_Iio] at hj hj'
  have := pathOf_take (by omega) (by omega) heq
  omega

/-- How much of the way to a page is there. -/
theorem exists_there (hroot : ∃ r, root k = some r) {va : U64}
    (hno : ∀ f, ¬ Owns user σ.mem root k (pathOf va) f) :
    ∃ n ≤ 3, (∃ t, Owns user σ.mem root k ((pathOf va).take n) t) ∧
      ∀ j, n < j → j ≤ 4 → ∀ f, ¬ Owns user σ.mem root k ((pathOf va).take j) f := by
  classical
  obtain ⟨r, hr⟩ := hroot
  have hnil : ∃ t, Owns user σ.mem root k ((pathOf va).take 0) t := ⟨r, owned_nil.2 hr⟩
  let P := fun n => ∃ t, Owns user σ.mem root k ((pathOf va).take n) t
  refine ⟨Nat.findGreatest P 3, Nat.findGreatest_le 3, Nat.findGreatest_spec (P := P)
    (Nat.zero_le 3) hnil, fun j hlt hle f ho => ?_⟩
  rcases Nat.lt_or_ge j 4 with hj | hj
  · exact Nat.findGreatest_is_greatest hlt (by omega) ⟨f, ho⟩
  · obtain rfl : j = 4 := by omega
    exact hno f ho

/-- **Room for one page and the rest.**  The page is mapped, and there is room for the rest. -/
theorem Room.step {fill : Mem → U64 → Option Mem} {pml4 : U64}
    (hr : Room user root k σ a (pg :: rest)) (h : Tables user root σ a) (hk : user k)
    (hroot : root k = some pml4.toNat)
    (hfill : FillsInside fill) (hfills : Fills fill σ.mem a.free) :
    ∃ σ', mapFreshPage fill pml4 pg.va pg.flags σ = .ok σ' ∧
      ∀ {a'}, Maps user root k [pg] σ a σ' a' → Room user root k σ' a' rest := by
  have hno := hr.fresh pg (List.mem_cons_self ..)
  obtain ⟨n, hn, hthere, hmissing⟩ := exists_there ⟨_, hroot⟩ hno
  -- the missing part of the way to the page is missing in the list
  have hpart : ((Finset.range (4 - n)).image fun j => (pathOf pg.va).take (n + j + 1)) ⊆
      missing user root k σ.mem (pg :: rest) := by
    intro p hp
    obtain ⟨j, hj, rfl⟩ := Finset.mem_image.1 hp
    rw [Finset.mem_range] at hj
    exact mem_missing.2 ⟨mem_framePaths.2 ⟨pg, List.mem_cons_self .., n + j, by omega, rfl⟩,
      hmissing _ (by omega) (by omega)⟩
  have hcount := card_paths_from pg.va (show n ≤ 4 by omega)
  have henough := hr.enough
  have hle := Finset.card_le_card hpart
  obtain ⟨σ', hok, hcard⟩ : ∃ σ', mapFreshPage fill pml4 pg.va pg.flags σ = .ok σ' ∧
      a.free.card ≤ (freeSet bootstrapLimit σ'.pmm).card + (4 - n) :=
    mapFreshPage_room h hk hroot hfill hfills hr.zero hr.nonzero
      (hr.page pg (List.mem_cons_self ..)) hno
      hn hthere (by omega)
  obtain ⟨-, hfrom⟩ := mapFreshPage_taken h hk hroot hfill hok
  refine ⟨σ', hok, fun {a'} hmaps => ?_⟩
  obtain ⟨hdistinct, hpairs⟩ := List.pairwise_cons.1 hr.distinct
  rw [hmaps.tables.refines.freeSet_eq] at hcard
  -- that part is there afterwards, and nothing else is missing for the rest
  have hsub : missing user root k σ'.mem rest ⊆ missing user root k σ.mem (pg :: rest) \
      ((Finset.range (4 - n)).image fun j => (pathOf pg.va).take (n + j + 1)) := by
    intro p hp
    obtain ⟨hmem, hnone⟩ := mem_missing.1 hp
    obtain ⟨pg', hpg', j, hj, rfl⟩ := mem_framePaths.1 hmem
    refine Finset.mem_sdiff.2 ⟨mem_missing.2 ⟨mem_framePaths.2
      ⟨pg', List.mem_cons_of_mem _ hpg', j, hj, rfl⟩, fun f ho => hnone f (hmaps.grows.keep ho)⟩,
      fun hp => ?_⟩
    obtain ⟨j', -, heq⟩ := Finset.mem_image.1 hp
    obtain ⟨frame, pt, hm⟩ := hmaps.mapped pg (List.mem_singleton_self _)
    have ho := hm.owns
    rw [← List.take_append_drop (n + j' + 1) (pathOf pg.va)] at ho
    obtain ⟨g, hg⟩ := Owned.above ho
    exact hnone g (heq ▸ hg)
  have hrest := Finset.card_le_card hsub
  rw [Finset.card_sdiff_of_subset hpart, hcount] at hrest
  exact {
    zero := fun hmem => hr.zero (hmaps.grows.free_subset hmem)
    nonzero := fun ho => hfrom.nonzero hr.zero hr.nonzero ho
    page := fun pg' hpg' => hr.page pg' (List.mem_cons_of_mem _ hpg')
    fresh := fun pg' hpg' =>
      hmaps.not_mapped (hr.fresh pg' (List.mem_cons_of_mem _ hpg')) fun pg₁ hpg₁ => by
        obtain rfl := List.mem_singleton.1 hpg₁
        exact (hdistinct pg' hpg').symm
    distinct := hpairs
    enough := by omega }

/-- Where the pages have been mapped there was a frame for each missing path. -/
theorem Maps.card_missing (hmaps : Maps user root k pages σ a σ' a')
    (hfrom : FromFree user root k σ a σ') :
    (missing user root k σ.mem pages).card ≤ a.free.card := by
  classical
  have hframe : ∀ p ∈ missing user root k σ.mem pages,
      ∃ f, Owns user σ'.mem root k p f ∧ f / 4096 ∈ a.free := by
    intro p hp
    obtain ⟨hpath, hno⟩ := mem_missing.1 hp
    obtain ⟨pg, hpg, n, hn, rfl⟩ := mem_framePaths.1 hpath
    obtain ⟨frame, pt, hm⟩ := hmaps.mapped pg hpg
    have ho := hm.owns
    rw [← List.take_append_drop (n + 1) (pathOf pg.va)] at ho
    obtain ⟨g, hg⟩ := Owned.above ho
    exact ⟨g, hg, (hfrom hg).resolve_left (hno g)⟩
  choose! frame hframe using hframe
  refine Finset.card_le_card_of_injOn (fun p => frame p / 4096) (fun p hp => (hframe p hp).2) ?_
  intro p hp p' hp' heq
  exact (hmaps.tables.page_unique (hframe p hp).1 (hframe p' hp').1 heq).2

/-- In an address space that owns its PML4 alone, all of them are missing. -/
theorem missing_eq_framePaths {m : Mem} (hempty : ∀ {p f}, Owns user m root k p f → p = [])
    (pages : List Mapping) : missing user root k m pages = framePaths pages := by
  ext p
  rw [mem_missing, and_iff_left_iff_imp]
  intro hp f ho
  obtain ⟨pg, -, n, -, rfl⟩ := mem_framePaths.1 hp
  exact absurd (hempty ho) (by simp [pathOf])

/-- Where pages have been mapped, there was room for them. -/
theorem Maps.room (hmaps : Maps user root k pages σ a σ' a') (hfrom : FromFree user root k σ a σ')
    (hzero : 0 ∉ a.free) (hnz : ∀ {p f}, Owns user σ.mem root k p f → f ≠ 0) :
    Room user root k σ a pages where
  zero := hzero
  nonzero := hnz
  page pg hpg := by
    obtain ⟨frame, pt, hm⟩ := hmaps.mapped pg hpg
    exact hm.page
  fresh := hmaps.fresh
  distinct := hmaps.distinct
  enough := hmaps.card_missing hfrom

end Frames

/-! ### The loops of the loader -/

section Loops

variable {κ : Type*} {user : κ → Prop} {root : κ → Option ℕ} {k : κ} {σ σ' : Phys} {a a' : PageSets}
  {m₀ : Mem} {pml4 image imageSize bias : U64} {ph : ℕ} {header : Elf64ProgramHeader}
    {seg : Segment}
  {rest : List Mapping} {n i : ℕ} {va : U64} {entryMapped entryMapped' : Bool}

/-- Any free page can be filled. -/
theorem LoadsSegment.fills (hl : LoadsSegment m₀ image imageSize bias ph header seg)
    (hs : Sees user root k m₀ image imageSize σ a) (hhi : va.toNat < seg.mapEnd.toNat) :
    Fills (fillPage image imageSize ph seg va) σ.mem a.free := by
  intro page halign hfree hnone
  obtain ⟨m', hfill, -⟩ := hl.fill hs hhi halign hfree
  exact absurd (hfill.symm.trans hnone) (by simp)

variable (h : Tables user root σ a) (hk : user k) (hroot : root k = some pml4.toNat)
  (hs : Sees user root k m₀ image imageSize σ a)

include h hk hroot hs

/-- The page loop has taken free frames only, and has looked for the entry point in each of the
pages. -/
theorem LoadsSegment.pages_ok (hl : LoadsSegment m₀ image imageSize bias ph header seg)
    (hsize : 64 ≤ imageSize.toNat) (hhi : va.toNat + 4096 * n ≤ seg.mapEnd.toNat)
    (hok : loadPages pml4 image imageSize bias ph seg n va entryMapped σ = .ok (entryMapped', σ')) :
    FromFree user root k σ a σ' ∧ (n ≠ 0 → 0 ∉ a.free) ∧
      entryMapped' = (entryMapped || (pageRun (segmentPage m₀ image header seg) n va).any fun pg =>
        entryInPage m₀ image bias pg.va) := by
  induction n generalizing σ a va entryMapped with
  | zero =>
    rw [loadPages, Except.ok.injEq, Prod.mk.injEq] at hok
    obtain ⟨rfl, rfl⟩ := hok
    exact ⟨FromFree.refl σ a, fun h0 => absurd rfl h0, by rw [pageRun, List.any_nil, Bool.or_false]⟩
  | succ n ih =>
    obtain ⟨hlt, -, hrest⟩ := hl.range.next_page hhi
    obtain ⟨σ₁, a₁, heq, hmaps, hs₁, hok⟩ := hl.next h hk hroot hs hlt hok
    obtain ⟨hzero, hfrom⟩ := mapFreshPage_taken h hk hroot
      fillPage_inside heq
    obtain ⟨hfrom', -, hentry⟩ := ih hmaps.tables hs₁ hrest hok
    refine ⟨hfrom.trans hmaps.grows.free_subset hfrom', fun _ => hzero, ?_⟩
    obtain ⟨-, -, -, -, hsame⟩ := hs₁.same.header hsize
    have hlook : entryInPage σ₁.mem image bias va = entryInPage m₀ image bias va := by
      rw [entryInPage, entryInPage, hsame]
    rw [hentry, hlook, pageRun, List.any_cons, ← Bool.or_assoc,
      show (segmentPage m₀ image header seg va).va = va from rfl]

/-- With room for its pages the page loop succeeds. -/
theorem LoadsSegment.pages_total (hl : LoadsSegment m₀ image imageSize bias ph header seg)
    (hhi : va.toNat + 4096 * n ≤ seg.mapEnd.toNat)
    (hroom : Room user root k σ a (pageRun (segmentPage m₀ image header seg) n va ++ rest))
    (entryMapped : Bool) :
    ∃ entryMapped' σ' a',
      loadPages pml4 image imageSize bias ph seg n va entryMapped σ = .ok (entryMapped', σ') ∧
      Tables user root σ' a' ∧ Sees user root k m₀ image imageSize σ' a' ∧
      Room user root k σ' a' rest := by
  induction n generalizing σ a va entryMapped with
  | zero => exact ⟨entryMapped, σ, a, rfl, h, hs, hroom⟩
  | succ n ih =>
    obtain ⟨hlt, -, hrest⟩ := hl.range.next_page hhi
    obtain ⟨σ₁, hok, hroom'⟩ := hroom.step h hk hroot
      fillPage_inside (hl.fills hs hlt)
    rcases hl.page h hk hroot hs hlt with ⟨σ₂, heq, -⟩ | ⟨σ₂, a₂, heq, hmaps, hs₂, -⟩
    · exact absurd (heq.symm.trans hok) (by simp)
    · obtain rfl := Except.ok.inj (heq.symm.trans hok)
      rw [loadPages, heq]
      exact ih hmaps.tables hs₂ hrest (hroom' hmaps) _

/-- The header loop has taken free frames only, and has looked for the entry point in each of the
pages. -/
theorem ValidImage.headers_ok (hv : ValidImage m₀ image imageSize) (hn : 2 ^ 16 ≤ n + i)
    (hok : loadHeaders pml4 image imageSize bias n i entryMapped σ = .ok (entryMapped', σ')) :
    let pages := (List.range' i ((headerAt m₀ image.toNat).phnum.toNat - i)).flatMap
      (headerPages m₀ image bias)
    FromFree user root k σ a σ' ∧ (pages ≠ [] → 0 ∉ a.free) ∧
      entryMapped' = (entryMapped || pages.any fun pg => entryInPage m₀ image bias pg.va) := by
  have hphnum := (headerAt m₀ image.toNat).phnum.isLt
  dsimp only
  induction n generalizing σ a i entryMapped with
  | zero =>
    rw [loadHeaders, Except.ok.injEq, Prod.mk.injEq] at hok
    obtain ⟨rfl, rfl⟩ := hok
    rw [Nat.sub_eq_zero_of_le (by omega)]
    exact ⟨FromFree.refl σ a, fun hne => absurd rfl hne, (Bool.or_false _).symm⟩
  | succ n ih =>
    rcases hv.loadHeaders_cases hs.same pml4 bias n i entryMapped with
      ⟨hle, heq⟩ | ⟨hi, hl, heq⟩ | ⟨-, -, heq⟩ | ⟨seg, hl, hseg,
        ⟨σ₁, -, heq⟩ | ⟨b, σ₁, hpages, heq⟩⟩
    · rw [heq, Except.ok.injEq, Prod.mk.injEq] at hok
      obtain ⟨rfl, rfl⟩ := hok
      rw [Nat.sub_eq_zero_of_le hle]
      exact ⟨FromFree.refl σ a, fun hne => absurd rfl hne, (Bool.or_false _).symm⟩
    · rw [flatMap_headerPages hi, headerPages_of_not_loadable hi hl, List.nil_append]
      exact ih h hs (by omega) (heq ▸ hok)
    · exact absurd (heq.symm.trans hok) (by simp)
    · exact absurd (heq.symm.trans hok) (by simp)
    · have hsegment := hv.loadsSegment hl hseg
      have hend := hsegment.range.pages_le.2
      have hne : seg.pages ≠ 0 := by
        have h₁ := hsegment.range.mapStart
        have h₂ := hsegment.range.mapEnd
        have h₃ := hsegment.range.nonempty
        omega
      obtain ⟨a₁, hmaps, hs₁⟩ := hsegment.pages h hk hroot hs hend.le hpages
      obtain ⟨hfrom, hzero, hentry⟩ := hsegment.pages_ok h hk hroot hs hv.header hend.le hpages
      obtain ⟨hfrom', -, hentry'⟩ := ih hmaps.tables hs₁ (by omega) (heq ▸ hok)
      rw [flatMap_headerPages hl.1, headerPages_of_segment hl hseg, List.any_append,
        hentry', hentry, Bool.or_assoc]
      exact ⟨hfrom.trans hmaps.grows.free_subset hfrom', fun _ => hzero hne, rfl⟩

/-- With room for the pages of the image, and all segments passing the checks, the header loop
succeeds, and leaves the room that is for others. -/
theorem ValidImage.headers_total (hv : ValidImage m₀ image imageSize) (hn : 2 ^ 16 ≤ n + i)
    (hsegs : ∀ j, i ≤ j → Loadable m₀ image j →
      ∃ seg, segmentOf bias (programHeader m₀ image j) = some seg)
    (hroom : Room user root k σ a
      ((List.range' i ((headerAt m₀ image.toNat).phnum.toNat - i)).flatMap
      (headerPages m₀ image bias) ++ rest)) (entryMapped : Bool) :
    ∃ entryMapped' σ' a',
      loadHeaders pml4 image imageSize bias n i entryMapped σ = .ok (entryMapped', σ') ∧
      Tables user root σ' a' ∧ Room user root k σ' a' rest := by
  have hphnum := (headerAt m₀ image.toNat).phnum.isLt
  induction n generalizing σ a i entryMapped with
  | zero =>
    rw [Nat.sub_eq_zero_of_le (by omega)] at hroom
    exact ⟨entryMapped, σ, a, rfl, h, hroom⟩
  | succ n ih =>
    have hlater : ∀ j, i + 1 ≤ j → Loadable m₀ image j →
        ∃ seg, segmentOf bias (programHeader m₀ image j) = some seg :=
          fun j hj => hsegs j (by omega)
    rcases hv.loadHeaders_cases hs.same pml4 bias n i entryMapped with
      ⟨hle, heq⟩ | ⟨hi, hl, heq⟩ | ⟨hl, hnone, -⟩ | ⟨seg, hl, hseg, hcases⟩
    · rw [Nat.sub_eq_zero_of_le hle] at hroom
      exact ⟨_, _, a, heq, h, hroom⟩
    · rw [flatMap_headerPages hi, headerPages_of_not_loadable hi hl] at hroom
      rw [heq]
      exact ih h hs (by omega) hlater hroom entryMapped
    · obtain ⟨seg, hseg⟩ := hsegs i le_rfl hl
      exact absurd (hseg.symm.trans hnone) (by simp)
    · have hsegment := hv.loadsSegment hl hseg
      rw [flatMap_headerPages hl.1, headerPages_of_segment hl hseg, List.append_assoc] at hroom
      obtain ⟨b, σ₁, a₁, hpages, h₁, hs₁, hroom₁⟩ := hsegment.pages_total h hk hroot hs
        hsegment.range.pages_le.2.le hroom entryMapped
      rcases hcases with ⟨σ₂, herr, -⟩ | ⟨b', σ₂, hok, heq⟩
      · exact absurd (herr.symm.trans hpages) (by simp)
      · obtain ⟨rfl, rfl⟩ := Prod.mk.inj (Except.ok.inj (hok.symm.trans hpages))
        rw [heq]
        exact ih h₁ hs₁ (by omega) hlater hroom₁ b'

end Loops

end Exec
end SuiraBox
