/-
# Trees in a store, one per owner

A store maps a node and an index to the node below, if there is one:
`next f i`.  Owners hold roots in the store, and what belongs to an owner is
what the paths of its shape reach from its root.  When no node is reached
twice, by whichever owners and paths, the store is a forest (`Separate`).

The three changes that keep a forest a forest: changing the store where no
owner looks (`owned_congr`), hanging a fresh node under an empty slot
(`owned_insert`) and giving an owner a fresh root or none (`owned_setRoot`).
Each is stated as what every owner owns afterwards.

A forest whose slots hold entries is, to each owner, a function from paths to
entries (`entryAt`), and writing to a slot is an update of that function.
-/

import Mathlib.Data.List.Induction
import Mathlib.Logic.Function.Basic

namespace Forest

variable {φ ι κ : Type*}

/-- Follow a path down from a node. -/
def walk (next : φ → ι → Option φ) : φ → List ι → Option φ
  | f, [] => some f
  | f, i :: p => (next f i).bind fun g => walk next g p

theorem walk_append (next : φ → ι → Option φ) (f : φ) (p q : List ι) :
    walk next f (p ++ q) = (walk next f p).bind fun g => walk next g q := by
  induction p generalizing f with
  | nil => rfl
  | cons i p ih =>
    rw [List.cons_append, walk, walk, Option.bind_assoc]
    exact congrArg _ (funext ih)

/-- The paths that count, for each owner. -/
structure Shape (κ ι : Type*) where
  path : κ → List ι → Prop
  nil : ∀ k, path k []
  closed : ∀ {k p i}, path k (p ++ [i]) → path k p

/-- Owner `k` reaches node `f` by path `p`. -/
def Owned (S : Shape κ ι) (next : φ → ι → Option φ) (root : κ → Option φ) (k : κ) (p : List ι)
    (f : φ) : Prop :=
  S.path k p ∧ ∃ r, root k = some r ∧ walk next r p = some f

/-- No node is reached twice. -/
def Separate (S : Shape κ ι) (next : φ → ι → Option φ) (root : κ → Option φ) : Prop :=
  ∀ {k k' p p' f}, Owned S next root k p f → Owned S next root k' p' f → k = k' ∧ p = p'

variable {S : Shape κ ι} {next next' : φ → ι → Option φ} {root root' : κ → Option φ} {k : κ}

theorem owned_nil {f : φ} : Owned S next root k [] f ↔ root k = some f := by
  constructor
  · rintro ⟨-, r, hr, hw⟩
    rw [hr, ← hw]
    rfl
  · intro h
    exact ⟨S.nil k, f, h, rfl⟩

theorem owned_concat {p : List ι} {i : ι} {f : φ} :
    Owned S next root k (p ++ [i]) f ↔
      S.path k (p ++ [i]) ∧ ∃ g, Owned S next root k p g ∧ next g i = some f := by
  constructor
  · rintro ⟨hp, r, hr, hw⟩
    rw [walk_append, Option.bind_eq_some_iff] at hw
    obtain ⟨g, hg, hw⟩ := hw
    rw [walk, Option.bind_eq_some_iff] at hw
    obtain ⟨f', hf', hw⟩ := hw
    obtain rfl : f' = f := Option.some.inj hw
    exact ⟨hp, g, ⟨S.closed hp, r, hr, hg⟩, hf'⟩
  · rintro ⟨hp, g, ⟨-, r, hr, hg⟩, hf⟩
    refine ⟨hp, r, hr, ?_⟩
    rw [walk_append, hg, Option.bind_some, walk, hf]
    rfl

/-- Above what is owned there is something owned. -/
theorem Owned.above {p q : List ι} {f : φ} (h : Owned S next root k (p ++ q) f) :
    ∃ g, Owned S next root k p g := by
  induction q using List.reverseRecOn generalizing f with
  | nil => exact ⟨f, by rwa [List.append_nil] at h⟩
  | append_singleton q i ih =>
    rw [← List.append_assoc] at h
    obtain ⟨-, g, hg, -⟩ := owned_concat.1 h
    exact ih hg

/-- A path leads to one node. -/
theorem Owned.unique {p : List ι} {f g : φ} (hf : Owned S next root k p f)
    (hg : Owned S next root k p g) : f = g := by
  obtain ⟨-, r, hr, hw⟩ := hf
  obtain ⟨-, r', hr', hw'⟩ := hg
  obtain rfl : r = r' := Option.some.inj (hr.symm.trans hr')
  exact Option.some.inj (hw.symm.trans hw')

/-- What an owner owns depends on the slots it looks at only. -/
theorem owned_congr
    (h : ∀ {p f i}, Owned S next root k p f → S.path k (p ++ [i]) → next' f i = next f i)
    (p : List ι) (f : φ) : Owned S next' root k p f ↔ Owned S next root k p f := by
  induction p using List.reverseRecOn generalizing f with
  | nil => rw [owned_nil, owned_nil]
  | append_singleton p i ih =>
    rw [owned_concat, owned_concat]
    refine and_congr_right fun hp => exists_congr fun g => ?_
    rw [ih]
    exact and_congr_right fun hg => by rw [h hg hp]

/-- A fresh node `g` under the empty slot `i` of a node `t`: owner `k` owns it, by
the path through that slot, and nothing else changes. -/
theorem owned_insert {q : List ι} {i : ι} {t g : φ}
    (hsep : Separate S next root) (ht : Owned S next root k q t) (hpath : S.path k (q ++ [i]))
    (hempty : next t i = none) (hnew : next' t i = some g)
    (hleaf : ∀ j, S.path k (q ++ [i] ++ [j]) → next' g j = none)
    (hsame : ∀ {k' p f j}, Owned S next root k' p f → S.path k' (p ++ [j]) → (f, j) ≠ (t, i) →
      next' f j = next f j)
    (k' : κ) (p : List ι) (f : φ) :
    Owned S next' root k' p f ↔ Owned S next root k' p f ∨ k' = k ∧ p = q ++ [i] ∧ f = g := by
  induction p using List.reverseRecOn generalizing f with
  | nil =>
    rw [owned_nil, owned_nil]
    exact ⟨Or.inl, fun h => h.resolve_right fun ⟨_, h, _⟩ => by simp at h⟩
  | append_singleton p j ih =>
    rw [owned_concat, owned_concat]
    constructor
    · rintro ⟨hp, f', hf', hstep⟩
      rcases (ih f').1 hf' with hold | ⟨rfl, rfl, rfl⟩
      · rcases eq_or_ne (f', j) (t, i) with heq | hne
        · -- the slot that was filled: by separation this is the path to it
          obtain ⟨rfl, rfl⟩ := Prod.mk.inj heq
          obtain ⟨rfl, rfl⟩ := hsep hold ht
          rw [hnew] at hstep
          exact Or.inr ⟨rfl, rfl, (Option.some.inj hstep).symm⟩
        · rw [hsame hold hp hne] at hstep
          exact Or.inl ⟨hp, f', hold, hstep⟩
      · rw [hleaf j hp] at hstep
        exact absurd hstep (by simp)
    · rintro (⟨hp, f', hold, hstep⟩ | ⟨rfl, heq, rfl⟩)
      · refine ⟨hp, f', (ih f').2 (Or.inl hold), ?_⟩
        rcases eq_or_ne (f', j) (t, i) with heq | hne
        · obtain ⟨rfl, rfl⟩ := Prod.mk.inj heq
          rw [hempty] at hstep
          exact absurd hstep (by simp)
        · rw [hsame hold hp hne]
          exact hstep
      · obtain ⟨rfl, rfl⟩ : p = q ∧ j = i := by simpa using heq
        exact ⟨hpath, t, (ih t).2 (Or.inl ht), hnew⟩

/-- One more node with one owner and one path keeps the forest separate. -/
theorem separate_insert {q : List ι} {g : φ} (hsep : Separate S next root)
    (hfresh : ∀ {k' p}, ¬ Owned S next root k' p g)
    (h : ∀ k' p f, Owned S next' root' k' p f → Owned S next root k' p f ∨ k' = k ∧ p = q ∧ f = g) :
    Separate S next' root' := by
  intro k₁ k₂ p₁ p₂ f h₁ h₂
  rcases h _ _ _ h₁ with h₁ | ⟨rfl, rfl, rfl⟩
  · rcases h _ _ _ h₂ with h₂ | ⟨rfl, rfl, rfl⟩
    · exact hsep h₁ h₂
    · exact absurd h₁ hfresh
  · rcases h _ _ _ h₂ with h₂ | ⟨rfl, rfl, -⟩
    · exact absurd h₂ hfresh
    · exact ⟨rfl, rfl⟩

/-- Fewer nodes keep the forest separate. -/
theorem separate_mono (hsep : Separate S next root)
    (h : ∀ k p f, Owned S next' root' k p f → Owned S next root k p f) : Separate S next' root' :=
  fun h₁ h₂ => hsep (h _ _ _ h₁) (h _ _ _ h₂)

/-- Another root for owner `k` is nothing to the other owners. -/
theorem owned_setRoot_of_ne {k' : κ} (hk : k' ≠ k) (hroot : ∀ k', k' ≠ k → root' k' = root k')
    (p : List ι) (f : φ) : Owned S next root' k' p f ↔ Owned S next root k' p f := by
  rw [Owned, Owned, hroot k' hk]

/-- A root with empty slots is all that its owner owns. -/
theorem owned_of_leaf {g : φ} (hroot : root k = some g)
    (hleaf : ∀ j, S.path k [j] → next g j = none) {p : List ι} {f : φ}
    (h : Owned S next root k p f) : p = [] ∧ f = g := by
  induction p using List.reverseRecOn generalizing f with
  | nil => exact ⟨rfl, Option.some.inj ((owned_nil.1 h).symm.trans hroot)⟩
  | append_singleton p j ih =>
    obtain ⟨hp, f', hf', hstep⟩ := owned_concat.1 h
    obtain ⟨rfl, rfl⟩ := ih hf'
    rw [hleaf j hp] at hstep
    exact absurd hstep (by simp)

/-! ### Entries

A store that keeps an entry in every slot: what the paths of an owner lead to,
read as a function from paths and indices to entries. -/

section Entries

variable {ε : Type*} [Zero ε] {slot : φ → ι → ε}

/-- The entry in slot `i` of the node that path `p` leads owner `k` to, `0` when it
leads nowhere. -/
def entryAt (next : φ → ι → Option φ) (slot : φ → ι → ε) (root : κ → Option φ) (k : κ)
    (p : List ι) (i : ι) : ε :=
  ((root k).bind fun r => walk next r p).elim 0 fun f => slot f i

/-- The entries at a path are those of its node. -/
theorem Owned.entryAt {p : List ι} {f : φ} (h : Owned S next root k p f) (i : ι) :
    entryAt next slot root k p i = slot f i := by
  obtain ⟨-, r, hr, hw⟩ := h
  rw [Forest.entryAt, hr, Option.bind_some, hw]
  rfl

/-- Where there is no node, entries are zero. -/
theorem entryAt_of_not_owned {p : List ι} (hp : S.path k p) (h : ∀ f, ¬ Owned S next root k p f)
    (i : ι) : entryAt next slot root k p i = 0 := by
  rw [entryAt]
  rcases hw : (root k).bind fun r => walk next r p with _ | f
  · rfl
  · obtain ⟨r, hr, hf⟩ := Option.bind_eq_some_iff.1 hw
    exact absurd ⟨hp, r, hr, hf⟩ (h f)

/-- When the nodes stay, the only entry that changes is the one that is written. -/
theorem entryAt_set (slot slot' : φ → ι → ε) {p q : List ι} {i j : ι} {t : φ}
    (hsep : Separate S next root) (ht : Owned S next root k q t) (hp : S.path k p)
    (howned : ∀ f, Owned S next' root k p f ↔ Owned S next root k p f)
    (hsame : ∀ f, Owned S next root k p f → (f, j) ≠ (t, i) → slot' f j = slot f j) :
    (p = q ∧ j = i → entryAt next' slot' root k p j = slot' t i) ∧
      (¬ (p = q ∧ j = i) → entryAt next' slot' root k p j = entryAt next slot root k p j) := by
  constructor
  · rintro ⟨rfl, rfl⟩
    exact ((howned t).2 ht).entryAt j
  · intro hne
    rcases Classical.em (∃ f, Owned S next root k p f) with ⟨f, hf⟩ | hno
    · rw [((howned f).2 hf).entryAt, hf.entryAt]
      refine hsame f hf fun heq => hne ?_
      obtain ⟨rfl, rfl⟩ := Prod.mk.inj heq
      exact ⟨(hsep hf ht).2, rfl⟩
    · rw [entryAt_of_not_owned hp fun f hf => hno ⟨f, (howned f).1 hf⟩,
        entryAt_of_not_owned hp fun f hf => hno ⟨f, hf⟩]

/-- A fresh node with empty slots adds no entry but the one it hangs from. -/
theorem entryAt_insert (slot slot' : φ → ι → ε) {p q : List ι} {i j : ι} {t g : φ}
    (hsep : Separate S next root) (ht : Owned S next root k q t) (hempty : next t i = none)
    (hp : S.path k p) (howned : ∀ p f, Owned S next' root k p f ↔ Owned S next root k p f ∨
      p = q ++ [i] ∧ f = g)
    (hsame : ∀ f, Owned S next root k p f → (f, j) ≠ (t, i) → slot' f j = slot f j)
    (hleaf : slot' g j = 0) :
    (p = q ∧ j = i → entryAt next' slot' root k p j = slot' t i) ∧
      (¬ (p = q ∧ j = i) → entryAt next' slot' root k p j = entryAt next slot root k p j) := by
  rcases eq_or_ne p (q ++ [i]) with rfl | hne
  · -- the fresh node: nothing was there, and its slots are empty
    have hno : ∀ f, ¬ Owned S next root k (q ++ [i]) f := by
      intro f hf
      obtain ⟨-, g', hg', hstep⟩ := owned_concat.1 hf
      rw [hg'.unique ht, hempty] at hstep
      exact absurd hstep (by simp)
    refine ⟨fun heq => absurd heq.1 (by simp), fun _ => ?_⟩
    rw [((howned _ g).2 (Or.inr ⟨rfl, rfl⟩)).entryAt, hleaf, entryAt_of_not_owned hp hno]
  · refine entryAt_set slot slot' hsep ht hp (fun f => ?_) hsame
    rw [howned]
    exact or_iff_left fun h => hne h.1

end Entries

end Forest
