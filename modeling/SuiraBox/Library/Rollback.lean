/-
# All or nothing

A store is looked at as a partial map from keys to values.  Entries are added one by one;
where one cannot be added, those added before are removed again, in the order they were
added (`insertAll`).  It is enough to know what one insertion and one removal do to the map:
an insertion finds its key unused and adds it, or fails and changes nothing; a removal of
what an insertion has added takes it away (`Store`).  Then the whole either adds all the
entries or leaves the map as it was.
-/

import Mathlib.Logic.Function.Basic
import Mathlib.Data.List.Basic

namespace Rollback

variable {σ ι κ ν : Type*}

/-- Adding the entries `items` after those of `done`.  If one of them cannot be added, all that have
been added are removed. -/
def insertAll (insert : ι → σ → Bool × σ) (remove : ι → σ → σ) : List ι → List ι → σ → Bool × σ
  | _, [], s => (true, s)
  | done, i :: items, s =>
    if (insert i s).1 then insertAll insert remove (done ++ [i]) items (insert i s).2
    else (false, done.foldl (fun s i => remove i s) (insert i s).2)

variable [DecidableEq κ] {inv : σ → Prop} {view : σ → κ → Option ν} {key : ι → κ} {value : ι → ν}
  {insert : ι → σ → Bool × σ} {remove : ι → σ → σ} {ok : ι → Prop} {f : κ → Option ν} {s : σ}
  {done items : List ι}

/-- What one insertion and one removal do, for the entries that are `ok`. -/
structure Store (inv : σ → Prop) (view : σ → κ → Option ν) (key : ι → κ) (value : ι → ν)
    (insert : ι → σ → Bool × σ) (remove : ι → σ → σ) (ok : ι → Prop) : Prop where
  added : ∀ {s i}, inv s → ok i → (insert i s).1 = true → view s (key i) = none ∧
    inv (insert i s).2 ∧ view (insert i s).2 = Function.update (view s) (key i) (some (value i))
  failed : ∀ {s i}, inv s → ok i → (insert i s).1 = false →
    inv (insert i s).2 ∧ view (insert i s).2 = view s
  removed : ∀ {s i}, inv s → ok i → view s (key i) = some (value i) →
    inv (remove i s) ∧ view (remove i s) = Function.update (view s) (key i) none

/-- The entries of `done` have been added to the map `f`. -/
structure Added (inv : σ → Prop) (view : σ → κ → Option ν) (key : ι → κ) (value : ι → ν)
    (f : κ → Option ν) (done : List ι) (s : σ) : Prop where
  inv : inv s
  unused : ∀ i ∈ done, f (key i) = none
  apart : done.Pairwise fun i j => key i ≠ key j
  there : ∀ i ∈ done, view s (key i) = some (value i)
  other : ∀ k, (∀ i ∈ done, key i ≠ k) → view s k = f k

variable (hstore : Store inv view key value insert remove ok)
  (h : Added inv view key value f done s)

include hstore h

/-- One more entry. -/
theorem Added.step {i : ι} (hi : ok i) (hok : (insert i s).1 = true) :
    Added inv view key value f (done ++ [i]) (insert i s).2 := by
  obtain ⟨hnone, hinv, hview⟩ := hstore.added h.inv hi hok
  have hnew : ∀ j ∈ done, key j ≠ key i := by
    intro j hj heq
    have := h.there j hj
    rw [heq, hnone] at this
    cases this
  refine ⟨hinv, fun j hj => ?_, ?_, fun j hj => ?_, fun k hk => ?_⟩
  · rcases List.mem_append.1 hj with hj | hj
    · exact h.unused j hj
    · rw [List.mem_singleton.1 hj, ← h.other _ hnew, hnone]
  · refine List.pairwise_append.2 ⟨h.apart, List.pairwise_singleton .., fun j hj l hl => ?_⟩
    rw [List.mem_singleton.1 hl]
    exact hnew j hj
  · rw [hview]
    rcases List.mem_append.1 hj with hj | hj
    · rw [Function.update_of_ne (hnew j hj), h.there j hj]
    · rw [List.mem_singleton.1 hj, Function.update_self]
  · rw [hview, Function.update_of_ne (hk i (by simp)).symm]
    exact h.other k fun j hj => hk j (List.mem_append_left _ hj)

/-- **Rollback rule.**  Removing what has been added gives the old map back. -/
theorem Added.undo (hok : ∀ i ∈ done, ok i) :
    inv (done.foldl (fun s i => remove i s) s) ∧
    view (done.foldl (fun s i => remove i s) s) = f := by
  induction done generalizing s with
  | nil => exact ⟨h.inv, funext fun k => h.other k (by simp)⟩
  | cons i done ih =>
    obtain ⟨hinv, hview⟩ := hstore.removed h.inv (hok i (by simp)) (h.there i (by simp))
    obtain ⟨hfirst, hrest⟩ := List.pairwise_cons.1 h.apart
    refine ih ⟨hinv, fun j hj => h.unused j (by simp [hj]), hrest, fun j hj => ?_, fun k hk => ?_⟩
      fun j hj => hok j (by simp [hj])
    · rw [hview, Function.update_of_ne (hfirst j hj).symm]
      exact h.there j (by simp [hj])
    · rw [hview]
      rcases eq_or_ne k (key i) with rfl | hne
      · rw [Function.update_self, h.unused i (by simp)]
      · rw [Function.update_of_ne hne]
        refine h.other k fun j hj => ?_
        rcases List.mem_cons.1 hj with rfl | hj
        · exact hne.symm
        · exact hk j hj

/-- **All or nothing.**  All entries are added, or the map is the old one. -/
theorem Added.insertAll_spec (hdone : ∀ i ∈ done, ok i)
    (hitems : ∀ i ∈ items, ok i) : let r := insertAll insert remove done items s
    (r.1 = true → Added inv view key value f (done ++ items) r.2) ∧
      (r.1 = false → inv r.2 ∧ view r.2 = f) := by
  induction items generalizing done s with
  | nil =>
    rw [insertAll, List.append_nil]
    exact ⟨fun _ => h, fun hfalse => absurd hfalse (by simp)⟩
  | cons i items ih =>
    have hi := hitems i (by simp)
    rw [insertAll]
    split_ifs with hok
    · rw [show done ++ i :: items = done ++ [i] ++ items from List.append_cons ..]
      refine ih (h.step hstore hi hok) (fun j hj => ?_) fun j hj => hitems j (by simp [hj])
      rcases List.mem_append.1 hj with hj | hj
      · exact hdone j hj
      · rwa [List.mem_singleton.1 hj]
    · rw [Bool.not_eq_true] at hok
      obtain ⟨hinv, hview⟩ := hstore.failed h.inv hi hok
      have hsame : Added inv view key value f done (insert i s).2 :=
        ⟨hinv, h.unused, h.apart, fun j hj => by rw [hview, h.there j hj],
          fun k hk => by rw [hview, h.other k hk]⟩
      exact ⟨fun htrue => absurd htrue (by simp), fun _ => hsame.undo hstore hdone⟩

end Rollback
