/-
# Devices behind ports

A device is a state machine on the bus: every event on the ports changes it, and it answers a read
from the state it is in.  Programs that talk to it are described by pre- and postconditions on that
state (`Triple`), with one rule for each way to put programs together, one for waiting at a port,
and one each for words that are moved in and out.
-/

import SuiraBox.Library.PortIo

namespace PortIo

variable {port : BitVec 16}

/-- What a device does on an event, and what it answers. -/
structure Device (σ : Type) where
  react : σ → Event → σ
  in8 : σ → BitVec 16 → BitVec 8
  in16 : σ → BitVec 16 → BitVec 16

namespace Device

variable {σ α β : Type} (D : Device σ) (s₀ : σ)

/-- The state after the events, from the state `s₀` on. -/
def after (h : List Event) : σ := h.foldl D.react s₀

/-- The bus with this device on it. -/
def bus : Bus := ⟨fun h => D.in8 (D.after s₀ h), fun h => D.in16 (D.after s₀ h)⟩

theorem after_concat (h : List Event) (e : Event) :
    D.after s₀ (h ++ [e]) = D.react (D.after s₀ h) e :=
  List.foldl_concat ..

/-- Run in a state with `P`, the program leaves a result and a state with `Q`. -/
def Triple (P : σ → Prop) (x : Io α) (Q : α → σ → Prop) : Prop :=
  ∀ h, P (D.after s₀ h) → Q (x h).1 (D.after s₀ (x h).2)

variable {D s₀} {P : σ → Prop} {x : Io α} {f : α → Io β} {Q : α → σ → Prop} {R : β → σ → Prop}

/-- Returning a value. -/
theorem Triple.pure {a : α} (h : ∀ s, P s → Q a s) : D.Triple s₀ P (Pure.pure a) Q :=
  fun _ hP => h _ hP

/-- Two programs in sequence: what the first one leaves is what the second one needs. -/
theorem Triple.bind (hx : D.Triple s₀ P x Q) (hf : ∀ a, D.Triple s₀ (Q a) (f a) R) :
    D.Triple s₀ P (x >>= f) R := fun h hP => hf _ _ (hx h hP)

/-- A triple with a stronger precondition and a weaker postcondition. -/
theorem Triple.imp {P' : σ → Prop} {Q' : α → σ → Prop} (hx : D.Triple s₀ P x Q)
    (hP : ∀ s, P' s → P s) (hQ : ∀ a s, Q a s → Q' a s) : D.Triple s₀ P' x Q' :=
  fun h h' => hQ _ _ (hx h (hP _ h'))

/-- A condition on the result may be used afterwards. -/
theorem Triple.of_forall {p : Prop} (h : p → D.Triple s₀ P x Q) :
    D.Triple s₀ (fun s => p ∧ P s) x Q :=
  fun hist hP => h hP.1 hist hP.2

/-- Reading a byte: the device sees it and answers from its state. -/
theorem triple_inb {Q : BitVec 8 → σ → Prop}
    (h : ∀ s, P s → Q (D.in8 s port) (D.react s (.in8 port (D.in8 s port)))) :
    D.Triple s₀ P (inb (D.bus s₀) port) Q := by
  intro hist hP
  change Q (D.in8 (D.after s₀ hist) port)
    (D.after s₀ (hist ++ [.in8 port (D.in8 (D.after s₀ hist) port)]))
  rw [after_concat]
  exact h _ hP

/-- Writing a word: the device sees it. -/
theorem triple_outw {value : BitVec 16} {Q : Unit → σ → Prop}
    (h : ∀ s, P s → Q () (D.react s (.out16 port value))) : D.Triple s₀ P (outw port value) Q := by
  intro hist hP
  change Q () (D.after s₀ (hist ++ [.out16 port value]))
  rw [after_concat]
  exact h _ hP

/-- Reading a word: the device sees it and answers from its state. -/
theorem triple_inw {Q : BitVec 16 → σ → Prop}
    (h : ∀ s, P s → Q (D.in16 s port) (D.react s (.in16 port (D.in16 s port)))) :
    D.Triple s₀ P (inw (D.bus s₀) port) Q := by
  intro hist hP
  change Q (D.in16 (D.after s₀ hist) port)
    (D.after s₀ (hist ++ [.in16 port (D.in16 (D.after s₀ hist) port)]))
  rw [after_concat]
  exact h _ hP

/-- **Waiting.**  If the test fails `k` times and then passes, polling more than `k` times ends
well. -/
theorem triple_poll {test : BitVec 8 → Bool} {P : ℕ → σ → Prop} {Q : BitVec 8 → σ → Prop}
    (hwait : ∀ k s, P (k + 1) s → test (D.in8 s port) = false ∧
      P k (D.react s (.in8 port (D.in8 s port)))) (hdone : ∀ s, P 0 s → test (D.in8 s port) = true ∧
      Q (D.in8 s port) (D.react s (.in8 port (D.in8 s port))))
    {k n : ℕ} (hk : k < n) (last : BitVec 8) :
    D.Triple s₀ (P k) (poll (D.bus s₀) port test n last) fun r s => r.2 = true ∧ Q r.1 s := by
  induction n generalizing k last with
  | zero => exact absurd hk (Nat.not_lt_zero k)
  | succ n ih =>
    cases k with
    | zero =>
      refine (triple_inb (Q := fun v s => test v = true ∧ Q v s) hdone).bind fun v => ?_
      refine Triple.of_forall fun hv => ?_
      rw [if_pos hv]
      exact Triple.pure fun s hs => ⟨rfl, hs⟩
    | succ k =>
      refine (triple_inb (Q := fun v s => test v = false ∧ P k s) (hwait k)).bind fun v => ?_
      refine Triple.of_forall fun hv => ?_
      rw [if_neg (by rw [hv]; decide)]
      exact ih (Nat.lt_of_succ_lt_succ hk) v

/-- **Words in.**  A device that has `words` to send hands them over one after the other. -/
theorem triple_inwMany {P : List (BitVec 16) → σ → Prop}
    (hstep : ∀ w ws s, P (w :: ws) s → D.in16 s port = w ∧ P ws (D.react s (.in16 port w)))
    (words : List (BitVec 16)) :
    D.Triple s₀ (P words) (inwMany (D.bus s₀) port words.length) fun r s => r = words ∧ P [] s := by
  induction words with
  | nil => exact Triple.pure fun s hs => ⟨rfl, hs⟩
  | cons w ws ih =>
    have hread : D.Triple s₀ (P (w :: ws)) (inw (D.bus s₀) port) fun v s => v = w ∧ P ws s :=
      triple_inw fun s hs => by
        obtain ⟨hin, hnext⟩ := hstep w ws s hs
        rw [hin]
        exact ⟨rfl, hnext⟩
    refine hread.bind fun v => Triple.of_forall fun hv => ih.bind fun vs => Triple.of_forall
      fun hvs => ?_
    exact Triple.pure fun s hs => ⟨by rw [hv, hvs], hs⟩

/-- **Words out.**  What each word does to the device, all of them do in a row. -/
theorem triple_outwMany {P : List (BitVec 16) → σ → Prop} {words : List (BitVec 16)}
    (hstep : ∀ done w ws s, done ++ w :: ws = words → P done s →
      P (done ++ [w]) (D.react s (.out16 port w))) :
    D.Triple s₀ (P []) (outwMany port words) fun _ s => P words s := by
  -- induction on the words to come, for every split of `words`
  suffices h : ∀ ws done, done ++ ws = words →
      D.Triple s₀ (P done) (outwMany port ws) fun _ s => P words s from h words [] rfl
  intro ws
  induction ws with
  | nil =>
    intro done hall
    rw [List.append_nil] at hall
    exact Triple.pure fun s hs => hall ▸ hs
  | cons w ws ih =>
    intro done hall
    refine (triple_outw (Q := fun _ s => P (done ++ [w]) s) fun s hs =>
      hstep done w ws s hall hs).bind ?_
    exact fun _ => ih (done ++ [w]) (by rw [List.append_assoc]; exact hall)

end Device

end PortIo
