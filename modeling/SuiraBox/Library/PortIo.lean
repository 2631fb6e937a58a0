/-
# Port input and output

Programs that talk to devices through I/O ports.  What they have written and read so far is a list
of events, and the devices answer a read according to all of it (`Bus`): nothing more is assumed of
them.

What a device has been told is a view of the events.  A part of a program that does not change a
view keeps it (`Keeps`), and there is one rule for each way to put programs together.
-/

import Mathlib.Data.Nat.Notation
import Mathlib.Data.List.Basic

namespace PortIo

/-- One access to a port. -/
inductive Event
  | out8 (port : BitVec 16) (value : BitVec 8)
  | out16 (port : BitVec 16) (value : BitVec 16)
  | in8 (port : BitVec 16) (value : BitVec 8)
  | in16 (port : BitVec 16) (value : BitVec 16)

/-- The devices: what a read of a port returns after the events so far. -/
structure Bus where
  in8 : List Event → BitVec 16 → BitVec 8
  in16 : List Event → BitVec 16 → BitVec 16

/-- A program: from the events so far to its result and the events in the end. -/
def Io (α : Type) := List Event → α × List Event

variable {α β : Type}

instance : Monad Io where
  pure a h := (a, h)
  bind x f h := f (x h).1 (x h).2

variable {port : BitVec 16}

/-- Returning does not touch the ports. -/
@[simp] theorem pure_apply (a : α) (h : List Event) : (pure a : Io α) h = (a, h) := rfl

/-- The second part of a sequence starts from the history that the first has left. -/
@[simp] theorem bind_apply (x : Io α) (f : α → Io β) (h : List Event) :
    (x >>= f) h = f (x h).1 (x h).2 := rfl

/-- A branch, run from a history. -/
theorem Io.ite_apply (c : Prop) [Decidable c] (x y : Io α) (h : List Event) :
    (if c then x else y) h = if c then x h else y h := by split_ifs <;> rfl

def outb (port : BitVec 16) (value : BitVec 8) : Io Unit := fun h => ((), h ++ [.out8 port value])

def outw (port : BitVec 16) (value : BitVec 16) : Io Unit := fun h => ((), h ++ [.out16 port value])

def inb (bus : Bus) (port : BitVec 16) : Io (BitVec 8) := fun h =>
  (bus.in8 h port, h ++ [.in8 port (bus.in8 h port)])

def inw (bus : Bus) (port : BitVec 16) : Io (BitVec 16) := fun h =>
  (bus.in16 h port, h ++ [.in16 port (bus.in16 h port)])

/-- Read a port until the value passes a test, `n` times at most: the last value, and whether it has
passed. -/
def poll (bus : Bus) (port : BitVec 16) (test : BitVec 8 → Bool) :
    ℕ → BitVec 8 → Io (BitVec 8 × Bool)
  | 0, last => pure (last, false)
  | n + 1, _ => do
    let value ← inb bus port
    if test value then pure (value, true) else poll bus port test n value

/-- `n` words read from a port. -/
def inwMany (bus : Bus) (port : BitVec 16) : ℕ → Io (List (BitVec 16))
  | 0 => pure []
  | n + 1 => do
    let word ← inw bus port
    let words ← inwMany bus port n
    pure (word :: words)

/-- Words written to a port one after the other. -/
def outwMany (port : BitVec 16) : List (BitVec 16) → Io Unit
  | [] => pure ()
  | word :: words => do
    outw port word
    outwMany port words

/-! ### Views of the events -/

section View

variable {σ : Type} {view : List Event → σ} {x : Io α} {f : α → Io β} {bus : Bus}

/-- The program does not change the view. -/
def Keeps (view : List Event → σ) (x : Io α) : Prop := ∀ h, view (x h).2 = view h

/-- Returning keeps every view. -/
theorem keeps_pure (a : α) : Keeps view (pure a : Io α) := fun _ => rfl

/-- A sequence of parts that keep a view keeps it. -/
theorem Keeps.bind (hx : Keeps view x) (hf : ∀ a, Keeps view (f a)) :
    Keeps view (x >>= f) := fun h =>
  (hf _ _).trans (hx h)

/-- A branch whose sides keep a view keeps it. -/
theorem Keeps.ite {c : Prop} [Decidable c] {y : Io α} (hx : Keeps view x) (hy : Keeps view y) :
    Keeps view (if c then x else y) := by
  split_ifs
  · exact hx
  · exact hy

/-- Polling keeps what one read of the port keeps. -/
theorem keeps_poll (hread : Keeps view (inb bus port))
    (test : BitVec 8 → Bool) (n : ℕ) (last : BitVec 8) :
    Keeps view (poll bus port test n last) := by
  induction n generalizing last with
  | zero => exact keeps_pure _
  | succ n ih => exact hread.bind fun value => (keeps_pure _).ite (ih value)

/-- Reading many words keeps what reading one keeps. -/
theorem keeps_inwMany (hread : Keeps view (inw bus port)) (n : ℕ) :
    Keeps view (inwMany bus port n) := by
  induction n with
  | zero => exact keeps_pure _
  | succ n ih => exact hread.bind fun _ => ih.bind fun _ => keeps_pure _

/-- Writing many words keeps what writing each of them keeps. -/
theorem keeps_outwMany (hwrite : ∀ word, Keeps view (outw port word))
    (words : List (BitVec 16)) : Keeps view (outwMany port words) := by
  induction words with
  | nil => exact keeps_pure _
  | cons word words ih => exact (hwrite word).bind fun _ => ih

end View

/-- A value that passes the test at once. -/
theorem poll_succ_of_test {bus : Bus} {test : BitVec 8 → Bool} {value : BitVec 8}
    {h : List Event} (hread : bus.in8 h port = value) (htest : test value = true) (n : ℕ)
    (last : BitVec 8) : (poll bus port test (n + 1) last h).1 = (value, true) := by
  subst hread
  rw [poll, bind_apply, Io.ite_apply]
  exact congrArg Prod.fst (if_pos htest)

/-! ### Devices that send words in a row -/

/-- The number of words read so far. -/
def wordsRead (h : List Event) : ℕ := h.countP fun e => match e with
  | .in16 _ _ => true
  | _ => false

/-- A byte that is written is no word that is read. -/
theorem keeps_wordsRead_outb (port : BitVec 16) (value : BitVec 8) :
    Keeps wordsRead (outb port value) := fun _ => List.countP_append

/-- A byte that is read is no word. -/
theorem keeps_wordsRead_inb (bus : Bus) (port : BitVec 16) :
    Keeps wordsRead (inb bus port) := fun _ =>
  List.countP_append

/-- What is read from a device that sends `word 0`, `word 1` and so on. -/
theorem inwMany_eq {bus : Bus} {word : ℕ → BitVec 16}
    (hbus : ∀ h, bus.in16 h port = word (wordsRead h)) (n : ℕ) (h : List Event) :
    (inwMany bus port n h).1 = (List.range n).map fun i => word (wordsRead h + i) := by
  induction n generalizing h with
  | zero => rfl
  | succ n ih =>
    have hnext : wordsRead (inw bus port h).2 = wordsRead h + 1 := List.countP_append
    change bus.in16 h port :: (inwMany bus port n (inw bus port h).2).1 = _
    rw [hbus, ih, hnext, List.range_succ_eq_map, List.map_cons, List.map_map]
    exact congrArg _ (List.map_congr_left fun i _ => congrArg word (Nat.add_right_comm _ _ _))

end PortIo
