/-
# The first-boot setup

`kernel/setup.c`: a wizard in text mode.  It polls the keyboard 1200000 times at most, and Enter,
Esc or the last poll end it.  Whichever it is, the configuration in `current_config` is written
back, and every change has been made there at once.

The wizard is a machine that runs on scan codes (`sbSetupRun_eq`).  Its screen shows its
configuration all the time (`screen_shows`).  The last line but one of the screen says that Esc
keeps the defaults, but Esc does what Enter does: it keeps them exactly if the keys before it cancel
out (`esc_keeps_iff`), which is a matter of counting them: four turns to one side are one way round,
and a digit forgets the turns before it.
-/

import SuiraBox.Library.PortIo
import SuiraBox.Library.Loops
import SuiraBox.Mm.Pmm

namespace SuiraBox.Setup

open PortIo Mm Trace

/-- `sb_setup_config_t`. -/
@[ext]
structure SetupConfig where
  language : U8
  region : U8
  keyboard : U8
  performance : U8
  networkLater : U8
  deriving DecidableEq

/-! ### The screen -/

/-- The cells of the text screen, row by row. -/
abbrev Screen := ℕ → U16

def cell (vga : Screen) (x y : U32) (c color : U8) : Screen :=
  if x < 80 ∧ y < 25 then
    Function.update vga (y * 80 + x).toNat (color.setWidth 16 <<< 8 ||| c.setWidth 16)
  else vga

def clear (vga : Screen) (color : U8) : Screen :=
  (List.range 25).foldl (fun vga y =>
    (List.range 80).foldl
      (fun vga x => cell vga (BitVec.ofNat 32 x) (BitVec.ofNat 32 y) 32 color) vga) vga

/-- `text`, with the characters of the string. -/
def text (vga : Screen) (x y : U32) (color : U8) : List U8 → Screen
  | [] => vga
  | c :: s => if x < 80 then text (cell vga x y c color) (x + 1) y color s else vga

def box (vga : Screen) (x0 y0 x1 y1 : U32) (color : U8) : Screen :=
  let vga :=
    (indices x0 (x1 + 1)).foldl (fun vga x => cell (cell vga x y0 45 color) x y1 45 color) vga
  let vga :=
    (indices y0 (y1 + 1)).foldl (fun vga y => cell (cell vga x0 y 124 color) x1 y 124 color) vga
  cell (cell (cell (cell vga x0 y0 43 color) x1 y0 43 color) x0 y1 43 color) x1 y1 43 color

def ascii (s : String) : List U8 := s.toList.map fun c => BitVec.ofNat 8 c.toNat

def languageName (value : U8) : String :=
  if value = 0 then "Japanese"
  else if value = 2 then "Chinese"
  else if value = 3 then "Spanish"
  else "English"

def performanceName (value : U8) : String :=
  if value = 1 then "Performance"
  else if value = 2 then "Low Resource"
  else if value = 3 then "Custom"
  else "Balanced"

/-- Texts at their places, in bright white on blue. -/
def drawTexts (vga : Screen) (texts : List (U32 × U32 × String)) : Screen :=
  texts.foldl (fun vga t => text vga t.1 t.2.1 0x1F (ascii t.2.2)) vga

/-- What `render` writes before it draws the box. -/
def settingTexts (c : SetupConfig) (selected : U8) : List (U32 × U32 × String) :=
  [(3, 1, "SUIRABOX"), (3, 2, "First Setup"),
    (3, 4, "Choose the basics now. Advanced settings can be changed later."),
    (3, 6, if selected = 0 then "> Language" else "  Language"), (28, 6, languageName c.language),
    (3, 8, if selected = 1 then "> Region / Time Zone" else "  Region / Time Zone"),
    (28, 8, "Japan / JST"), (3, 10, if selected = 2 then "> Keyboard" else "  Keyboard"),
    (28, 10, "Japanese"), (3, 12, if selected = 3 then "> Network" else "  Network"),
    (28, 12, "Configure later"), (3, 14, if selected = 4 then "> Performance" else "  Performance"),
    (28, 14, performanceName c.performance)]

/-- What it writes after that. -/
def helpTexts : List (U32 × U32 × String) :=
  [(3, 18, "Up/Down: select   Left/Right: change   Enter: continue"),
    (3, 20, "Press 1-4 for language. Esc keeps the defaults."),
    (3, 22, "This early text-mode setup is intentionally tiny and fast.")]

/-- `render`. -/
def render (c : SetupConfig) (selected : U8) (vga : Screen) : Screen :=
  drawTexts (box (drawTexts (clear vga 0x17) (settingTexts c selected)) 25 5 55 15 0x1F) helpTexts

section Agreement

variable {n : ℕ} {a b : Screen}

/-- The first `n` cells of two screens are the same. -/
structure Agree (n : ℕ) (a b : Screen) : Prop where
  same : ∀ i < n, a i = b i

/-- A cell written to both buffers. -/
theorem agree_cell (h : Agree n a b) (x y : U32) (c color : U8) :
    Agree n (cell a x y c color) (cell b x y c color) := by
  refine ⟨fun i hi => ?_⟩
  rw [cell, cell]
  split_ifs
  · rw [Function.update_apply, Function.update_apply, h.same i hi]
  · exact h.same i hi

/-- A loop keeps the agreement if its rounds do. -/
theorem agree_foldl {ι : Type} {f : Screen → ι → Screen} (hf : ∀ {a b} i, Agree n a b →
    Agree n (f a i) (f b i)) (h : Agree n a b) (is : List ι) : Agree n (is.foldl f a)
    (is.foldl f b) := by
  induction is generalizing a b with
  | nil => exact h
  | cons i is ih => exact ih (hf i h)

/-- A text written to both. -/
theorem agree_text (h : Agree n a b) (x y : U32) (color : U8) (s : List U8) :
    Agree n (text a x y color s) (text b x y color s) := by
  induction s generalizing a b x with
  | nil => exact h
  | cons c s ih =>
    rw [text, text]
    split_ifs
    · exact ih (agree_cell h x y c color) _
    · exact h

/-- Several texts written to both. -/
theorem agree_drawTexts (h : Agree n a b) (texts : List (U32 × U32 × String)) :
    Agree n (drawTexts a texts) (drawTexts b texts) := by
  unfold drawTexts
  exact agree_foldl (fun t h => agree_text h t.1 t.2.1 0x1F (ascii t.2.2)) h texts

/-- A box drawn in both. -/
theorem agree_box (h : Agree n a b) (x0 y0 x1 y1 : U32) (color : U8) :
    Agree n (box a x0 y0 x1 y1 color) (box b x0 y0 x1 y1 color) := by
  have hrows := agree_foldl (fun x h => agree_cell (agree_cell h x y0 45 color) x y1 45 color) h
    (indices x0 (x1 + 1))
  have hcolumns :=
    agree_foldl (fun y h => agree_cell (agree_cell h x0 y 124 color) x1 y 124 color) hrows
    (indices y0 (y1 + 1))
  exact agree_cell (agree_cell (agree_cell (agree_cell hcolumns x0 y0 43 color) x1 y0 43 color) x0
    y1 43 color)
    x1 y1 43 color

/-- Writing the next cell makes one more cell the same. -/
theorem agree_cell_next {x y : ℕ} (h : Agree (80 * y + x) a b) (hx : x < 80) (hy : y < 25)
    (c color : U8) : Agree (80 * y + x + 1) (cell a (BitVec.ofNat 32 x) (BitVec.ofNat 32 y) c color)
      (cell b (BitVec.ofNat 32 x) (BitVec.ofNat 32 y) c color) := by
  have hin : BitVec.ofNat 32 x < 80 ∧ BitVec.ofNat 32 y < 25 := by
    constructor <;> rw [BitVec.lt_def, BitVec.toNat_ofNat] <;> exact (Nat.mod_le _ _).trans_lt ‹_›
  have hindex : (BitVec.ofNat 32 y * 80 + BitVec.ofNat 32 x).toNat = 80 * y + x := by
    rw [BitVec.toNat_add, BitVec.toNat_mul, BitVec.toNat_ofNat, BitVec.toNat_ofNat,
      show (80 : U32).toNat = 80 from rfl]
    omega
  refine ⟨fun i hi => ?_⟩
  rw [cell, cell, if_pos hin, if_pos hin, hindex, Function.update_apply, Function.update_apply]
  split_ifs with he
  · rfl
  · exact h.same i (by omega)

/-- One row of `clear`, up to column `k`. -/
theorem agree_clearRow (color : U8) {y k : ℕ} (hk : k ≤ 80) (hy : y < 25) (h : Agree (80 * y) a b) :
    Agree (80 * y + k)
      ((List.range k).foldl
        (fun vga x => cell vga (BitVec.ofNat 32 x) (BitVec.ofNat 32 y) 32 color) a)
      ((List.range k).foldl
        (fun vga x => cell vga (BitVec.ofNat 32 x) (BitVec.ofNat 32 y) 32 color) b) := by
  induction k with
  | zero => exact h
  | succ k ih =>
    rw [List.range_succ, List.foldl_concat, List.foldl_concat]
    exact agree_cell_next (ih (by omega)) (by omega) hy 32 color

/-- `clear` leaves nothing of what was on the screen. -/
theorem agree_clear (a b : Screen) (color : U8) : Agree 2000 (clear a color) (clear b color) := by
  have hrows : ∀ m ≤ 25, Agree (80 * m)
      ((List.range m).foldl (fun vga y => (List.range 80).foldl (fun vga x =>
        cell vga (BitVec.ofNat 32 x) (BitVec.ofNat 32 y) 32 color) vga) a)
      ((List.range m).foldl (fun vga y => (List.range 80).foldl (fun vga x =>
        cell vga (BitVec.ofNat 32 x) (BitVec.ofNat 32 y) 32 color) vga) b) := by
    intro m hm
    induction m with
    | zero => exact ⟨fun i hi => absurd hi (Nat.not_lt_zero i)⟩
    | succ m ih =>
      rw [show List.range (m + 1) = List.range m ++ [m] from List.range_succ, List.foldl_concat,
        List.foldl_concat]
      exact agree_clearRow color (Nat.le_refl 80) (by omega) (ih (by omega))
  exact hrows 25 (Nat.le_refl 25)

/-- The screen after `render` depends on the configuration and the selected line only. -/
theorem agree_render (c : SetupConfig) (selected : U8) (a b : Screen) :
    Agree 2000 (render c selected a) (render c selected b) :=
  agree_drawTexts (agree_box (agree_drawTexts (agree_clear a b 0x17) _) 25 5 55 15 0x1F) _

end Agreement

/-! ### Keys -/

/-- What the wizard makes of a scan code: of no key, of one that is released, and of the cases of
its `switch`. -/
inductive Key
  | none
  | release
  | up
  | down
  | left
  | right
  | enter
  | esc
  | language (value : U8)
  | other

def decodeKey (key : U8) : Key :=
  if key = 0 then .none
  else if key &&& 0x80 ≠ 0 then .release
  else if key = 0x48 then .up
  else if key = 0x50 then .down
  else if key = 0x4B then .left
  else if key = 0x4D then .right
  else if key = 0x1C then .enter
  else if key = 0x01 then .esc
  else if key = 0x02 then .language 0
  else if key = 0x03 then .language 1
  else if key = 0x04 then .language 2
  else if key = 0x05 then .language 3
  else .other

/-- The wizard returns. -/
def Key.ends : Key → Bool
  | .enter | .esc => true
  | _ => false

/-- The wizard polls again at once. -/
def Key.skips : Key → Bool
  | .none | .release => true
  | _ => false

/-- `read_key`. -/
def readKey (bus : Bus) : Io U8 := do
  let status ← inb bus 0x64
  if status &&& 1 = 0 then pure 0 else inb bus 0x60

/-- `delay_poll`. -/
def delayPoll : ℕ → Io Unit
  | 0 => pure ()
  | n + 1 => do
    outb 0x80 0
    delayPoll n

/-! ### The wizard -/

/-- One value of a setting to the left or to the right, around the end. -/
def shiftValue (value : U8) (direction : ℤ) : U8 :=
  let value := (value.toNat : ℤ) + direction
  let value := if value < 0 then 3 else value
  let value := if 3 < value then 0 else value
  BitVec.ofInt 8 value

/-- `change_value`. -/
def changeValue (c : SetupConfig) (selected : U8) (direction : ℤ) : SetupConfig :=
  if selected = 0 then { c with language := shiftValue c.language direction }
  else if selected = 4 then { c with performance := shiftValue c.performance direction }
  else c

/-- The variables of `sb_setup_run`, with `current_config` and the screen. -/
structure Wizard where
  selected : U8
  keysWithoutInput : U8
  current : SetupConfig
  vga : Screen

def Wizard.redraw (w : Wizard) : Wizard := { w with vga := render w.current w.selected w.vga }

/-- What one poll does. -/
def Wizard.act (w : Wizard) : Key → Wizard
  | .none => { w with keysWithoutInput :=
      if w.keysWithoutInput < 255 then w.keysWithoutInput + 1 else w.keysWithoutInput }
  | .release | .enter | .esc | .other => { w with keysWithoutInput := 0 }
  | .up => Wizard.redraw { w with
      keysWithoutInput := 0, selected := if 0 < w.selected then w.selected - 1 else w.selected }
  | .down => Wizard.redraw { w with
      keysWithoutInput := 0, selected := if w.selected < 4 then w.selected + 1 else w.selected }
  | .left =>
    Wizard.redraw { w with keysWithoutInput := 0, current := changeValue w.current w.selected (-1) }
  | .right =>
    Wizard.redraw { w with keysWithoutInput := 0, current := changeValue w.current w.selected 1 }
  | .language value => Wizard.redraw { w with
      keysWithoutInput := 0, current := { w.current with language := value } }

/-- The wizard as it starts. -/
def Wizard.start (current : SetupConfig) (vga : Screen) : Wizard :=
  Wizard.redraw ⟨0, 0, current, vga⟩

/-- The loop of `sb_setup_run`, with the number of polls that are left. -/
def setupLoop (bus : Bus) : ℕ → Wizard → Io Wizard
  | 0, w => pure w
  | n + 1, w => do
    let key ← readKey bus
    if (decodeKey key).ends then pure (w.act (decodeKey key))
    else if (decodeKey key).skips then setupLoop bus n (w.act (decodeKey key))
    else do
      delayPoll 64
      setupLoop bus n (w.act (decodeKey key))

/-- `current_config` and the screen. -/
structure SetupState where
  current : SetupConfig
  vga : Screen

/-- `sb_setup_run`: what is written back, if there is a place for it, and the globals in the end. -/
def sbSetupRun (bus : Bus) (config : Option SetupConfig) (g : SetupState) :
    Io (Option SetupConfig × SetupState) := do
  let current := config.getD g.current
  let w ← setupLoop bus 1200000 (Wizard.start current g.vga)
  pure (config.map fun _ => w.current, ⟨w.current, w.vga⟩)

/-! ### A run is a run on scan codes -/

/-- The scan codes that the wizard reads, up to the one that ends it. -/
def keysRead (bus : Bus) : ℕ → Io (List U8)
  | 0 => pure []
  | n + 1 => do
    let key ← readKey bus
    if (decodeKey key).ends then pure [key]
    else if (decodeKey key).skips then do
      let keys ← keysRead bus n
      pure (key :: keys)
    else do
      delayPoll 64
      let keys ← keysRead bus n
      pure (key :: keys)

def Wizard.run (w : Wizard) (keys : List U8) : Wizard :=
  keys.foldl (fun w key => w.act (decodeKey key)) w

/-- The loop is a run over the keys that it reads. -/
theorem setupLoop_eq (bus : Bus) (n : ℕ) (w : Wizard) (h : List Event) :
    setupLoop bus n w h = (w.run (keysRead bus n h).1, (keysRead bus n h).2) := by
  induction n generalizing w h with
  | zero => rfl
  | succ n ih =>
    simp only [setupLoop, keysRead, bind_apply, Io.ite_apply]
    split_ifs
    · rfl
    · rw [ih]
      rfl
    · rw [ih]
      rfl

/-- **What is written back** is the configuration after the scan codes that were read. -/
theorem sbSetupRun_eq (bus : Bus) (c : SetupConfig) (g : SetupState) (h : List Event) :
    (sbSetupRun bus (some c) g h).1.1 =
      some ((Wizard.start c g.vga).run (keysRead bus 1200000 h).1).current := by
  rw [sbSetupRun, bind_apply, setupLoop_eq]
  rfl

/-- The screen shows the configuration that would be written back, and the selected line. -/
def Wizard.Shows (w : Wizard) : Prop := ∀ vga, Agree 2000 w.vga (render w.current w.selected vga)

/-- A redraw shows the page, whatever was on the screen. -/
theorem shows_redraw (w : Wizard) : w.redraw.Shows := fun vga => by
  change Agree 2000 (render w.current w.selected w.vga) (render w.current w.selected vga)
  exact agree_render ..

/-- Every key leaves the screen with the page of the state. -/
theorem Wizard.Shows.act {w : Wizard} (h : w.Shows) (key : Key) : (w.act key).Shows := by
  cases key with
  | none => exact h
  | release => exact h
  | enter => exact h
  | esc => exact h
  | other => exact h
  | up => exact shows_redraw _
  | down => exact shows_redraw _
  | left => exact shows_redraw _
  | right => exact shows_redraw _
  | language value => exact shows_redraw _

/-- So do many keys. -/
theorem Wizard.Shows.run {w : Wizard} (h : w.Shows) (keys : List U8) : (w.run keys).Shows := by
  induction keys generalizing w with
  | nil => exact h
  | cons key keys ih => exact ih (h.act (decodeKey key))

/-- **The screen shows what is kept:** in the end, and so after every poll, whatever was on it
before. -/
theorem screen_shows (bus : Bus) (n : ℕ) (c : SetupConfig) (vga : Screen) (h : List Event) :
    (setupLoop bus n (Wizard.start c vga) h).1.Shows := by
  rw [setupLoop_eq]
  exact (shows_redraw _).run _

/-! ### What the keys add up to -/

/-- What a key does to one of the settings: a digit puts a value, Left and Right turn to the value
beside it. -/
inductive Edit
  | put (value : U8)
  | turn (direction : ℤ)
  deriving DecidableEq

/-- The value of a setting after an edit. -/
def Edit.apply (value : U8) : Edit → U8
  | .put value => value
  | .turn direction => shiftValue value direction

/-- What Left or Right does to the setting in line `line`. -/
def turnOf (line selected : U8) (direction : ℤ) : List Edit :=
  if selected = line then [.turn direction] else []

/-- What a key does to the language, which is in line 0. -/
def languageEdits (selected : U8) : Key → List Edit
  | .left => turnOf 0 selected (-1)
  | .right => turnOf 0 selected 1
  | .language value => [.put value]
  | _ => []

/-- What a key does to the performance, which is in line 4. -/
def performanceEdits (selected : U8) : Key → List Edit
  | .left => turnOf 4 selected (-1)
  | .right => turnOf 4 selected 1
  | _ => []

/-- The line that is selected after a key. -/
def nextSelected (selected : U8) : Key → U8
  | .up => if 0 < selected then selected - 1 else selected
  | .down => if selected < 4 then selected + 1 else selected
  | _ => selected

/-- The edits of one setting in a list of scan codes, from a selected line on. -/
def edits (editsOf : U8 → Key → List Edit) : U8 → List U8 → List Edit
  | _, [] => []
  | selected, key :: keys =>
    editsOf selected (decodeKey key) ++ edits editsOf (nextSelected selected (decodeKey key)) keys

/-- Up and Down move the selected line, and no other key does. -/
theorem act_selected (w : Wizard) (key : Key) :
    (w.act key).selected = nextSelected w.selected key := by
  cases key <;> rfl

/-- `change_value` turns the setting in the selected line, if there is one. -/
theorem changeValue_eq (c : SetupConfig) (selected : U8) (direction : ℤ) :
    changeValue c selected direction = { c with
      language := (turnOf 0 selected direction).foldl Edit.apply c.language
      performance := (turnOf 4 selected direction).foldl Edit.apply c.performance } := by
  rw [changeValue, turnOf, turnOf]
  split_ifs with h0 h4 h4
  · exact absurd (h0.symm.trans h4) (by decide)
  · rfl
  · rfl
  · rfl

/-- One poll edits the two settings, and leaves the rest of the configuration. -/
theorem act_current (w : Wizard) (key : Key) :
    (w.act key).current = { w.current with
      language := (languageEdits w.selected key).foldl Edit.apply w.current.language
      performance :=
  (performanceEdits w.selected key).foldl Edit.apply w.current.performance } := by
  cases key with
  | left => exact changeValue_eq ..
  | right => exact changeValue_eq ..
  | _ => rfl

/-- The configuration after a run has all edits of the two settings, and nothing else. -/
theorem run_current (w : Wizard) (keys : List U8) :
    (w.run keys).current = { w.current with
      language := (edits languageEdits w.selected keys).foldl Edit.apply w.current.language
      performance :=
        (edits performanceEdits w.selected keys).foldl Edit.apply w.current.performance } := by
  induction keys generalizing w with
  | nil => rfl
  | cons key keys ih =>
    have hrun : w.run (key :: keys) = (w.act (decodeKey key)).run keys := rfl
    rw [hrun, ih, act_current, act_selected, edits, edits, List.foldl_append, List.foldl_append]

/-- Keys that edit nothing at the end of the list change nothing. -/
theorem edits_concat {editsOf : U8 → Key → List Edit} {key : U8}
    (hkey : ∀ selected, editsOf selected (decodeKey key) = []) (selected : U8) (keys : List U8) :
    edits editsOf selected (keys ++ [key]) = edits editsOf selected keys := by
  induction keys generalizing selected with
  | nil =>
    rw [List.nil_append, edits, edits, hkey]
    rfl
  | cons key' keys ih => rw [List.cons_append, edits, ih, edits]

/-! ### Which edits cancel out -/

/-- An edit that a key can make: the digits put values up to 3, and a turn is by one. -/
def Edit.FromKey : Edit → Prop
  | .put value => value.toNat ≤ 3
  | .turn direction => direction = 1 ∨ direction = -1

/-- The turns to the right less those to the left. -/
def netTurns (es : List Edit) : ℤ := (es.count (.turn 1) : ℤ) - es.count (.turn (-1))

/-- The edits bring a setting back to `value`: there are none; or `value` is one of the four
values, and the turns since the last digit lead from there to `value`, four turns being one way
round (with no digit, from `value` itself). -/
def CancelsOut (value : U8) (es : List Edit) : Prop :=
  es = [] ∨ value.toNat ≤ 3 ∧
    ((∀ v, .put v ∉ es) ∧ 4 ∣ netTurns es ∨
      ∃ front v back, es = front ++ .put v :: back ∧ (∀ v', .put v' ∉ back) ∧
        4 ∣ (v.toNat : ℤ) + netTurns back - value.toNat)

/-- Every edit of a list of scan codes is one that a key can make, if that holds for each key. -/
theorem fromKey_edits {editsOf : U8 → Key → List Edit}
    (h : ∀ selected key, ∀ e ∈ editsOf selected (decodeKey key), e.FromKey) (selected : U8)
    (keys : List U8) : ∀ e ∈ edits editsOf selected keys, e.FromKey := by
  induction keys generalizing selected with
  | nil => exact fun e he => absurd he List.not_mem_nil
  | cons key keys ih =>
    intro e he
    rcases List.mem_append.1 he with hfirst | hrest
    · exact h selected key e hfirst
    · exact ih _ e hrest

/-- Left and Right turn by one. -/
theorem fromKey_turnOf {line selected : U8} {direction : ℤ} (h : direction = 1 ∨ direction = -1) :
    ∀ e ∈ turnOf line selected direction, e.FromKey := by
  intro e he
  rw [turnOf] at he
  split_ifs at he
  · rw [List.mem_singleton.1 he]
    exact h
  · exact absurd he List.not_mem_nil

/-- A digit key carries one of the four values. -/
def Key.Digit : Key → Prop
  | .language value => value.toNat ≤ 3
  | _ => True

/-- Both branches do. -/
theorem Key.Digit.ite {p : Prop} [Decidable p] {a b : Key} (ha : a.Digit) (hb : b.Digit) :
    (if p then a else b).Digit := by
  split
  · exact ha
  · exact hb

/-- The digits 1 to 4 put the values 0 to 3. -/
theorem decodeKey_digit (key : U8) : (decodeKey key).Digit := by
  unfold decodeKey
  repeat' apply Key.Digit.ite
  all_goals first | exact trivial | exact Nat.le_of_ble_eq_true rfl

/-- The edits of the language are made by keys. -/
theorem fromKey_languageEdits (selected key : U8) :
    ∀ e ∈ languageEdits selected (decodeKey key), e.FromKey := by
  have hdigit := decodeKey_digit key
  cases hkey : decodeKey key with
  | left => exact fromKey_turnOf (Or.inr rfl)
  | right => exact fromKey_turnOf (Or.inl rfl)
  | language value =>
    intro e he
    rw [List.mem_singleton.1 he]
    rw [hkey] at hdigit
    exact hdigit
  | _ => exact fun e he => absurd he List.not_mem_nil

/-- The edits of the performance are made by keys. -/
theorem fromKey_performanceEdits (selected key : U8) :
    ∀ e ∈ performanceEdits selected (decodeKey key), e.FromKey := by
  cases decodeKey key with
  | left => exact fromKey_turnOf (Or.inr rfl)
  | right => exact fromKey_turnOf (Or.inl rfl)
  | _ => exact fun e he => absurd he List.not_mem_nil

/-- A turn always ends on one of the four values. -/
theorem shiftValue_le (value : U8) (direction : ℤ) : (shiftValue value direction).toNat ≤ 3 := by
  unfold shiftValue
  dsimp only
  rw [BitVec.toNat_ofInt]
  split_ifs <;> omega

/-- On the four values a turn by one is a step on the circle. -/
theorem toNat_shiftValue {value : U8} {direction : ℤ} (hvalue : value.toNat ≤ 3)
    (h : direction = 1 ∨ direction = -1) :
    ((shiftValue value direction).toNat : ℤ) = (value.toNat + direction) % 4 := by
  unfold shiftValue
  dsimp only
  rw [BitVec.toNat_ofInt]
  rcases h with rfl | rfl
  · split_ifs <;> omega
  · split_ifs <;> omega

/-- One more turn in front. -/
theorem netTurns_cons {direction : ℤ} (h : direction = 1 ∨ direction = -1) (es : List Edit) :
    netTurns (.turn direction :: es) = direction + netTurns es := by
  unfold netTurns
  rcases h with rfl | rfl
  · rw [List.count_cons_self, List.count_cons_of_ne (by decide)]
    omega
  · rw [List.count_cons_self, List.count_cons_of_ne (by decide)]
    omega

/-- Turns alone walk around the four values. -/
theorem foldl_turns {es : List Edit} (hkeys : ∀ e ∈ es, e.FromKey) (hput : ∀ v, .put v ∉ es)
    {value : U8} (hvalue : value.toNat ≤ 3) :
    ((es.foldl Edit.apply value).toNat : ℤ) = (value.toNat + netTurns es) % 4 := by
  induction es generalizing value with
  | nil =>
    rw [List.foldl_nil, netTurns, List.count_nil, List.count_nil]
    omega
  | cons e es ih =>
    cases e with
    | put v => exact absurd (List.mem_cons_self ..) (hput v)
    | turn direction =>
      have hturn : direction = 1 ∨ direction = -1 := hkeys _ (List.mem_cons_self ..)
      rw [List.foldl_cons, Edit.apply,
        ih (fun e he => hkeys e (List.mem_cons_of_mem _ he))
          (fun v hv => hput v (List.mem_cons_of_mem _ hv)) (shiftValue_le value direction),
        toNat_shiftValue hvalue hturn, netTurns_cons hturn]
      omega

/-- After any edit the setting has one of the four values. -/
theorem foldl_edits_le {es : List Edit} (hkeys : ∀ e ∈ es, e.FromKey) (hne : es ≠ [])
    (value : U8) : (es.foldl Edit.apply value).toNat ≤ 3 := by
  obtain ⟨es, e, rfl⟩ := (List.eq_nil_or_concat' es).resolve_left hne
  rw [List.foldl_concat]
  have hlast := hkeys e (List.mem_append_right _ (List.mem_singleton_self e))
  cases e with
  | put v => exact hlast
  | turn direction => exact shiftValue_le _ direction

/-- There is no digit among the edits, or there is a last one. -/
theorem no_put_or_last (es : List Edit) : (∀ v, .put v ∉ es) ∨
    ∃ front v back, es = front ++ .put v :: back ∧ ∀ v', .put v' ∉ back := by
  induction es with
  | nil => exact Or.inl fun v => List.not_mem_nil
  | cons e es ih =>
    rcases ih with hnone | ⟨front, v, back, rfl, hback⟩
    · cases e with
      | put v => exact Or.inr ⟨[], v, es, rfl, hnone⟩
      | turn direction =>
        refine Or.inl fun v hv => ?_
        rcases List.mem_cons.1 hv with heq | hv
        · exact absurd heq (by simp)
        · exact hnone v hv
    · exact Or.inr ⟨e :: front, v, back, rfl, hback⟩

/-- Behind the last digit only turns count. -/
theorem foldl_put {front back : List Edit} {v : U8}
    (hkeys : ∀ e ∈ front ++ Edit.put v :: back, e.FromKey) (hput : ∀ v', .put v' ∉ back)
    (value : U8) : (((front ++ Edit.put v :: back).foldl Edit.apply value).toNat : ℤ) =
      (v.toNat + netTurns back) % 4 := by
  rw [List.foldl_append, List.foldl_cons]
  refine foldl_turns (fun e he => hkeys e ?_) hput (hkeys (.put v) ?_)
  · exact List.mem_append_right _ (List.mem_cons_of_mem _ he)
  · exact List.mem_append_right _ (List.mem_cons_self ..)

/-- **When edits cancel out**, on the number of turns. -/
theorem foldl_edits_eq_iff {es : List Edit} (hkeys : ∀ e ∈ es, e.FromKey) (value : U8) :
    es.foldl Edit.apply value = value ↔ CancelsOut value es := by
  rcases eq_or_ne es [] with rfl | hne
  · exact iff_of_true rfl (Or.inl rfl)
  have hle := foldl_edits_le hkeys hne value
  rw [CancelsOut, or_iff_right hne, ← BitVec.toNat_inj]
  by_cases hvalue : value.toNat ≤ 3
  swap
  · exact iff_of_false (by omega) fun h => hvalue h.1
  rw [and_iff_right hvalue]
  constructor
  · intro heq
    rcases no_put_or_last es with hnone | ⟨front, v, back, rfl, hback⟩
    · have hturns := foldl_turns hkeys hnone hvalue
      exact Or.inl ⟨hnone, by omega⟩
    · have hturns := foldl_put hkeys hback value
      exact Or.inr ⟨front, v, back, rfl, hback, by omega⟩
  · rintro (⟨hnone, hnet⟩ | ⟨front, v, back, rfl, hback, hnet⟩)
    · have hturns := foldl_turns hkeys hnone hvalue
      omega
    · have hturns := foldl_put hkeys hback value
      omega

/-- **When Esc keeps the configuration:** if the keys before it bring the language and the
performance back to where they were. -/
theorem esc_keeps_iff (bus : Bus) (c : SetupConfig) (g : SetupState) (h : List Event)
    {before : List U8} (hesc : (keysRead bus 1200000 h).1 = before ++ [0x01]) :
    (sbSetupRun bus (some c) g h).1.1 = some c ↔
      CancelsOut c.language (edits languageEdits 0 before) ∧
      CancelsOut c.performance (edits performanceEdits 0 before) := by
  rw [sbSetupRun_eq, hesc, run_current, edits_concat (fun _ => rfl), edits_concat (fun _ => rfl),
    Option.some_inj, ← foldl_edits_eq_iff (fromKey_edits fromKey_languageEdits 0 before),
    ← foldl_edits_eq_iff (fromKey_edits fromKey_performanceEdits 0 before)]
  constructor
  · intro heq
    exact ⟨congrArg SetupConfig.language heq, congrArg SetupConfig.performance heq⟩
  · rintro ⟨hlanguage, hperformance⟩
    exact SetupConfig.ext hlanguage rfl rfl hperformance rfl

/-- A keyboard that sends these scan codes, and then nothing. -/
def keyboard (keys : List U8) : Bus where
  in8 h port := if port = 0x64 then 1 else keys.getD (h.countP fun e => match e with
    | .in8 port _ => port = 0x60
    | _ => false) 0
  in16 _ _ := 0

/-- The configuration of `current_config` at boot. -/
def bootConfig : SetupConfig := ⟨1, 0, 0, 0, 1⟩

/-- Key 3 makes the language Chinese and Left makes it English again, then Esc. -/
theorem undone_keeps :
    (sbSetupRun (keyboard [0x04, 0x4B, 0x01]) (some bootConfig) ⟨bootConfig, fun _ => 0⟩ []).1.1 =
      some bootConfig := by
  have hkeys : (keysRead (keyboard [0x04, 0x4B, 0x01]) 1200000 []).1 = [0x04, 0x4B] ++ [0x01] := by
    decide
  refine (esc_keeps_iff _ bootConfig _ [] hkeys).2 ⟨Or.inr ⟨by decide, Or.inr ?_⟩, Or.inl rfl⟩
  exact ⟨[], 2, [.turn (-1)], rfl, fun v hv => absurd (List.mem_singleton.1 hv) (by simp),
    by decide⟩

/-- Key 1 and then Esc: the language is Japanese, and not English as before. -/
theorem esc_keeps_change :
    (keysRead (keyboard [0x02, 0x01]) 1200000 []).1 = [0x02, 0x01] ∧
    (sbSetupRun (keyboard [0x02, 0x01]) (some bootConfig) ⟨bootConfig, fun _ => 0⟩ []).1.1 =
      some { bootConfig with language := 0 } ∧
    { bootConfig with language := 0 } ≠ bootConfig := by
  have hkeys : (keysRead (keyboard [0x02, 0x01]) 1200000 []).1 = [0x02, 0x01] := by decide
  refine ⟨hkeys, ?_, by decide⟩
  rw [sbSetupRun_eq, hkeys, run_current]
  rfl

end SuiraBox.Setup
