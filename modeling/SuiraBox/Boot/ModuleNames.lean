/-
# Modules by name

`multiboot_find_module` as a search in a list.  A well-formed information block is a list of tags,
with an end tag behind them (`TagsAt`), and the finder answers with the first module of this list
that has a range and the name as its command line (`multibootFindModule_eq`).

A command line is the name of a module and its arguments.  `module_name` looks for the end of the
name, but returns the whole line, so modules with arguments are not found by their names
(`found_by_name_iff`).
-/

import SuiraBox.Library.Strings
import SuiraBox.Boot.Modules

namespace SuiraBox.Boot

open ByteMem Mm Strings

/-- What the finder can see of a tag. -/
inductive Tag
  | module (start stop : U32) (cmdline : List U8)
  | other

/-- The range of a module that has one and whose command line passes a test. -/
def Tag.range? (test : List U8 → Bool) : Tag → Option (U64 × U64)
  | .module start stop cmdline =>
    if start < stop ∧ test cmdline then some (start.setWidth 64, stop.setWidth 64) else none
  | .other => none

/-- The part of a command line up to the first space. -/
def firstWord (cmdline : List U8) : List U8 := cmdline.takeWhile (· ≠ 32)

/-- From offset `off` on, the block at `base` of `total` bytes has these tags and then an end tag.
Every tag lies inside the block, and the command line of a module inside its tag. -/
inductive TagsAt (m : Mem) (base total : ℕ) : ℕ → List Tag → Prop
  | finish {off : ℕ} (hin : off + 8 ≤ total) (htype : tagType m (base + off) = 0) :
    TagsAt m base total off []
  | module {off : ℕ} {cmdline : List U8} {tags : List Tag} (htype : tagType m (base + off) = 3)
      (hstring : HasString m (base + off + 16) cmdline)
      (hsize : 16 + cmdline.length < (tagSize m (base + off)).toNat)
      (hin : off + (tagSize m (base + off)).toNat ≤ total)
      (hrest : TagsAt m base total (off + roundUp8 (tagSize m (base + off)).toNat) tags) :
      TagsAt m base total off (.module (modStart m (base + off))
        (modEnd m (base + off)) cmdline :: tags)
  | other {off : ℕ} {tags : List Tag} (hend : tagType m (base + off) ≠ 0)
      (htype : tagType m (base + off) ≠ 3) (hsize : 8 ≤ (tagSize m (base + off)).toNat)
      (hin : off + (tagSize m (base + off)).toNat ≤ total)
      (hrest : TagsAt m base total (off + roundUp8 (tagSize m (base + off)).toNat) tags) :
      TagsAt m base total off (.other :: tags)

/-- A well-formed information block. -/
structure InfoBlock (m : Mem) (info : U64) (tags : List Tag) : Prop where
  notNull : info ≠ 0
  fits : info.toNat + (read32 m info.toNat).toNat < 2 ^ 64
  tags : TagsAt m info.toNat (read32 m info.toNat).toNat 8 tags

/-- The string `s` at `name`. -/
structure NameAt (m : Mem) (name : U64) (s : List U8) : Prop where
  notNull : name ≠ 0
  fits : name.toNat + s.length < 2 ^ 64
  string : HasString m name.toNat s

variable {m : Mem} {info name : U64} {s t : List U8} {fuel : ℕ}

/-! ### Strings -/

theorem toNat_next {a : U64} {n : ℕ} (hfits : a.toNat + (n + 1) < 2 ^ 64) :
    (a + 1).toNat = a.toNat + 1 := by
  bv_omega

/-- `module_name` comes to the end of a command line. -/
theorem moduleName_eq {p : U64} (hs : HasString m p.toNat s) (hfits : p.toNat + s.length < 2 ^ 64)
    (hfuel : s.length < fuel) : moduleName m fuel p = some p := by
  have hloop : moduleNameLoop m fuel p = some () := by
    induction s generalizing p fuel with
    | nil =>
      obtain ⟨fuel, rfl⟩ := Nat.exists_eq_succ_of_ne_zero (Nat.ne_of_gt hfuel)
      exact if_neg fun h => h.1 hs
    | cons c s ih =>
      obtain ⟨fuel, rfl⟩ := Nat.exists_eq_succ_of_ne_zero (Nat.ne_of_gt (Nat.zero_lt_of_lt hfuel))
      have hnext := toNat_next hfits
      rw [List.length_cons] at hfits hfuel
      rw [moduleNameLoop]
      split_ifs
      · exact ih (by rw [hnext]; exact hs.2.2) (by omega) (by omega)
      · rfl
  rw [moduleName, hloop, Option.map_some]

/-- `str_equal` compares two strings. -/
theorem strEqualLoop_eq {a b : U64} (hs : HasString m a.toNat s) (ht : HasString m b.toNat t)
    (hsfits : a.toNat + s.length < 2 ^ 64) (htfits : b.toNat + t.length < 2 ^ 64)
    (hfuel : s.length < fuel) : strEqualLoop m fuel a b = some (decide (s = t)) := by
  induction s generalizing a b t fuel with
  | nil =>
    obtain ⟨fuel, rfl⟩ := Nat.exists_eq_succ_of_ne_zero (Nat.ne_of_gt hfuel)
    have hs : m a.toNat = 0 := hs
    rw [strEqualLoop]
    rw [if_neg fun h => h.1 hs, hs]
    cases t with
    | nil => rw [show m b.toNat = 0 from ht]; rfl
    | cons d t =>
      have hne : ((0 : U8) == d) = false := beq_false_of_ne (Ne.symm ht.1)
      rw [ht.2.1, hne]
      rfl
  | cons c s ih =>
    obtain ⟨fuel, rfl⟩ := Nat.exists_eq_succ_of_ne_zero (Nat.ne_of_gt (Nat.zero_lt_of_lt hfuel))
    rw [strEqualLoop, hs.2.1]
    cases t with
    | nil =>
      have ht : m b.toNat = 0 := ht
      rw [ht, if_neg fun h => h.2 rfl, beq_false_of_ne hs.1]
      rfl
    | cons d t =>
      have hnexta := toNat_next hsfits
      have hnextb := toNat_next htfits
      rw [List.length_cons] at hsfits htfits hfuel
      rw [ht.2.1, if_pos ⟨hs.1, ht.1⟩]
      split_ifs with hne
      · simp [hne]
      · rw [ih (by rw [hnexta]; exact hs.2.2) (by rw [hnextb]; exact ht.2.2) (by omega) (by omega)
          (by omega)]
        simp [not_not.1 hne]

/-! ### The walk -/

/-- A tag's first eight bytes are inside the block. -/
theorem TagsAt.inside {base total off : ℕ} {tags : List Tag} (h : TagsAt m base total off tags) :
    off + 8 ≤ total := by
  cases h with
  | finish hin _ => exact hin
  | module _ _ _ _ _ => omega
  | other _ _ _ _ _ => omega

/-- Only the bytes of the block count. -/
theorem TagsAt.congr {m' : Mem} {base total off : ℕ} {tags : List Tag}
    (h : TagsAt m base total off tags) (hsame : ∀ x, base ≤ x → x < base + total → m' x = m x) :
    TagsAt m' base total off tags := by
  have hread : ∀ {off n}, off + n + 4 ≤ total →
      read32 m' (base + off + n) = read32 m (base + off + n) :=
    fun hin => read32_congr fun x hlo hhi => hsame x (by omega) (by omega)
  have htype : ∀ {off}, off + 8 ≤ total →
      tagType m' (base + off) = tagType m (base + off) := fun hin =>
    read32_congr fun x hlo hhi => hsame x (by omega) (by omega)
  induction h with
  | finish hin hend => exact .finish hin ((htype hin).trans hend)
  | @module off cmdline tags hmodule hstring hsize hin hrest ih =>
    have hsizes : tagSize m' (base + off) = tagSize m (base + off) := hread (by omega)
    have hstart : modStart m' (base + off) = modStart m (base + off) := hread (by omega)
    have hstop : modEnd m' (base + off) = modEnd m (base + off) := hread (by omega)
    rw [← hsizes] at hsize hin ih
    rw [← hstart, ← hstop]
    exact .module ((htype (by omega)).trans hmodule)
      (hstring.congr fun x hlo hhi => hsame x (by omega) (by omega)) hsize hin ih
  | @other off tags hend hother hsize hin hrest ih =>
    have hsizes : tagSize m' (base + off) = tagSize m (base + off) := hread (by omega)
    have htypes : tagType m' (base + off) = tagType m (base + off) := htype (by omega)
    rw [← hsizes] at hsize hin ih
    rw [← htypes] at hend hother
    exact .other hend hother hsize hin ih

theorem InfoBlock.congr {m' : Mem} {tags : List Tag} (h : InfoBlock m info tags)
    (hsame : ∀ x, info.toNat ≤ x → x < info.toNat + (read32 m info.toNat).toNat → m' x = m x) :
    InfoBlock m' info tags ∧ read32 m' info.toNat = read32 m info.toNat := by
  have hin := h.tags.inside
  have htotal : read32 m' info.toNat = read32 m info.toNat :=
    read32_congr fun x hlo hhi => hsame x hlo (by omega)
  refine ⟨⟨h.notNull, ?_, ?_⟩, htotal⟩
  · rw [htotal]
    exact h.fits
  · rw [htotal]
    exact h.tags.congr hsame

section Walk

variable {total off : U32} {tags : List Tag}

/-- One round at a tag inside the block. -/
theorem findModuleLoop_step (hfits : info.toNat + total.toNat < 2 ^ 64)
    (htype : tagType m (info.toNat + off.toNat) ≠ 0)
    (hsize : 8 ≤ (tagSize m (info.toNat + off.toNat)).toNat)
    (hin : off.toNat + (tagSize m (info.toNat + off.toNat)).toNat ≤ total.toNat) {b : Bool}
    (hmatch : moduleMatches m fuel (info + off.setWidth 64) name = some b) :
    findModuleLoop m info total name (fuel + 1) off =
      if b then some (some ⟨(modStart m (info.toNat + off.toNat)).setWidth 64,
        (modEnd m (info.toNat + off.toNat)).setWidth 64, info + off.setWidth 64 + 16⟩)
      else findModuleLoop m info total name fuel
        (off + ((tagSize m (info.toNat + off.toNat) + 7) &&& ~~~7)) := by
  have hgo : ¬ total.setWidth 64 < off.setWidth 64 + (8 : U64) := by
    rw [loop_ends_iff]
    omega
  have hok : ¬ (tagSize m (info.toNat + off.toNat) < 8 ∨
      total < off + tagSize m (info.toNat + off.toNat)) := by bv_omega
  rw [findModuleLoop, if_neg hgo]
  dsimp only
  rw [hmatch, toNat_tag (by omega), if_neg htype, if_neg hok]
  cases b with
  | true => rfl
  | false => rfl

/-- The next tag is where the padded size says, without wrap-around. -/
theorem TagsAt.toNat_next (hrest : TagsAt m info.toNat total.toNat
      (off.toNat + roundUp8 (tagSize m (info.toNat + off.toNat)).toNat) tags) :
    (off + ((tagSize m (info.toNat + off.toNat) + 7) &&& ~~~7)).toNat =
      off.toNat + roundUp8 (tagSize m (info.toNat + off.toNat)).toNat := by
  have hin := hrest.inside
  have hlt := total.isLt
  have hsize : (tagSize m (info.toNat + off.toNat)).toNat ≤
      roundUp8 (tagSize m (info.toNat + off.toNat)).toNat := by
    rw [roundUp8]
    omega
  rw [BitVec.toNat_add, toNat_roundUp8 _ (by omega), Nat.mod_eq_of_lt (by omega)]

/-- Whether the finder takes a module. -/
theorem moduleMatches_module (hfits : info.toNat + total.toNat < 2 ^ 64) (hname : NameAt m name s)
    (htype : tagType m (info.toNat + off.toNat) = 3)
    (hstring : HasString m (info.toNat + off.toNat + 16) t)
    (hsize : 16 + t.length < (tagSize m (info.toNat + off.toNat)).toNat)
    (hin : off.toNat + (tagSize m (info.toNat + off.toNat)).toNat ≤ total.toNat)
    (hfuel : total.toNat ≤ fuel) : moduleMatches m fuel (info + off.setWidth 64) name =
      some (decide (modStart m (info.toNat + off.toNat) < modEnd m (info.toNat + off.toNat) ∧
        t = s)) := by
  have htag := toNat_tag (by omega : info.toNat + off.toNat < 2 ^ 64)
  have hcmd : (info + off.setWidth 64 + 16).toNat = info.toNat + off.toNat + 16 := by
    rw [BitVec.toNat_add, htag, show (16 : U64).toNat = 16 from rfl]
    omega
  have hne : ¬ (info + off.setWidth 64 + 16 = 0 ∨ name = 0) := by
    refine not_or.2 ⟨fun hzero => ?_, hname.notNull⟩
    rw [hzero] at hcmd
    exact absurd hcmd (by simp)
  rw [← hcmd] at hstring
  rw [moduleMatches, htag]
  by_cases hr : modStart m (info.toNat + off.toNat) < modEnd m (info.toNat + off.toNat)
  · have hmodule : 16 ≤ tagSize m (info.toNat + off.toNat) := by bv_omega
    rw [if_pos ⟨htype, hmodule, hr⟩, moduleName_eq hstring (by omega) (by omega),
      Option.bind_some, strEqual, if_neg hne,
      strEqualLoop_eq hstring hname.string (by omega) hname.fits (by omega)]
    simp only [hr, true_and]
  · rw [if_neg fun h => hr h.2.2]
    simp only [hr, false_and, decide_false]

/-- **The loop is a search in the list of tags.** -/
theorem findModuleLoop_eq (hfits : info.toNat + total.toNat < 2 ^ 64) (hname : NameAt m name s)
    (htags : TagsAt m info.toNat total.toNat off.toNat tags)
    (hfuel : total.toNat + tags.length < fuel) :
    (findModuleLoop m info total name fuel off).map (Option.map fun found =>
      (found.start, found.stop)) = some (tags.findSome? (Tag.range? (· = s))) := by
  induction tags generalizing off fuel with
  | nil =>
    obtain ⟨fuel, rfl⟩ := Nat.exists_eq_succ_of_ne_zero (Nat.ne_of_gt (Nat.zero_lt_of_lt hfuel))
    cases htags with
    | finish hin htype =>
      have hgo : ¬ total.setWidth 64 < off.setWidth 64 + (8 : U64) := by
        rw [loop_ends_iff]
        omega
      rw [findModuleLoop, if_neg hgo]
      dsimp only
      rw [toNat_tag (by omega), if_pos htype]
      rfl
  | cons tag tags ih =>
    obtain ⟨fuel, rfl⟩ := Nat.exists_eq_succ_of_ne_zero (Nat.ne_of_gt (Nat.zero_lt_of_lt hfuel))
    rw [List.length_cons] at hfuel
    cases htags with
    | @module _ cmdline _ htype hstring hsize hin hrest =>
      have hmatch := moduleMatches_module hfits hname htype hstring hsize hin (by omega : _ ≤ fuel)
      rw [findModuleLoop_step hfits (by rw [htype]; decide) (by omega) hin hmatch,
        List.findSome?_cons, Tag.range?]
      rcases Decidable.em (modStart m (info.toNat + off.toNat) < modEnd m (info.toNat + off.toNat) ∧
        cmdline = s) with hfound | hnot
      · simp [hfound]
      · have hrest' := hrest.toNat_next ▸ hrest
        simpa [hnot] using ih hrest' (by omega)
    | other hend htype hsize hin hrest =>
      have hmatch : moduleMatches m fuel (info + off.setWidth 64) name = some false := by
        rw [moduleMatches, toNat_tag (by omega), if_neg fun h => htype h.1]
      rw [findModuleLoop_step hfits hend hsize hin hmatch, List.findSome?_cons, Tag.range?]
      exact ih (hrest.toNat_next ▸ hrest) (by omega)

end Walk

/-- **What the finder finds.**  With enough fuel it returns the range of the first module whose
command line is the name. -/
theorem multibootFindModule_eq {tags : List Tag} (hblock : InfoBlock m info tags)
    (hname : NameAt m name s) (hfuel : (read32 m info.toNat).toNat + tags.length < fuel) :
    (multibootFindModule m fuel info name).map (Option.map fun found => (found.start, found.stop)) =
      some (tags.findSome? (Tag.range? (· = s))) := by
  have hin := hblock.tags.inside
  have hlarge : ¬ read32 m info.toNat < 16 := by bv_omega
  rw [multibootFindModule, if_neg (not_or.2 ⟨hblock.notNull, hname.notNull⟩)]
  dsimp only
  rw [if_neg hlarge]
  exact findModuleLoop_eq hblock.fits hname hblock.tags hfuel

/-- The finder comes to an end, and returns the range of the first module whose name is `s`. -/
def FoundByName (m : Mem) (info name : U64) (tags : List Tag) (s : List U8) : Prop :=
  ∃ enough, ∀ fuel ≥ enough,
    (multibootFindModule m fuel info name).map (Option.map fun found => (found.start, found.stop)) =
      some (tags.findSome? (Tag.range? (firstWord · = s)))

/-! ### Names and command lines -/

/-- A module with a range and the first word `s`. -/
def Tag.Named (s : List U8) : Tag → Prop
  | .module start stop cmdline => start < stop ∧ firstWord cmdline = s
  | .other => False

/-- A module with a range and no arguments: its command line is `s`. -/
def Tag.Bare (s : List U8) : Tag → Prop
  | .module start stop cmdline => start < stop ∧ cmdline = s
  | .other => False

/-- The arguments of the modules do not get in the way of the name `s`: no module has this first
word; or the first one that has it has no arguments, or the first one without arguments behind it
has the same range. -/
def ArgumentsHarmless (tags : List Tag) (s : List U8) : Prop :=
  (∀ tag ∈ tags, ¬ tag.Named s) ∨
  ∃ front start stop cmdline rest, tags = front ++ .module start stop cmdline :: rest ∧
    (∀ tag ∈ front, ¬ tag.Named s) ∧ (Tag.module start stop cmdline).Named s ∧
    (cmdline = s ∨ ∃ between rest', rest = between ++ .module start stop s :: rest' ∧
      ∀ tag ∈ between, ¬ tag.Bare s)

/-- A range is found in a module that has it, and passes the test. -/
theorem Tag.range?_eq_some {test : List U8 → Bool} {tag : Tag} {r : U64 × U64} :
    tag.range? test = some r ↔ ∃ start stop cmdline, tag = .module start stop cmdline ∧
      (start < stop ∧ test cmdline) ∧ r = (start.setWidth 64, stop.setWidth 64) := by
  cases tag with
  | other => exact iff_of_false (by simp [Tag.range?]) (by simp)
  | module start stop cmdline =>
    rw [Tag.range?]
    constructor
    · intro h
      split_ifs at h with hpass
      exact ⟨start, stop, cmdline, rfl, hpass, (Option.some.inj h).symm⟩
    · rintro ⟨start', stop', cmdline', heq, hpass, rfl⟩
      obtain ⟨rfl, rfl, rfl⟩ := Tag.module.inj heq
      rw [if_pos hpass]

/-- The search by first word passes over the modules with another one. -/
theorem Tag.range?_firstWord {tag : Tag} :
    tag.range? (firstWord · = s) = none ↔ ¬ tag.Named s := by
  cases tag with
  | other => exact iff_of_true rfl id
  | module start stop cmdline =>
    simp only [Tag.range?, Tag.Named, decide_eq_true_eq, ite_eq_right_iff,
      reduceCtorEq, imp_false]

/-- The search by command line passes over the modules with another one. -/
theorem Tag.range?_cmdline {tag : Tag} : tag.range? (· = s) = none ↔ ¬ tag.Bare s := by
  cases tag with
  | other => exact iff_of_true rfl id
  | module start stop cmdline =>
    simp only [Tag.range?, Tag.Bare, decide_eq_true_eq, ite_eq_right_iff,
      reduceCtorEq, imp_false]

/-- A name without spaces is its own first word. -/
theorem firstWord_self (hspace : 32 ∉ s) : firstWord s = s := by
  induction s with
  | nil => rfl
  | cons c s ih =>
    obtain ⟨hc, hs⟩ := not_or.1 (mt List.mem_cons.2 hspace)
    have hhead : decide (c ≠ 32) = true := decide_eq_true (Ne.symm hc)
    rw [firstWord, List.takeWhile_cons, hhead]
    exact congrArg (c :: ·) (ih hs)

/-- A module whose command line is the name has the name as its first word. -/
theorem Tag.Bare.named {tag : Tag} (hspace : 32 ∉ s) (h : tag.Bare s) : tag.Named s := by
  cases tag with
  | other => exact h
  | module start stop cmdline => exact ⟨h.1, by rw [h.2, firstWord_self hspace]⟩

/-- In front of the first module of the name there is none with the name as its command line. -/
theorem findSome?_cmdline_append {front rest : List Tag} (hspace : 32 ∉ s)
    (hfront : ∀ tag ∈ front, ¬ tag.Named s) :
    (front ++ rest).findSome? (Tag.range? (· = s)) = rest.findSome? (Tag.range? (· = s)) := by
  rw [List.findSome?_append, List.findSome?_eq_none_iff.2 fun tag htag =>
    Tag.range?_cmdline.2 fun hbare => hfront tag htag (hbare.named hspace), Option.none_or]

/-- A module with arguments is passed over. -/
theorem findSome?_cmdline_cons {start stop : U32} {cmdline : List U8} {rest : List Tag}
    (hne : cmdline ≠ s) : (Tag.module start stop cmdline :: rest).findSome? (Tag.range? (· = s)) =
      rest.findSome? (Tag.range? (· = s)) := by
  have hnot : ¬ (Tag.module start stop cmdline).Bare s := fun hbare => hne hbare.2
  rw [List.findSome?_cons, Tag.range?_cmdline.2 hnot]

/-- **The two searches agree** exactly when the arguments are harmless. -/
theorem findSome?_eq_iff {tags : List Tag} (hspace : 32 ∉ s) :
    tags.findSome? (Tag.range? (firstWord · = s)) = tags.findSome? (Tag.range? (· = s)) ↔
      ArgumentsHarmless tags s := by
  constructor
  · intro heq
    cases hfirst : tags.findSome? (Tag.range? (firstWord · = s)) with
    | none =>
      exact Or.inl fun tag htag =>
        Tag.range?_firstWord.1 (List.findSome?_eq_none_iff.1 hfirst tag htag)
    | some r =>
      obtain ⟨front, tag, rest, rfl, htag, hfront⟩ := List.findSome?_eq_some_iff.1 hfirst
      obtain ⟨start, stop, cmdline, rfl, ⟨hrange, hword⟩, rfl⟩ := Tag.range?_eq_some.1 htag
      have hfront := fun tag htag => Tag.range?_firstWord.1 (hfront tag htag)
      refine Or.inr ⟨front, start, stop, cmdline, rest, rfl, hfront,
        ⟨hrange, of_decide_eq_true hword⟩, Classical.or_iff_not_imp_left.2 fun hne => ?_⟩
      rw [hfirst, findSome?_cmdline_append hspace hfront, findSome?_cmdline_cons hne] at heq
      obtain ⟨between, tag', rest', rfl, htag', hbetween⟩ := List.findSome?_eq_some_iff.1 heq.symm
      obtain ⟨start', stop', cmdline', rfl, ⟨-, hcmd⟩, hsame⟩ := Tag.range?_eq_some.1 htag'
      obtain ⟨hstart, hstop⟩ := Prod.mk.inj hsame
      obtain rfl : start = start' := by bv_omega
      obtain rfl : stop = stop' := by bv_omega
      exact ⟨between, rest', by rw [of_decide_eq_true hcmd], fun tag htag =>
        Tag.range?_cmdline.1 (hbetween tag htag)⟩
  · rintro (hnone | ⟨front, start, stop, cmdline, rest, rfl, hfront, ⟨hrange, hword⟩, hcases⟩)
    · rw [List.findSome?_eq_none_iff.2 fun tag htag => Tag.range?_firstWord.2 (hnone tag htag),
        List.findSome?_eq_none_iff.2 fun tag htag =>
          Tag.range?_cmdline.2 fun hbare => hnone tag htag (hbare.named hspace)]
    · have hleft : (front ++ Tag.module start stop cmdline :: rest).findSome?
          (Tag.range? (firstWord · = s)) = some (start.setWidth 64, stop.setWidth 64) :=
        List.findSome?_eq_some_iff.2 ⟨front, _, rest, rfl,
          Tag.range?_eq_some.2 ⟨start, stop, cmdline, rfl, ⟨hrange, decide_eq_true hword⟩, rfl⟩,
          fun tag htag => Tag.range?_firstWord.2 (hfront tag htag)⟩
      have hfound : (Tag.module start stop s).range? (· = s) =
          some (start.setWidth 64, stop.setWidth 64) :=
        Tag.range?_eq_some.2 ⟨start, stop, s, rfl, ⟨hrange, decide_eq_true rfl⟩, rfl⟩
      rw [hleft, findSome?_cmdline_append hspace hfront]
      rcases eq_or_ne cmdline s with rfl | hne
      · rw [List.findSome?_cons, hfound]
      · obtain ⟨between, rest', rfl, hbetween⟩ := hcases.resolve_left hne
        rw [findSome?_cmdline_cons hne]
        exact (List.findSome?_eq_some_iff.2 ⟨between, _, rest', rfl, hfound, fun tag htag =>
          Tag.range?_cmdline.2 (hbetween tag htag)⟩).symm

/-- **When modules are found by name:** if no module has the name as its first word, or the first
one that has it has no arguments, or is followed by one that has none and the same range. -/
theorem found_by_name_iff {tags : List Tag} (hblock : InfoBlock m info tags)
    (hname : NameAt m name s) (hspace : 32 ∉ s) :
    FoundByName m info name tags s ↔ ArgumentsHarmless tags s := by
  rw [← findSome?_eq_iff hspace]
  constructor
  · rintro ⟨enough, hfound⟩
    have hfuel : (read32 m info.toNat).toNat + tags.length <
        max enough ((read32 m info.toNat).toNat + tags.length + 1) :=
      Nat.lt_of_succ_le (Nat.le_max_right ..)
    exact Option.some.inj ((hfound _ (Nat.le_max_left ..)).symm.trans
      (multibootFindModule_eq hblock hname hfuel))
  · intro heq
    refine ⟨(read32 m info.toNat).toNat + tags.length + 1, fun fuel hfuel => ?_⟩
    rw [multibootFindModule_eq hblock hname (Nat.lt_of_succ_le hfuel), heq]

/-- The block of `moduleOnly`, in which the module `a` has no arguments. -/
theorem moduleOnly_found :
    FoundByName moduleOnly 0x10000 0x10028 [.module 0x1000000 0x1001000 [97]] [97] ∧
    Tag.Named [97] (.module 0x1000000 0x1001000 [97]) := by
  have hblock : InfoBlock moduleOnly 0x10000 [.module 0x1000000 0x1001000 [97]] :=
    ⟨by decide, by decide, .module (by decide) (by decide) (by decide) (by decide)
      (.finish (by decide) (by decide))⟩
  have hnamed : Tag.Named [97] (.module 0x1000000 0x1001000 [97]) := ⟨by decide, by decide⟩
  exact ⟨(found_by_name_iff hblock ⟨by decide, by decide, by decide⟩ (by decide)).2
    (Or.inr ⟨[], _, _, _, [], rfl, fun tag htag => absurd htag List.not_mem_nil, hnamed,
      Or.inl rfl⟩),
    hnamed⟩

/-- The same block, but the command line of the module is `a b`. -/
def moduleWithArgument : Mem := bytesAt 0x10000
  [40, 0, 0, 0, 0, 0, 0, 0,
    3, 0, 0, 0, 20, 0, 0, 0, 0, 0, 0, 1, 0, 16, 0, 1, 97, 32, 98, 0, 0, 0, 0, 0,
    0, 0, 0, 0, 8, 0, 0, 0,
    97, 0]

/-- The module `a` of this block is not found. -/
theorem moduleWithArgument_not_found :
    InfoBlock moduleWithArgument 0x10000 [.module 0x1000000 0x1001000 [97, 32, 98]] ∧
    NameAt moduleWithArgument 0x10028 [97] ∧ firstWord [97, 32, 98] = [97] ∧
    (∀ fuel > 41, multibootFindModule moduleWithArgument fuel 0x10000 0x10028 = some none) ∧
    ¬ FoundByName moduleWithArgument 0x10000 0x10028
      [.module 0x1000000 0x1001000 [97, 32, 98]] [97] := by
  have hblock : InfoBlock moduleWithArgument 0x10000 [.module 0x1000000 0x1001000 [97, 32, 98]] :=
    ⟨by decide, by decide,
      .module (by decide) (by decide) (by decide) (by decide) (.finish (by decide) (by decide))⟩
  have hname : NameAt moduleWithArgument 0x10028 [97] :=
    ⟨by decide, by decide, by decide⟩
  have htotal : (read32 moduleWithArgument (0x10000 : U64).toNat).toNat = 40 := by decide
  have hnone : ∀ fuel > 41, (multibootFindModule moduleWithArgument fuel 0x10000 0x10028).map
      (Option.map fun found => (found.start, found.stop)) = some none := fun fuel hfuel =>
    multibootFindModule_eq hblock hname (by rw [htotal]; exact hfuel)
  refine ⟨hblock, hname, rfl, fun fuel hfuel => ?_, fun ⟨enough, hfound⟩ => ?_⟩
  · obtain ⟨r, hr, hrange⟩ := Option.map_eq_some_iff.1 (hnone fuel hfuel)
    rw [hr, Option.map_eq_none_iff.1 hrange]
  · have hboth := (hnone _ (Nat.lt_of_succ_le (Nat.le_max_right enough 42))).symm.trans
      (hfound _ (Nat.le_max_left enough 42))
    exact absurd (Option.some.inj hboth) (by decide)

end SuiraBox.Boot
