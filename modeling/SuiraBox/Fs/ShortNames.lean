/-
# Short names

`format_83_name` of `kernel/fs/fat32.c`.  A directory record holds a name in eleven bytes, eight
for the base and three for the extension, each padded with spaces.  The reader puts a dot between
the two unless there is no extension, and a zero byte behind.

The buffer has thirteen bytes.  The longest name takes all of them (`format83Name_eq`,
`length_shortName_le`), and since neither part has a dot of its own, the parts can be told from
the formatted name.
-/

import SuiraBox.Library.Strings
import SuiraBox.Fs.Fat32

namespace SuiraBox.Fs

open ByteMem Strings

variable {raw raw' : Mem} {base base' ext ext' : List U8}

/-- The characters that `format_83_name` makes of a record. -/
def shortName (raw : Mem) : List U8 :=
  field raw 0x20 8 0 ++ if raw 8 ≠ 0x20 ∧ raw 8 ≠ 0 then 0x2E :: field raw 0x20 3 8 else []

theorem length_shortName_le (raw : Mem) : (shortName raw).length ≤ 12 := by
  have hbase := length_field_le raw 0x20 8 0
  have hext := length_field_le raw 0x20 3 8
  rw [shortName, List.length_append]
  split_ifs with h
  · rw [List.length_cons]
    omega
  · rw [List.length_nil]
    omega

/-- A loop of `format_83_name` copies its field; the guard on the position never stops it. -/
theorem copyName_eq {n i pos : ℕ} (h : pos + n ≤ 12) (out : Mem) :
    copyName raw n i pos out =
      (pos + (field raw 0x20 n i).length, writeBytes out pos (field raw 0x20 n i)) := by
  induction n generalizing i pos out with
  | zero => rfl
  | succ n ih =>
    rw [copyName, field]
    split_ifs with hpad hroom
    · rfl
    · rw [ih (by omega), List.length_cons, writeBytes, Nat.add_assoc, Nat.add_comm 1]
    · omega

/-- **The formatted name is in the buffer, with its zero byte, and nothing else is touched.** -/
theorem format83Name_eq (raw out : Mem) :
    format83Name raw out = writeBytes out 0 (shortName raw ++ [0]) := by
  have hbase := length_field_le raw 0x20 8 0
  rw [format83Name, copyName_eq (by decide), shortName]
  dsimp only
  split_ifs with hext
  · rw [copyName_eq (by omega), List.append_assoc, writeBytes_append, List.cons_append, writeBytes,
      writeBytes_append]
    simp only [writeBytes, Nat.add_assoc, Nat.add_comm 1]
  · rw [List.append_nil, writeBytes_append]
    rfl

/-- A record with a proper name: the two parts, of characters that are no space, no dot and no zero,
each padded with spaces. -/
structure ShortNamed (raw : Mem) (base ext : List U8) : Prop where
  base_pos : base ≠ []
  base_le : base.length ≤ 8
  ext_le : ext.length ≤ 3
  plain : ∀ c ∈ base ++ ext, c ≠ 0x20 ∧ c ≠ 0x2E ∧ c ≠ 0
  base_bytes : ∀ i < 8, raw i = base.getD i 0x20
  ext_bytes : ∀ i < 3, raw (8 + i) = ext.getD i 0x20

/-- The two parts with a dot between them, if there are two. -/
def dotted (base ext : List U8) : List U8 := base ++ if ext = [] then [] else 0x2E :: ext

namespace ShortNamed

variable (h : ShortNamed raw base ext)
include h

theorem base_plain {c : U8} (hc : c ∈ base) : c ≠ 0x20 ∧ c ≠ 0x2E ∧ c ≠ 0 :=
  h.plain c (List.mem_append_left _ hc)

theorem ext_plain {c : U8} (hc : c ∈ ext) : c ≠ 0x20 ∧ c ≠ 0x2E ∧ c ≠ 0 :=
  h.plain c (List.mem_append_right _ hc)

/-- The name is both parts with a dot between them. -/
theorem shortName_eq : shortName raw = dotted base ext := by
  have hbase : field raw 0x20 8 0 = base :=
    field_of_padded h.base_le (fun hm => (h.base_plain hm).1 rfl) fun k hk => by
      rw [Nat.zero_add]
      exact h.base_bytes k hk
  have hext : field raw 0x20 3 8 = ext :=
    field_of_padded h.ext_le (fun hm => (h.ext_plain hm).1 rfl) h.ext_bytes
  have hfirst : raw 8 = ext.getD 0 0x20 := h.ext_bytes 0 (by omega)
  rw [shortName, dotted, hbase, hext, hfirst]
  cases ext with
  | nil => rfl
  | cons c cs =>
    obtain ⟨hspace, -, hzero⟩ := h.ext_plain (List.mem_cons_self ..)
    rw [List.getD_cons_zero, if_pos ⟨hspace, hzero⟩, if_neg (List.cons_ne_nil c cs)]

/-- The formatted name is a string, the two parts with a dot between them. -/
theorem hasString (out : Mem) : HasString (format83Name raw out) 0 (dotted base ext) := by
  rw [format83Name_eq, h.shortName_eq]
  refine hasString_writeBytes out 0 fun c hc => ?_
  rw [dotted] at hc
  rcases List.mem_append.1 hc with hbase | hrest
  · exact (h.base_plain hbase).2.2
  · split_ifs at hrest with hempty
    · exact absurd hrest List.not_mem_nil
    · rcases List.mem_cons.1 hrest with rfl | hext
      · decide
      · exact (h.ext_plain hext).2.2

end ShortNamed

/-- The parts can be told from the formatted name. -/
theorem dotted_inj (h : ShortNamed raw base ext) (h' : ShortNamed raw' base' ext')
    (heq : dotted base ext = dotted base' ext') : base = base' ∧ ext = ext' := by
  have hdot : (0x2E : U8) ∉ base := fun hm => (h.base_plain hm).2.1 rfl
  have hdot' : (0x2E : U8) ∉ base' := fun hm => (h'.base_plain hm).2.1 rfl
  rw [dotted, dotted] at heq
  split_ifs at heq with hext hext' hext'
  · rw [List.append_nil, List.append_nil] at heq
    exact ⟨heq, hext.trans hext'.symm⟩
  · rw [List.append_nil] at heq
    exact absurd (heq ▸ List.mem_append_right _ (List.mem_cons_self ..)) hdot
  · rw [List.append_nil] at heq
    exact absurd (heq ▸ List.mem_append_right _ (List.mem_cons_self ..)) hdot'
  · exact append_separator_inj hdot hdot' heq

/-- **Short names are formatted without overflow or collision.**  The name takes at most twelve
bytes of the buffer and its zero byte one more; two proper names that are the same when formatted
are the same in their records. -/
theorem short_names_formatted :
    (∀ raw out : Mem, ∃ name : List U8, name.length ≤ 12 ∧
      format83Name raw out = writeBytes out 0 (name ++ [0])) ∧
    ∀ (raw raw' out out' : Mem) (base base' ext ext' : List U8), ShortNamed raw base ext →
      ShortNamed raw' base' ext' → SameString (format83Name raw out) (format83Name raw' out') →
        ∀ i < 11, raw i = raw' i := by
  refine ⟨fun raw out => ⟨_, length_shortName_le raw, format83Name_eq raw out⟩, ?_⟩
  intro raw raw' out out' base base' ext ext' h h' ⟨s, hs, hs'⟩ i hi
  have heq : dotted base ext = dotted base' ext' :=
    ((h.hasString out).unique hs).trans (hs'.unique (h'.hasString out'))
  obtain ⟨rfl, rfl⟩ := dotted_inj h h' heq
  rcases Nat.lt_or_ge i 8 with hlt | hge
  · exact (h.base_bytes i hlt).trans (h'.base_bytes i hlt).symm
  · obtain ⟨j, rfl⟩ := Nat.exists_eq_add_of_le hge
    exact (h.ext_bytes j (by omega)).trans (h'.ext_bytes j (by omega)).symm

/-- A record with the name `base.ext`, each part padded with spaces, and `rest` behind it. -/
def nameRecord (base ext : List U8) (rest : U8) : Mem := fun i =>
  if i < 8 then base.getD i 0x20 else if i < 11 then ext.getD (i - 8) 0x20 else rest

/-- Every name of this form has a record. -/
theorem shortNamed_nameRecord (hpos : base ≠ []) (hbase : base.length ≤ 8) (hext : ext.length ≤ 3)
    (hplain : ∀ c ∈ base ++ ext, c ≠ 0x20 ∧ c ≠ 0x2E ∧ c ≠ 0) (rest : U8) :
    ShortNamed (nameRecord base ext rest) base ext where
  base_pos := hpos
  base_le := hbase
  ext_le := hext
  plain := hplain
  base_bytes i hi := by rw [nameRecord, if_pos hi]
  ext_bytes i hi := by
    rw [nameRecord, if_neg (by omega), if_pos (by omega), Nat.add_sub_cancel_left]

/-- The name `README.TXT`, with `rest` behind it. -/
def readmeRecord (rest : U8) : Mem :=
  nameRecord [0x52, 0x45, 0x41, 0x44, 0x4D, 0x45] [0x54, 0x58, 0x54] rest

/-- Two records of that name. -/
theorem readme_formatted :
    SameString (format83Name (readmeRecord 0x20) fun _ => 0)
      (format83Name (readmeRecord 0x01) fun _ => 0) ∧
      ∀ i < 11, readmeRecord 0x20 i = readmeRecord 0x01 i := by
  have hnamed : ∀ rest, ShortNamed (readmeRecord rest)
      [0x52, 0x45, 0x41, 0x44, 0x4D, 0x45] [0x54, 0x58, 0x54] :=
    shortNamed_nameRecord (by decide) (by decide) (by decide) (by decide)
  have hsame : SameString (format83Name (readmeRecord 0x20) fun _ => 0)
      (format83Name (readmeRecord 0x01) fun _ => 0) :=
    ⟨_, (hnamed 0x20).hasString _, (hnamed 0x01).hasString _⟩
  exact ⟨hsame, short_names_formatted.2 _ _ _ _ _ _ _ _ (hnamed 0x20) (hnamed 0x01) hsame⟩

end SuiraBox.Fs
