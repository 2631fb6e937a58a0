/-
# The report of the boot modules

`report_multiboot_modules` and `serial_write_u64` of `kernel/kernel.c`: the third walk over the tags
of the information block, after those of the importer and of the module finder.  It looks at 32 tags
at most and prints where each module starts and ends.

The loads are recorded as in the importer, and the value is the printed text.
-/

import SuiraBox.Boot.ImportTrace
import SuiraBox.Boot.Modules
import SuiraBox.Library.HexText
import SuiraBox.Library.Runs
import SuiraBox.Library.Strings

namespace SuiraBox.Boot

open ByteMem Mm Trace Runs HexText

/-! ### The text -/

/-- The loop of `serial_write_u64` that fills the buffer, lowest digit first. -/
def u64Buffer : ℕ → U64 → List Char
  | 0, _ => []
  | room + 1, value =>
    if value = 0 then [] else digit (value &&& 0xF).toNat :: u64Buffer room (value >>> 4)

/-- `serial_write_u64`, as the text that it sends. Texts stand for the bytes that
`serial_write_char` sends to port `0x3F8` one by one; its wait for the transmitter, a loop that
reads port `0x3FD` until bit 5 is set, is left out. -/
def serialWriteU64 (value : U64) : List Char :=
  if value = 0 then ['0'] else "0x".toList ++ (u64Buffer 16 value).reverse

def startText : List Char := "Boot module: start=".toList

def endText : List Char := " end=".toList

def lineEnd : List Char := "\r\n".toList

/-- The line of a module. -/
def moduleLine (start stop : U32) : List Char :=
  startText ++ (serialWriteU64 (start.setWidth 64) ++
    (endText ++ (serialWriteU64 (stop.setWidth 64) ++ lineEnd)))

/-! ### The walk -/

/-- The part of the loop that prints. -/
def reportTag (m : Mem) (tag : ℕ) (type size : U32) : Traced Access (List Char) := do
  if type = 3 ∧ 16 ≤ size then
    let start ← load32 m (tag + 8)
    let stop ← load32 m (tag + 12)
    pure (moduleLine start stop)
  else pure []

/-- The loop of `report_multiboot_modules`, with `n` tags to go. -/
def reportTags (m : Mem) (info : U64) (totalSize : U32) (n : ℕ) (offset : U32) :
    Traced Access (List Char) := do
  let last ← sub32 totalSize 8
  if offset ≤ last then
    match n with
    | 0 => pure []
    | n + 1 =>
      let tag := (info + offset.setWidth 64).toNat
      let size ← load32 m (tag + 4)
      let rest ← sub32 totalSize offset
      if size < 8 ∨ rest < size then pure []
      else
        let type ← load32 m tag
        if type = 0 then pure []
        else
          let line ← reportTag m tag type size
          let padded ← add32 size 7
          let next := padded &&& ~~~7
          let room ← sub32 totalSize next
          if next < size ∨ room < offset then pure line
          else
            let offset ← add32 offset next
            let lines ← reportTags m info totalSize n offset
            pure (line ++ lines)
  else pure []

/-- `report_multiboot_modules`. -/
def reportMultibootModules (m : Mem) (info : U64) : Traced Access (List Char) := do
  if info = 0 then pure []
  else
    let totalSize ← load32 m info.toNat
    if totalSize < 16 ∨ 64 * 1024 < totalSize then pure [] else reportTags m info totalSize 32 8

/-! ### Reading the text back -/

/-- The loop fills the buffer with the digits, lowest first. -/
theorem u64Buffer_eq {n : ℕ} {value : U64} (h : value.toNat < 16 ^ n) :
    u64Buffer n value = (Nat.digits 16 value.toNat).map digit := by
  induction n generalizing value with
  | zero =>
    have hzero : value.toNat = 0 := by simpa using h
    rw [u64Buffer, hzero]
    rfl
  | succ n ih =>
    rw [u64Buffer]
    split_ifs with hzero
    · rw [hzero]
      rfl
    · have hpos : 0 < value.toNat := Nat.pos_of_ne_zero fun h => hzero (BitVec.eq_of_toNat_eq h)
      have hlow : (value &&& 0xF).toNat = value.toNat % 16 := by
        rw [BitVec.toNat_and]
        exact Nat.and_two_pow_sub_one_eq_mod value.toNat 4
      have hhigh : (value >>> 4).toNat = value.toNat / 16 := by
        rw [BitVec.toNat_ushiftRight, Nat.shiftRight_eq_div_pow]
      have hlt : (value >>> 4).toNat < 16 ^ n := by
        rw [hhigh]
        rw [Nat.pow_succ] at h
        omega
      rw [ih hlt, hlow, hhigh, Nat.digits_def' (by decide) hpos, List.map_cons]

/-- What is printed for a number. -/
theorem serialWriteU64_eq (value : U64) :
    serialWriteU64 value = if value = 0 then ['0'] else "0x".toList ++ natural value.toNat := by
  rw [serialWriteU64, u64Buffer_eq (n := 16) value.isLt]
  rfl

/-- Different numbers are printed differently. -/
theorem serialWriteU64_injective {v w : U64} (h : serialWriteU64 v = serialWriteU64 w) : v = w := by
  have hread : ∀ v : U64, read ((serialWriteU64 v).drop 2) = v.toNat := by
    intro v
    rw [serialWriteU64_eq]
    split_ifs with hzero
    · rw [hzero]
      rfl
    · exact read_natural v.toNat
  exact BitVec.eq_of_toNat_eq
    ((hread v).symm.trans ((congrArg (fun s => read (s.drop 2)) h).trans (hread w)))

/-- The characters of a number. -/
theorem mem_serialWriteU64 {value : U64} {c : Char} (hc : c ∈ serialWriteU64 value) :
    c = 'x' ∨ c ∈ digits := by
  have hdigit : ∀ n < 16, digit n ∈ digits := fun n hn => by
    have hall : ∀ k : Fin 16, digit k ∈ digits := by decide
    exact hall ⟨n, hn⟩
  rw [serialWriteU64_eq] at hc
  split_ifs at hc
  · obtain rfl := List.mem_singleton.1 hc
    exact Or.inr (by decide)
  · rcases List.mem_append.1 hc with hprefix | hnatural
    · rw [show "0x".toList = ['0', 'x'] from rfl, List.mem_cons, List.mem_singleton] at hprefix
      rcases hprefix with rfl | rfl
      · exact Or.inr (by decide)
      · exact Or.inl rfl
    · obtain ⟨d, hd, rfl⟩ := List.mem_map.1 (List.mem_reverse.1 hnatural)
      exact Or.inr (hdigit d (Nat.digits_lt_base (by decide) hd))

/-- A line tells its module, and where it ends. -/
theorem moduleLine_append_inj {start stop start' stop' : U32} {s s' : List Char}
    (h : moduleLine start stop ++ s = moduleLine start' stop' ++ s') :
    start = start' ∧ stop = stop' ∧ s = s' := by
  have hplain : ∀ value : U64, ' ' ∉ serialWriteU64 value ∧
      '\r' ∉ serialWriteU64 value := fun value =>
    ⟨fun hc => absurd (mem_serialWriteU64 hc) (by decide), fun hc => absurd (mem_serialWriteU64 hc)
      (by decide)⟩
  have hwide : ∀ {v w : U32}, serialWriteU64 (v.setWidth 64) = serialWriteU64 (w.setWidth 64) →
      v = w := by
    intro v w h
    have hnat := congrArg BitVec.toNat (serialWriteU64_injective h)
    rw [BitVec.toNat_setWidth_of_le (by decide), BitVec.toNat_setWidth_of_le (by decide)] at hnat
    exact BitVec.eq_of_toNat_eq hnat
  have hend : endText = ' ' :: "end=".toList := by decide
  have hline : lineEnd = '\r' :: ['\n'] := by decide
  simp only [moduleLine, List.append_assoc, hend, hline, List.cons_append] at h
  have h := List.append_cancel_left h
  obtain ⟨hstart, h⟩ := Strings.append_separator_inj (hplain _).1 (hplain _).1 h
  have h := List.append_cancel_left h
  obtain ⟨hstop, h⟩ := Strings.append_separator_inj (hplain _).2 (hplain _).2 h
  exact ⟨hwide hstart, hwide hstop, (List.cons.inj h).2⟩

/-! ### The loads -/

variable {m : Mem} {info : U64} {total off : U32}

/-- A tag inside the block is read inside it. -/
theorem reportTag_safe {base len tag : ℕ} (hbase : base ≤ tag) {type size : U32}
    (hin : tag + size.toNat ≤ base + len) :
    Safe (Access.Within base len) (reportTag m tag type size) := by
  unfold reportTag
  refine safe_ite (fun h => ?_) fun _ => safe_pure _
  have hsize : 16 ≤ size.toNat := h.2
  rw [safe_bind, safe_bind, within_load32, within_load32]
  exact ⟨by omega, by omega, safe_pure _⟩

/-- The walk stays inside the block, and its offsets do not wrap. -/
theorem reportTags_safe (hinfo : info.toNat < 2 ^ 30) (htotal : 16 ≤ total.toNat)
    (hmax : total.toNat ≤ 65536) (n : ℕ) (hoff : 8 ≤ off.toNat) :
    Safe (Access.Within info.toNat total.toNat) (reportTags m info total n off) := by
  induction n generalizing off with
  | zero =>
    unfold reportTags
    rw [safe_bind, within_sub32]
    exact ⟨by bv_omega, safe_ite (fun _ => safe_pure _) fun _ => safe_pure _⟩
  | succ n ih =>
    unfold reportTags
    refine safe_tagHead hinfo htotal hmax fun h8 hin => ?_
    rw [toNat_tag (by omega), safe_bind, safe_bind, safe_bind, within_add32]
    have hround := toNat_roundUp8 (tagSize m (info.toNat + off.toNat)) (by bv_omega)
    have hnext : roundUp8 (tagSize m (info.toNat + off.toNat)).toNat ≤ total.toNat := by
      rw [roundUp8]
      omega
    refine ⟨reportTag_safe (by omega) (by omega), ?_, ?_, safe_ite (fun _ => safe_pure _)
      fun _ => ?_⟩
    · change (tagSize m (info.toNat + off.toNat)).toNat + (7 : U32).toNat < 2 ^ 32
      bv_omega
    · rw [within_sub32]
      exact hround.trans_le hnext
    · have hsum : off.toNat + ((tagSize m (info.toNat + off.toNat) + 7) &&& ~~~7).toNat <
          2 ^ 32 := by
        rw [hround]
        omega
      rw [safe_bind, within_add32, safe_bind]
      refine ⟨hsum, ih ?_, safe_pure _⟩
      change 8 ≤ (off + ((tagSize m (info.toNat + off.toNat) + 7) &&& ~~~7)).toNat
      rw [BitVec.toNat_add]
      omega

/-! ### The modules that are reported -/

section Modules

variable (m : Mem) (info total off : ℕ)

/-- The walk takes the tag at `off`. -/
def Looked : Prop :=
  off + 8 ≤ total ∧ 8 ≤ (tagSize m (info + off)).toNat ∧
    off + (tagSize m (info + off)).toNat ≤ total ∧ tagType m (info + off) ≠ 0

instance : Decidable (Looked m info total off) := inferInstanceAs (Decidable (_ ∧ _ ∧ _ ∧ _))

/-- Where the walk goes from there. -/
def nextTag : Option ℕ :=
  if Looked m info total off ∧ off + roundUp8 (tagSize m (info + off)).toNat ≤ total then
    some (off + roundUp8 (tagSize m (info + off)).toNat)
  else none

/-- The module that the tag describes. -/
def moduleAt : Option (U32 × U32) :=
  if Looked m info total off ∧ tagType m (info + off) = 3 ∧ 16 ≤ (tagSize m (info + off)).toNat then
    some (modStart m (info + off), modEnd m (info + off))
  else none

/-- The modules of the first `n` tags from `off` on. -/
def modulesFrom (n : ℕ) : List (U32 × U32) :=
  (List.range n).filterMap fun k =>
    (follow (nextTag m info total) k off).bind (moduleAt m info total)

/-- The modules behind one tag. -/
theorem modulesFrom_succ (n : ℕ) : modulesFrom m info total off (n + 1) =
    (moduleAt m info total off).toList ++ ((nextTag m info total off).elim [] fun off' =>
      modulesFrom m info total off' n) := by
  rw [modulesFrom, List.range_succ_eq_map, List.filterMap_cons, List.filterMap_map]
  have hrest : (List.range n).filterMap
      ((fun k => (follow (nextTag m info total) k off).bind (moduleAt m info total)) ∘ Nat.succ) =
      (nextTag m info total off).elim [] fun off' => modulesFrom m info total off' n := by
    cases hnext : nextTag m info total off with
    | none => simp [follow_succ, hnext]
    | some off' =>
      simp only [Function.comp_def, Nat.succ_eq_add_one, follow_succ, hnext, Option.bind_some]; rfl
  rw [hrest, follow_zero, Option.bind_some]
  cases moduleAt m info total off with
  | none => rfl
  | some r => rfl

end Modules

/-- The modules that the report tells of. -/
def reportedModules (m : Mem) (info : U64) : List (U32 × U32) :=
  let total := (read32 m info.toNat).toNat
  if info = 0 ∨ total < 16 ∨ 65536 < total then [] else modulesFrom m info.toNat total 8 32

/-- A module tag prints its line, other tags print nothing. -/
theorem reportTag_value (tag : ℕ) (type size : U32) : (reportTag m tag type size).value =
    if type = 3 ∧ 16 ≤ size then moduleLine (modStart m tag) (modEnd m tag) else [] := by
  rw [reportTag, value_ite]
  rfl

/-- The tests of the loop before it looks at a tag. -/
theorem looked_iff (htotal : 16 ≤ total.toNat) : Looked m info.toNat total.toNat off.toNat ↔
    off ≤ total - 8 ∧ ¬ (tagSize m (info.toNat + off.toNat) < 8 ∨
      total - off < tagSize m (info.toNat + off.toNat)) ∧
      tagType m (info.toNat + off.toNat) ≠ 0 := by
  generalize hsize : tagSize m (info.toNat + off.toNat) = size
  rw [Looked, hsize]
  constructor
  · rintro ⟨hlast, h8, hin, htype⟩
    exact ⟨by bv_omega, by bv_omega, htype⟩
  · rintro ⟨hlast, hbad, htype⟩
    exact ⟨by bv_omega, by bv_omega, by bv_omega, htype⟩

/-- Its tests before it goes to the next tag. -/
theorem stops_iff {size : U32} (hmax : total.toNat ≤ 65536)
    (hin : off.toNat + size.toNat ≤ total.toNat) (hoff : 8 ≤ off.toNat) :
    ((size + 7) &&& ~~~7 < size ∨ total - ((size + 7) &&& ~~~7) < off) ↔
      ¬ off.toNat + roundUp8 size.toNat ≤ total.toNat := by
  have hround := toNat_roundUp8 size (by omega)
  have hle : size.toNat ≤ roundUp8 size.toNat ∧ roundUp8 size.toNat ≤ total.toNat := by
    rw [roundUp8]
    omega
  rw [BitVec.lt_def, BitVec.lt_def, BitVec.toNat_sub_of_le (BitVec.le_def.2 (by omega)), hround]
  omega

/-- One round of the loop. -/
theorem reportTags_succ (hinfo : info.toNat < 2 ^ 30) (htotal : 16 ≤ total.toNat)
    (hmax : total.toNat ≤ 65536) (hoff : 8 ≤ off.toNat) (n : ℕ) :
    (reportTags m info total (n + 1) off).value =
      (moduleAt m info.toNat total.toNat off.toNat).toList.flatMap (fun r => moduleLine r.1 r.2) ++
        (nextTag m info.toNat total.toNat off.toNat).elim [] fun off' =>
          (reportTags m info total n (BitVec.ofNat 32 off')).value := by
  have htag := toNat_tag (by have := off.isLt; omega : info.toNat + off.toNat < 2 ^ 64)
  have hlooked : Looked m info.toNat total.toNat off.toNat ↔ _ := looked_iff htotal
  rw [reportTags, moduleAt, nextTag]
  simp only [value_bind, value_ite, value_pure, reportTag_value]
  rw [htag]
  generalize info.toNat + off.toNat = tag at hlooked ⊢
  let line := if tagType m tag = 3 ∧ 16 ≤ (tagSize m tag).toNat then
    moduleLine (modStart m tag) (modEnd m tag) else []
  change (if off ≤ total - 8 then
      if tagSize m tag < 8 ∨ total - off < tagSize m tag then []
      else if tagType m tag = 0 then []
      else if (tagSize m tag + 7) &&& ~~~7 < tagSize m tag ∨
        total - ((tagSize m tag + 7) &&& ~~~7) < off then line
      else line ++ (reportTags m info total n (off + ((tagSize m tag + 7) &&& ~~~7))).value
    else []) = _
  by_cases h : Looked m info.toNat total.toNat off.toNat
  · obtain ⟨hlast, hsize, htype⟩ := hlooked.1 h
    have hin : off.toNat + (tagSize m tag).toNat ≤ total.toNat := by bv_omega
    have hsum : off + ((tagSize m tag + 7) &&& ~~~7) =
        BitVec.ofNat 32 (off.toNat + roundUp8 (tagSize m tag).toNat) := by
      refine BitVec.eq_of_toNat_eq ?_
      rw [BitVec.toNat_add, toNat_roundUp8 _ (by omega), BitVec.toNat_ofNat]
    rw [if_pos hlast, if_neg hsize, if_neg htype, if_congr (stops_iff hmax hin hoff) rfl rfl,
      ite_not, hsum]
    simp only [h, true_and, line]
    split_ifs <;> simp
  · rw [if_neg fun hand : _ ∧ _ => h hand.1, if_neg fun hand : _ ∧ _ => h hand.1]
    rw [hlooked] at h
    split_ifs with hlast hsize htype
    · rfl
    · rfl
    · exact absurd ⟨hlast, hsize, htype⟩ h
    · exact absurd ⟨hlast, hsize, htype⟩ h
    · rfl

/-- The text of the loop. -/
theorem reportTags_value (hinfo : info.toNat < 2 ^ 30) (htotal : 16 ≤ total.toNat)
    (hmax : total.toNat ≤ 65536) (n : ℕ) (hoff : 8 ≤ off.toNat) :
    (reportTags m info total n off).value =
      (modulesFrom m info.toNat total.toNat off.toNat n).flatMap fun r => moduleLine r.1 r.2 := by
  induction n generalizing off with
  | zero =>
    rw [reportTags]
    simp only [value_bind, value_pure, ite_self]
    rfl
  | succ n ih =>
    rw [reportTags_succ hinfo htotal hmax hoff, modulesFrom_succ, List.flatMap_append]
    congr 1
    cases hnext : nextTag m info.toNat total.toNat off.toNat with
    | none => rfl
    | some off' =>
      rw [nextTag] at hnext
      split_ifs at hnext with hgo
      obtain rfl := Option.some.inj hnext
      have hoff' :
          (BitVec.ofNat 32 (off.toNat +
            roundUp8 (tagSize m (info.toNat + off.toNat)).toNat)).toNat =
          off.toNat + roundUp8 (tagSize m (info.toNat + off.toNat)).toNat := by
        rw [BitVec.toNat_ofNat, Nat.mod_eq_of_lt (by omega)]
      rw [Option.elim_some, Option.elim_some, ih (by rw [hoff']; omega), hoff']

/-- **The report of the boot modules.**  For every block in the first gigabyte, whatever its bytes
are, every load but that of the total size lies inside the block and no offset wraps.  The text has
one line for each module among the first 32 tags, and tells them all: two reports with the same text
tell of the same modules. -/
theorem module_report_exact (m : Mem) {info : U64} (hinfo : info.toNat < 2 ^ 30) :
    Safe (BlockAccess m info) (reportMultibootModules m info) ∧
      (reportMultibootModules m info).value =
        (reportedModules m info).flatMap (fun r => moduleLine r.1 r.2) ∧
      Function.Injective fun rs : List (U32 × U32) => rs.flatMap fun r => moduleLine r.1 r.2 := by
  have hbounds : ∀ total : U32, ¬ (total < 16 ∨ 64 * 1024 < total) → 16 ≤ total.toNat ∧
      total.toNat ≤ 65536 := by
    intro total h
    bv_omega
  refine ⟨?_, ?_, ?_⟩
  · unfold reportMultibootModules
    refine safe_ite (fun _ => safe_pure _) fun _ => ?_
    rw [safe_bind]
    refine ⟨(safe_tell ..).2 (Or.inl rfl), safe_ite (fun _ => safe_pure _) fun hsize => ?_⟩
    obtain ⟨hlow, hhigh⟩ := hbounds _ hsize
    exact (reportTags_safe hinfo hlow hhigh 32 (by decide)).mono fun e => Or.inr
  · unfold reportMultibootModules reportedModules
    simp only [value_ite, value_bind, value_pure]
    change (if info = 0 then [] else if read32 m info.toNat < 16 ∨
      64 * 1024 < read32 m info.toNat then []
      else (reportTags m info (read32 m info.toNat) 32 8).value) = _
    by_cases hnull : info = 0
    · rw [if_pos hnull, if_pos (Or.inl hnull)]
      rfl
    · by_cases hsize : read32 m info.toNat < 16 ∨ 64 * 1024 < read32 m info.toNat
      · rw [if_neg hnull, if_pos hsize, if_pos (Or.inr (by bv_omega))]
        rfl
      · obtain ⟨hlow, hhigh⟩ := hbounds _ hsize
        rw [if_neg hnull, if_neg hsize, if_neg (not_or.2 ⟨hnull, by omega⟩)]
        exact reportTags_value hinfo hlow hhigh 32 (by decide)
  · have hline : ∀ (r : U32 × U32) rs, (r :: rs).flatMap (fun r => moduleLine r.1 r.2) ≠
        [] := fun r rs h => by
      rw [List.flatMap_cons, moduleLine, List.append_eq_nil_iff, List.append_eq_nil_iff] at h
      exact absurd h.1.1 (by decide)
    intro rs
    induction rs with
    | nil =>
      rintro (_ | ⟨r, rs'⟩) h
      · rfl
      · exact absurd h.symm (hline r rs')
    | cons r rs ih =>
      rintro (_ | ⟨r', rs'⟩) h
      · exact absurd h (hline r rs)
      · simp only [List.flatMap_cons] at h
        obtain ⟨hstart, hstop, hrest⟩ := moduleLine_append_inj h
        rw [Prod.ext hstart hstop, ih hrest]

/-- A block of 80 bytes: a memory map with one available entry from 0 to 256 MiB, a module in the
page at 16 MiB, and the end tag. -/
def mappedModule : Mem := bytesAt 0x10000
  [80, 0, 0, 0, 0, 0, 0, 0,
    6, 0, 0, 0, 40, 0, 0, 0, 24, 0, 0, 0, 0, 0, 0, 0,
    0, 0, 0, 0, 0, 0, 0, 0, 0, 0, 0, 16, 0, 0, 0, 0, 1, 0, 0, 0, 0, 0, 0, 0,
    3, 0, 0, 0, 18, 0, 0, 0, 0, 0, 0, 1, 0, 16, 0, 1, 97, 0, 0, 0, 0, 0, 0, 0,
    0, 0, 0, 0, 8, 0, 0, 0]

/-- The module of the examples is reported. -/
theorem mappedModule_reported :
    (reportMultibootModules mappedModule 0x10000).value = moduleLine 0x01000000 0x01001000 := by
  have hone : reportedModules mappedModule 0x10000 = [(0x01000000, 0x01001000)] := by decide
  have hvalue := (module_report_exact mappedModule (by decide : (0x10000 : U64).toNat < 2 ^ 30)).2.1
  rw [hone, List.flatMap_singleton] at hvalue
  exact hvalue

/-! ### The importer and the report -/

/-- The report walks as the importer does. -/
theorem follow_nextTag_reaches {base total off off' k : ℕ}
    (h : follow (nextTag m base total) k off = some off') : Reaches m base off off' := by
  induction k generalizing off with
  | zero =>
    obtain rfl := Option.some.inj h
    exact .here _
  | succ k ih =>
    rw [follow_succ] at h
    obtain ⟨next, hnext, hrest⟩ := Option.bind_eq_some_iff.1 h
    rw [nextTag] at hnext
    split_ifs at hnext with hgo
    obtain rfl := Option.some.inj hnext
    exact .next hgo.1.2.2.2 (ih hrest)

/-- **What is reported is kept.**  After an accepted block, no page of a module that the report
tells of is free: the importer has reserved it. -/
theorem reported_modules_kept (image : KernelImage) {s : Pmm} (haccept : Accepts m info s)
    {r : U32 × U32} (hr : r ∈ reportedModules m info) {p : ℕ} (hp : p < 65536)
    (hmeets : Meets r.1.toNat r.2.toNat p) :
    pageBit (pmmInitFromMultiboot image m info s).bitmap p = true := by
  simp only [reportedModules] at hr
  split_ifs at hr with hbad
  · exact absurd hr List.not_mem_nil
  obtain ⟨k, -, hk⟩ := List.mem_filterMap.1 hr
  obtain ⟨off, hoff, hmodule⟩ := Option.bind_eq_some_iff.1 hk
  rw [moduleAt] at hmodule
  split_ifs at hmodule with htag
  obtain rfl := Option.some.inj hmodule
  by_contra hfree
  rw [Bool.not_eq_true] at hfree
  exact ((accepted_free_iff image haccept hp).1 hfree).2.1
    ⟨off, follow_nextTag_reaches hoff, Or.inl ⟨htag.2.1, hmeets⟩⟩

/-- The page of the module in the block is not handed out. -/
theorem mappedModule_kept :
    pageBit (pmmInitFromMultiboot ⟨0x200000, by decide⟩ mappedModule 0x10000
      ⟨fun _ => 0, fun _ => 0, fun _ => 0, 0, 0⟩).bitmap 4096 = true := by
  have haccept : Accepts mappedModule 0x10000 ⟨fun _ => 0, fun _ => 0, fun _ => 0, 0, 0⟩ := ⟨_, rfl⟩
  have hreported : (0x01000000, 0x01001000) ∈ reportedModules mappedModule 0x10000 := by decide
  exact reported_modules_kept _ haccept hreported (by decide) ⟨0x1000000,
    by decide, by decide, by decide⟩

end SuiraBox.Boot
