/-
# Where the module finder reads

`multiboot_find_module` of `kernel/mm/multiboot_modules.c` with its loads from the
block recorded; the values are those of `multibootFindModule`.

Three things can go wrong.  `offset + tag->size` is a 32-bit sum: a size near 2^32
passes the check, and the walk goes backwards or stands still.  After such a size
the fields of a module may lie behind the block.  And `module_name` and
`str_equal` look for the end of a string without a bound.  The finder ends and
stays inside the block exactly when none of this happens on its way: it comes to
no offset twice, and every module it looks at has its fields and the end of its
string inside.
-/

import SuiraBox.Library.Runs
import SuiraBox.Library.Trace
import SuiraBox.Boot.Modules

namespace SuiraBox.Boot

open ByteMem Mm Trace Runs

/-- When `module_name` stops. -/
def wordEnd (_ : ℕ) (c : U8) : Option Unit := if c ≠ 0 ∧ c ≠ 32 then none else some ()

/-- Character `i` of the string at `name`. -/
def nameChar (m : Mem) (name : U64) (i : ℕ) : U8 := m (name + BitVec.ofNat 64 i).toNat

/-- When `str_equal` stops, and what it returns. -/
def strEnd (m : Mem) (name : U64) (i : ℕ) (x : U8) : Option Bool :=
  let y := nameChar m name i
  if x ≠ 0 ∧ y ≠ 0 then if x ≠ y then some false else none else some (x == y)

/-- `module_name`, recorded. -/
def moduleNameTraced (m : Mem) (fuel : ℕ) (cmdline : U64) : Traced Access (Option U64) := do
  let found ← scan m wordEnd fuel 0 cmdline
  pure (found.map fun _ => cmdline)

/-- `str_equal`, recorded; the string at `b` is the name, which is not part of the
block. -/
def strEqualTraced (m : Mem) (fuel : ℕ) (a b : U64) : Traced Access (Option Bool) :=
  if a = 0 ∨ b = 0 then pure (some false) else scan m (strEnd m b) fuel 0 a

/-- `str_equal(module_name(cmdline), name)`, recorded. -/
def isNamedTraced (m : Mem) (fuel : ℕ) (cmdline name : U64) : Traced Access (Option Bool) := do
  let start ← moduleNameTraced m fuel cmdline
  match start with
  | none => pure none
  | some start => strEqualTraced m fuel start name

/-- `moduleMatches`, recorded. -/
def moduleMatchesTraced (m : Mem) (fuel : ℕ) (tag name : U64) : Traced Access (Option Bool) := do
  let type ← load32 m tag.toNat
  let size ← load32 m (tag.toNat + 4)
  if type = 3 ∧ 16 ≤ size then
    let modEnd ← load32 m (tag.toNat + 12)
    let modStart ← load32 m (tag.toNat + 8)
    if modStart < modEnd then isNamedTraced m fuel (tag + 16) name else pure (some false)
  else pure (some false)

/-- `findModuleLoop`, recorded. -/
def findModuleLoopTraced (m : Mem) (info : U64) (totalSize : U32) (name : U64) :
    ℕ → U32 → Traced Access (Option (Option MultibootModule))
  | 0, _ => pure none
  | fuel + 1, offset =>
    if totalSize.setWidth 64 < offset.setWidth 64 + (8 : U64) then pure (some none)
    else do
      let tag := info + offset.setWidth 64
      let type ← load32 m tag.toNat
      if type = 0 then pure (some none)
      else
        let size ← load32 m (tag.toNat + 4)
        if size < 8 ∨ totalSize < offset + size then pure (some none)
        else
          let found ← moduleMatchesTraced m fuel tag name
          match found with
          | none => pure none
          | some true => pure (some (some ⟨(modStart m tag.toNat).setWidth 64,
              (modEnd m tag.toNat).setWidth 64, tag + 16⟩))
          | some false =>
            findModuleLoopTraced m info totalSize name fuel (offset + ((size + 7) &&& ~~~7))

/-- `multiboot_find_module`, recorded. -/
def multibootFindModuleTraced (m : Mem) (fuel : ℕ) (info name : U64) :
    Traced Access (Option (Option MultibootModule)) :=
  if info = 0 ∨ name = 0 then pure (some none)
  else do
    let totalSize ← load32 m info.toNat
    if totalSize < 16 then pure (some none) else findModuleLoopTraced m info totalSize name fuel 8

variable {m : Mem} {info name : U64} {total off : U32} {fuel : ℕ}

/-! ### The values -/

theorem scan_wordEnd_value (m : Mem) (fuel i : ℕ) (p : U64) :
    (scan m wordEnd fuel i p).value = moduleNameLoop m fuel p := by
  induction fuel generalizing i p with
  | zero => rfl
  | succ fuel ih =>
    rw [value_scan_succ, moduleNameLoop, wordEnd]
    split_ifs
    · exact ih ..
    · rfl

theorem scan_strEnd_value (m : Mem) (fuel i : ℕ) (a b : U64) :
    (scan m (strEnd m b) fuel i a).value = strEqualLoop m fuel a (b + BitVec.ofNat 64 i) := by
  induction fuel generalizing i a with
  | zero => rfl
  | succ fuel ih =>
    have hnext : b + BitVec.ofNat 64 i + 1 = b + BitVec.ofNat 64 (i + 1) := by
      rw [BitVec.ofNat_add, BitVec.add_assoc]
      rfl
    rw [value_scan_succ, strEqualLoop, strEnd, nameChar]
    split_ifs
    · rfl
    · rw [hnext]
      exact ih ..
    · rfl

theorem strEqualTraced_value (m : Mem) (fuel : ℕ) (a b : U64) :
    (strEqualTraced m fuel a b).value = strEqual m fuel a b := by
  rw [strEqualTraced, value_ite, scan_strEnd_value, value_pure, strEqual, BitVec.add_zero]

theorem isNamedTraced_value (m : Mem) (fuel : ℕ) (cmdline name : U64) :
    (isNamedTraced m fuel cmdline name).value =
      (moduleName m fuel cmdline).bind fun start => strEqual m fuel start name := by
  have hname : (moduleNameTraced m fuel cmdline).value = moduleName m fuel cmdline := by
    rw [moduleName, ← scan_wordEnd_value m fuel 0]
    rfl
  rw [isNamedTraced, value_bind, hname]
  cases moduleName m fuel cmdline with
  | none => rfl
  | some start => exact strEqualTraced_value ..

theorem moduleMatchesTraced_value (m : Mem) (fuel : ℕ) (tag name : U64) :
    (moduleMatchesTraced m fuel tag name).value = moduleMatches m fuel tag name := by
  unfold moduleMatchesTraced moduleMatches
  simp only [value_bind, value_ite, value_pure, isNamedTraced_value]
  rw [← ite_and]
  exact if_congr and_assoc rfl rfl

theorem findModuleLoopTraced_value (m : Mem) (info : U64) (total : U32) (name : U64) (fuel : ℕ)
    (off : U32) : (findModuleLoopTraced m info total name fuel off).value =
      findModuleLoop m info total name fuel off := by
  induction fuel generalizing off with
  | zero => rfl
  | succ fuel ih =>
    unfold findModuleLoopTraced findModuleLoop
    simp only [value_bind, value_ite, value_pure, moduleMatchesTraced_value]
    refine if_congr Iff.rfl rfl (if_congr Iff.rfl rfl (if_congr Iff.rfl rfl ?_))
    cases moduleMatches m fuel (info + off.setWidth 64) name with
    | none => rfl
    | some b =>
      cases b with
      | true => rfl
      | false => exact ih _

/-- The recorded finder computes what the plain one does. -/
theorem multibootFindModuleTraced_value (m : Mem) (fuel : ℕ) (info name : U64) :
    (multibootFindModuleTraced m fuel info name).value = multibootFindModule m fuel info name := by
  unfold multibootFindModuleTraced multibootFindModule
  simp only [value_bind, value_ite, value_pure, findModuleLoopTraced_value]
  rfl

/-! ### Safety -/

/-- The finder ends, and all its loads lie in the first `total_size` bytes of the
block. -/
def FinderSafe (m : Mem) (info name : U64) : Prop :=
  ∃ fuel, (multibootFindModuleTraced m fuel info name).value ≠ none ∧
    Safe (Access.Within info.toNat (read32 m info.toNat).toNat)
    (multibootFindModuleTraced m fuel info name)

/-- The tag at `off` passes the checks of the finder. -/
structure TagTaken (m : Mem) (info : U64) (off : U32) : Prop where
  inside : off.toNat + 8 ≤ (read32 m info.toNat).toNat
  type : tagType m (info.toNat + off.toNat) ≠ 0
  size : 8 ≤ tagSize m (info.toNat + off.toNat)
  fits : off + tagSize m (info.toNat + off.toNat) ≤ read32 m info.toNat

/-- The tag at `off` is a module with a string. -/
structure IsModule (m : Mem) (info : U64) (off : U32) : Prop where
  type : tagType m (info.toNat + off.toNat) = 3
  size : 16 ≤ tagSize m (info.toNat + off.toNat)

/-- Character `i` of the string of the module at `off`. -/
def cmdChar (m : Mem) (info : U64) (off : U32) (i : ℕ) : U8 := m (info.toNat + off.toNat + 16 + i)

/-- The module at `off` is the one that is looked for. -/
def ModuleFound (m : Mem) (info name : U64) (off : U32) : Prop :=
  IsModule m info off ∧
    modStart m (info.toNat + off.toNat) < modEnd m (info.toNat + off.toNat) ∧
    ∃ k, (∀ i < k, cmdChar m info off i ≠ 0 ∧ cmdChar m info off i = nameChar m name i) ∧
      cmdChar m info off k = 0 ∧ nameChar m name k = 0

/-- The finder goes on behind the tag at `off`. -/
def GoesOn (m : Mem) (info name : U64) (off : U32) : Prop :=
  TagTaken m info off ∧ ¬ ModuleFound m info name off

/-- Where it goes on, in 32 bits. -/
def nextOffset (m : Mem) (info : U64) (off : U32) : U32 :=
  off + ((tagSize m (info.toNat + off.toNat) + 7) &&& ~~~7)

/-- The fields of the module at `off`, an end of its first word and an end of its
comparison with the name lie inside the block. -/
def ModuleInside (m : Mem) (info name : U64) (off : U32) : Prop :=
  off.toNat + 16 ≤ (read32 m info.toNat).toNat ∧
  (modStart m (info.toNat + off.toNat) < modEnd m (info.toNat + off.toNat) →
    (∃ k, off.toNat + 16 + k < (read32 m info.toNat).toNat ∧
      (cmdChar m info off k = 0 ∨ cmdChar m info off k = 32)) ∧
    ∃ k, off.toNat + 16 + k < (read32 m info.toNat).toNat ∧
      (cmdChar m info off k = 0 ∨ cmdChar m info off k ≠ nameChar m name k))

/-- What the finder reads of the tag at `off` lies inside the block. -/
def TagInside (m : Mem) (info name : U64) (off : U32) : Prop :=
  TagTaken m info off → IsModule m info off → ModuleInside m info name off

theorem strEnd_eq_none {i : ℕ} {x : U8} :
    strEnd m name i x = none ↔ x ≠ 0 ∧ x = nameChar m name i := by
  rw [strEnd]
  split_ifs with hgo hne
  · exact iff_of_false (by simp) fun h => hne h.2
  · exact iff_of_true rfl ⟨hgo.1, not_not.1 hne⟩
  · refine iff_of_false (by simp) fun h => hgo ⟨h.1, ?_⟩
    rw [← h.2]
    exact h.1

theorem strEnd_true {i : ℕ} {x : U8} (h : strEnd m name i x = some true) :
    x = 0 ∧ nameChar m name i = 0 := by
  rw [strEnd] at h
  split_ifs at h with hgo hne
  · exact absurd h (by simp)
  · obtain heq := eq_of_beq (Option.some.inj h)
    rw [not_and_or, not_not, not_not, heq, or_self] at hgo
    exact ⟨heq.trans hgo, hgo⟩

theorem strEnd_zero {i : ℕ} (h : nameChar m name i = 0) : strEnd m name i 0 = some true := by
  rw [strEnd, h, if_neg (by simp)]
  rfl

/-- The comparison has come to its end at character `k`: the answer is whether the
strings end there together. -/
theorem found_iff_of_strEnd {c : ℕ → U8} {k : ℕ} {b : Bool} (hat : strEnd m name k (c k) = some b)
    (hbefore : ∀ j < k, strEnd m name j (c j) = none) :
    b = true ↔ ∃ k, (∀ i < k, c i ≠ 0 ∧ c i = nameChar m name i) ∧ c k = 0 ∧
    nameChar m name k = 0 := by
  constructor
  · rintro rfl
    exact ⟨k, fun i hi => strEnd_eq_none.1 (hbefore i hi), strEnd_true hat⟩
  · rintro ⟨k', hsame, hc, hn⟩
    rcases Nat.lt_trichotomy k k' with hlt | rfl | hlt
    · have := strEnd_eq_none.2 (hsame k hlt)
      rw [hat] at this
      exact absurd this (by simp)
    · rw [hc, strEnd_zero hn] at hat
      exact (Option.some.inj hat).symm
    · exact absurd hc (strEnd_eq_none.1 (hbefore k' hlt)).1

theorem wordEnd_ne_none {i : ℕ} {c : U8} : wordEnd i c ≠ none ↔ c = 0 ∨ c = 32 := by
  rw [wordEnd]
  split_ifs with h
  · exact iff_of_false (fun hne => hne rfl) fun hc => hc.elim h.1 h.2
  · rw [not_and_or, not_not, not_not] at h
    exact iff_of_true (by simp) h

section Strings

variable {base len : ℕ} {p : U64} (hfit : base + len < 2 ^ 64) (hname : name ≠ 0) (hp : p ≠ 0)

include hfit hname hp in
/-- A string that has been compared inside the block. -/
theorem isNamedTraced_answer {b : Bool} (hvalue : (isNamedTraced m fuel p name).value = some b)
    (hsafe : Safe (Access.Within base len) (isNamedTraced m fuel p name)) :
    (∃ k, p.toNat + k < base + len ∧ (m (p.toNat + k) = 0 ∨ m (p.toNat + k) = 32)) ∧
    (∃ k, p.toNat + k < base + len ∧
      (m (p.toNat + k) = 0 ∨ m (p.toNat + k) ≠ nameChar m name k)) ∧
    (b = true ↔ ∃ k, (∀ i < k, m (p.toNat + i) ≠ 0 ∧ m (p.toNat + i) = nameChar m name i) ∧
      m (p.toNat + k) = 0 ∧ nameChar m name k = 0) := by
  unfold isNamedTraced at hvalue hsafe
  rw [value_bind] at hvalue
  rw [safe_bind] at hsafe
  obtain ⟨hword, hsafe⟩ := hsafe
  rw [moduleNameTraced, safe_bind] at hword
  rw [moduleNameTraced, value_bind, value_pure] at hvalue hsafe
  rcases hscan : (scan m wordEnd fuel 0 p).value with _ | u
  · rw [hscan] at hvalue
    exact absurd hvalue (by simp)
  · rw [hscan] at hvalue hsafe
    change (strEqualTraced m fuel p name).value = some b at hvalue
    change Safe _ (strEqualTraced m fuel p name) at hsafe
    rw [strEqualTraced, if_neg (not_or.2 ⟨hp, hname⟩)] at hvalue hsafe
    obtain ⟨k, hk, hend, -⟩ := scan_answer hfit hscan hword.1
    obtain ⟨k', hk', hat, hbefore⟩ := scan_answer hfit hvalue hsafe
    simp only [Nat.zero_add] at hat hbefore
    refine ⟨⟨k, hk, wordEnd_ne_none.1 (by rw [hend]; simp)⟩, ⟨k', hk', ?_⟩,
      found_iff_of_strEnd (c := fun i => m (p.toNat + i)) hat hbefore⟩
    by_contra hgo
    rw [not_or, not_not] at hgo
    rw [strEnd_eq_none.2 hgo] at hat
    exact absurd hat (by simp)

include hfit hname hp in
/-- A string with its ends inside the block is compared inside the block. -/
theorem isNamedTraced_safe (hbase : base ≤ p.toNat) (hfuel : len ≤ fuel)
    (hword : ∃ k, p.toNat + k < base + len ∧ (m (p.toNat + k) = 0 ∨ m (p.toNat + k) = 32))
    (hstr : ∃ k, p.toNat + k < base + len ∧
      (m (p.toNat + k) = 0 ∨ m (p.toNat + k) ≠ nameChar m name k)) :
    Safe (Access.Within base len) (isNamedTraced m fuel p name) ∧
      (isNamedTraced m fuel p name).value ≠ none := by
  obtain ⟨k, hk, hend⟩ := hword
  obtain ⟨k', hk', hend'⟩ := hstr
  obtain ⟨hsafe, hvalue⟩ :=
    scan_within (i := 0) hfit hbase hk (wordEnd_ne_none.2 hend) fuel (by omega)
  have hstop : strEnd m name (0 + k') (m (p.toNat + k')) ≠ none := by
    rw [Nat.zero_add, Ne, strEnd_eq_none, not_and_or, not_not]
    exact hend'
  obtain ⟨hsafe', hvalue'⟩ := scan_within hfit hbase hk' hstop fuel (by omega)
  obtain ⟨u, hu⟩ := Option.ne_none_iff_exists'.1 hvalue
  rw [isNamedTraced, safe_bind, value_bind, moduleNameTraced, safe_bind, value_bind, value_pure, hu]
  change ((_ ∧ _) ∧ Safe _ (strEqualTraced m fuel p name)) ∧
    (strEqualTraced m fuel p name).value ≠ none
  rw [strEqualTraced, if_neg (not_or.2 ⟨hp, hname⟩)]
  exact ⟨⟨⟨hsafe, safe_pure _⟩, hsafe'⟩, hvalue'⟩

end Strings

section Block

variable (hfit : info.toNat + (read32 m info.toNat).toNat < 2 ^ 64) (hname : name ≠ 0)

include hfit in
theorem TagTaken.toNat_tag (h : TagTaken m info off) :
    (info + off.setWidth 64).toNat = info.toNat + off.toNat := by
  have := h.inside
  exact Boot.toNat_tag (by omega)

include hfit in
/-- The string of a module whose fields lie inside the block. -/
theorem TagTaken.toNat_string (h : TagTaken m info off)
    (h16 : off.toNat + 16 ≤ (read32 m info.toNat).toNat) :
    (info + off.setWidth 64 + 16).toNat = info.toNat + off.toNat + 16 ∧
      info + off.setWidth 64 + 16 ≠ 0 := by
  have htag := h.toNat_tag hfit
  have hstring : (info + off.setWidth 64 + 16).toNat = info.toNat + off.toNat + 16 := by
    rw [BitVec.toNat_add, htag, show (16 : U64).toNat = 16 from rfl]
    omega
  refine ⟨hstring, fun hzero => ?_⟩
  rw [hzero] at hstring
  exact absurd hstring (by simp)

include hfit hname in
/-- A tag that has been looked at inside the block: what was read there, and what the
answer means. -/
theorem moduleMatchesTraced_answer (h : TagTaken m info off) {b : Bool}
    (hvalue : (moduleMatchesTraced m fuel (info + off.setWidth 64) name).value = some b)
    (hsafe : Safe (Access.Within info.toNat (read32 m info.toNat).toNat)
      (moduleMatchesTraced m fuel (info + off.setWidth 64) name)) :
    TagInside m info name off ∧ (b = true ↔ ModuleFound m info name off) := by
  have htag := h.toNat_tag hfit
  unfold moduleMatchesTraced at hvalue hsafe
  rw [safe_bind, safe_bind, htag] at hsafe
  obtain ⟨-, -, hsafe⟩ := hsafe
  rw [value_bind, value_bind, htag] at hvalue
  change Safe _ (if tagType m _ = 3 ∧ 16 ≤ tagSize m _ then _ else _) at hsafe
  change Traced.value (if tagType m _ = 3 ∧ 16 ≤ tagSize m _ then _ else _) = _ at hvalue
  rcases Decidable.em (tagType m (info.toNat + off.toNat) = 3 ∧
    16 ≤ tagSize m (info.toNat + off.toNat)) with hmodule | hnot
  · rw [if_pos hmodule, safe_bind, safe_bind, within_load32] at hsafe
    rw [if_pos hmodule, value_bind, value_bind] at hvalue
    obtain ⟨h12, -, hsafe⟩ := hsafe
    have h16 : off.toNat + 16 ≤ (read32 m info.toNat).toNat := by omega
    obtain ⟨hstring, hne⟩ := h.toNat_string hfit h16
    change Safe _ (if modStart m _ < modEnd m _ then _ else _) at hsafe
    change Traced.value (if modStart m _ < modEnd m _ then _ else _) = _ at hvalue
    by_cases hrange : modStart m (info.toNat + off.toNat) < modEnd m (info.toNat + off.toNat)
    · rw [if_pos hrange] at hvalue hsafe
      obtain ⟨hword, hstr, hfound⟩ := isNamedTraced_answer hfit hname hne hvalue hsafe
      rw [hstring] at hword hstr hfound
      have hin : ∀ k, info.toNat + off.toNat + 16 + k < info.toNat + (read32 m info.toNat).toNat →
          off.toNat + 16 + k < (read32 m info.toNat).toNat := fun k hk => by omega
      refine ⟨fun _ _ => ⟨h16, fun _ => ⟨?_, ?_⟩⟩, hfound.trans
        ⟨fun hk => ⟨⟨hmodule.1, hmodule.2⟩, hrange, hk⟩, fun hk => hk.2.2⟩⟩
      · obtain ⟨k, hk, hend⟩ := hword
        exact ⟨k, hin k hk, hend⟩
      · obtain ⟨k, hk, hend⟩ := hstr
        exact ⟨k, hin k hk, hend⟩
    · rw [if_neg hrange] at hvalue
      obtain rfl := Option.some.inj hvalue
      exact ⟨fun _ _ => ⟨h16, fun hr => absurd hr hrange⟩,
        iff_of_false (by simp) fun hf => hrange hf.2.1⟩
  · rw [if_neg hnot] at hvalue
    obtain rfl := Option.some.inj hvalue
    exact ⟨fun _ hm => absurd ⟨hm.type, hm.size⟩ hnot,
      iff_of_false (by simp) fun hf => hnot ⟨hf.1.type, hf.1.size⟩⟩

include hfit hname in
/-- A tag whose strings end inside the block is looked at inside the block. -/
theorem moduleMatchesTraced_safe (h : TagTaken m info off) (hin : TagInside m info name off)
    {fuel : ℕ} (hfuel : (read32 m info.toNat).toNat ≤ fuel) :
    Safe (Access.Within info.toNat (read32 m info.toNat).toNat)
      (moduleMatchesTraced m fuel (info + off.setWidth 64) name) ∧
    (moduleMatchesTraced m fuel (info + off.setWidth 64) name).value ≠ none := by
  have htag := h.toNat_tag hfit
  have hinside := h.inside
  unfold moduleMatchesTraced
  rw [safe_bind, safe_bind, value_bind, value_bind, within_load32, within_load32, htag]
  change (_ ∧ _ ∧ Safe _ (if tagType m _ = 3 ∧ 16 ≤ tagSize m _ then _ else _)) ∧
    Traced.value (if tagType m _ = 3 ∧ 16 ≤ tagSize m _ then _ else _) ≠ none
  rcases Decidable.em (tagType m (info.toNat + off.toNat) = 3 ∧
    16 ≤ tagSize m (info.toNat + off.toNat)) with hmodule | hnot
  · obtain ⟨h16, hstrings⟩ := hin h ⟨hmodule.1, hmodule.2⟩
    obtain ⟨hstring, hne⟩ := h.toNat_string hfit h16
    rw [if_pos hmodule, safe_bind, safe_bind, value_bind, value_bind, within_load32, within_load32]
    change (_ ∧ _ ∧ _ ∧ _ ∧ Safe _ (if modStart m _ < modEnd m _ then _ else _)) ∧
      Traced.value (if modStart m _ < modEnd m _ then _ else _) ≠ none
    by_cases hrange : modStart m (info.toNat + off.toNat) < modEnd m (info.toNat + off.toNat)
    · obtain ⟨⟨k, hk, hend⟩, k', hk', hend'⟩ := hstrings hrange
      obtain ⟨hsafe, hvalue⟩ :=
        isNamedTraced_safe (m := m) hfit hname hne (by rw [hstring]; omega) hfuel
        ⟨k, by rw [hstring]; omega, by rw [hstring]; exact hend⟩
        ⟨k', by rw [hstring]; omega, by rw [hstring]; exact hend'⟩
      rw [if_pos hrange]
      exact ⟨⟨by omega, by omega, by omega, by omega, hsafe⟩, hvalue⟩
    · rw [if_neg hrange]
      exact ⟨⟨by omega, by omega, by omega, by omega, safe_pure _⟩, by simp⟩
  · rw [if_neg hnot]
    exact ⟨⟨by omega, by omega, safe_pure _⟩, by simp⟩

include hfit in
/-- The loop stops at a tag that does not pass the checks. -/
theorem loop_stop (h : ¬ TagTaken m info off) (name : U64) (fuel : ℕ) :
    Safe (Access.Within info.toNat (read32 m info.toNat).toNat)
      (findModuleLoopTraced m info (read32 m info.toNat) name (fuel + 1) off) ∧
    (findModuleLoopTraced m info (read32 m info.toNat) name (fuel + 1) off).value = some none := by
  unfold findModuleLoopTraced
  rcases Decidable.em ((read32 m info.toNat).setWidth 64 < off.setWidth 64 + (8 : U64))
    with hend | hgo
  · rw [if_pos hend]
    exact ⟨safe_pure _, rfl⟩
  rw [if_neg hgo]
  rw [loop_ends_iff, Nat.not_lt] at hgo
  have htag := toNat_tag (by omega : info.toNat + off.toNat < 2 ^ 64)
  dsimp only
  rw [safe_bind, value_bind, within_load32, htag]
  change (_ ∧ Safe _ (if tagType m _ = 0 then _ else _)) ∧
    Traced.value (if tagType m _ = 0 then _ else _) = _
  rcases eq_or_ne (tagType m (info.toNat + off.toNat)) 0 with htype | htype
  · rw [if_pos htype]
    exact ⟨⟨by omega, safe_pure _⟩, rfl⟩
  rw [if_neg htype, safe_bind, value_bind, within_load32]
  change (_ ∧ _ ∧ Safe _ (if tagSize m _ < 8 ∨ _ < off + tagSize m _ then _ else _)) ∧
    Traced.value (if tagSize m _ < 8 ∨ _ < off + tagSize m _ then _ else _) = _
  have hbad : tagSize m (info.toNat + off.toNat) < 8 ∨
      read32 m info.toNat < off + tagSize m (info.toNat + off.toNat) := by
    by_contra hok
    rw [not_or, BitVec.not_lt, BitVec.not_lt] at hok
    exact h ⟨hgo, htype, hok.1, hok.2⟩
  rw [if_pos hbad]
  exact ⟨⟨by omega, by omega, safe_pure _⟩, rfl⟩

include hfit in
/-- At any other tag it looks for the module, and goes on if it is not the one. -/
theorem loop_taken (h : TagTaken m info off) (name : U64) {fuel : ℕ}
    {found : Traced Access (Option Bool)}
    (hfound : moduleMatchesTraced m fuel (info + off.setWidth 64) name = found) :
    (Safe (Access.Within info.toNat (read32 m info.toNat).toNat)
        (findModuleLoopTraced m info (read32 m info.toNat) name (fuel + 1) off) ↔
      Safe (Access.Within info.toNat (read32 m info.toNat).toNat) found ∧
        (found.value = some false → Safe (Access.Within info.toNat (read32 m info.toNat).toNat)
          (findModuleLoopTraced m info (read32 m info.toNat) name fuel (nextOffset m info off)))) ∧
    ((findModuleLoopTraced m info (read32 m info.toNat) name (fuel + 1) off).value ≠ none ↔
      found.value = some true ∨ found.value = some false ∧
        (findModuleLoopTraced m info (read32 m info.toNat) name fuel
          (nextOffset m info off)).value ≠ none) := by
  have htag := h.toNat_tag hfit
  have hinside := h.inside
  have hgo : ¬ (read32 m info.toNat).setWidth 64 < off.setWidth 64 + (8 : U64) := by
    rw [loop_ends_iff]
    omega
  have hok : ¬ (tagSize m (info.toNat + off.toNat) < 8 ∨
      read32 m info.toNat < off + tagSize m (info.toNat + off.toNat)) := by
    rw [not_or, BitVec.not_lt, BitVec.not_lt]
    exact ⟨h.size, h.fits⟩
  have htype : info.toNat ≤ info.toNat + off.toNat ∧
      info.toNat + off.toNat + 4 ≤ info.toNat + (read32 m info.toNat).toNat := by omega
  have hsize : info.toNat ≤ info.toNat + off.toNat + 4 ∧
      info.toNat + off.toNat + 4 + 4 ≤ info.toNat + (read32 m info.toNat).toNat := by omega
  rw [findModuleLoopTraced, if_neg hgo]
  dsimp only
  rw [safe_bind, value_bind, within_load32, htag]
  change ((_ ∧ Safe _ (if tagType m _ = 0 then _ else _)) ↔ _) ∧
    (Traced.value (if tagType m _ = 0 then _ else _) ≠ none ↔ _)
  rw [if_neg h.type, safe_bind, value_bind, within_load32]
  change ((_ ∧ _ ∧ Safe _ (if tagSize m _ < 8 ∨ _ < off + tagSize m _ then _ else _)) ↔ _) ∧
    (Traced.value (if tagSize m _ < 8 ∨ _ < off + tagSize m _ then _ else _) ≠ none ↔ _)
  rw [if_neg hok, hfound, safe_bind, value_bind, and_iff_right htype, and_iff_right hsize]
  rcases found.value with _ | b
  · exact ⟨and_congr_right fun _ => iff_of_true (safe_pure _) fun h => absurd h (by simp), by simp⟩
  · cases b with
    | true =>
      exact ⟨and_congr_right fun _ => iff_of_true (safe_pure _) fun h =>
        absurd h (by simp), by simp⟩
    | false =>
      exact ⟨and_congr_right fun _ => ⟨fun hs _ => hs, fun hs => hs rfl⟩,
        by simp [nextOffset, tagSize]⟩

include hfit hname in
/-- **A loop that has ended inside the block** has come to a tag where it stops, and all
it has read on its way lies inside. -/
theorem loop_spec
    (hvalue : (findModuleLoopTraced m info (read32 m info.toNat) name fuel off).value ≠ none)
    (hsafe : Safe (Access.Within info.toNat (read32 m info.toNat).toNat)
      (findModuleLoopTraced m info (read32 m info.toNat) name fuel off)) :
    (∃ k, ¬ GoesOn m info name ((nextOffset m info)^[k] off)) ∧
    ∀ k, (∀ j < k, GoesOn m info name ((nextOffset m info)^[j] off)) →
      TagInside m info name ((nextOffset m info)^[k] off) := by
  induction fuel generalizing off with
  | zero => exact absurd rfl hvalue
  | succ fuel ih =>
    rcases Classical.em (TagTaken m info off) with htaken | hstop
    · obtain ⟨hsafe', hvalue'⟩ := loop_taken hfit htaken name rfl
      obtain ⟨hfound, hnext⟩ := hsafe'.1 hsafe
      rcases hvalue'.1 hvalue with htrue | ⟨hfalse, hgo⟩
      · -- found here
        obtain ⟨hin, hiff⟩ := moduleMatchesTraced_answer hfit hname htaken htrue hfound
        refine ⟨⟨0, fun hgo => hgo.2 (hiff.1 rfl)⟩, fun k hk => ?_⟩
        rcases k with _ | k
        · exact hin
        · exact absurd (hiff.1 rfl) (hk 0 (Nat.succ_pos k)).2
      · obtain ⟨hin, -⟩ := moduleMatchesTraced_answer hfit hname htaken hfalse hfound
        obtain ⟨⟨k, hk⟩, hall⟩ := ih hgo (hnext hfalse)
        refine ⟨⟨k + 1, hk⟩, fun k hk => ?_⟩
        rcases k with _ | k
        · exact hin
        · exact hall k fun j hj => hk (j + 1) (Nat.succ_lt_succ hj)
    · refine ⟨⟨0, fun hgo => hstop hgo.1⟩, fun k hk => ?_⟩
      rcases k with _ | k
      · exact fun htaken => absurd htaken hstop
      · exact absurd (hk 0 (Nat.succ_pos k)).1 hstop

/-- The loop ends from `off` on, inside the block. -/
def LoopEnds (m : Mem) (info name : U64) (fuel : ℕ) (off : U32) : Prop :=
  Safe (Access.Within info.toNat (read32 m info.toNat).toNat)
    (findModuleLoopTraced m info (read32 m info.toNat) name fuel off) ∧
  (findModuleLoopTraced m info (read32 m info.toNat) name fuel off).value ≠ none

include hfit hname in
/-- One round: at a tag inside the block the loop ends, or it goes on and has to end from the next
tag on. -/
theorem loopEnds_succ (hin : TagInside m info name off) (hfuel : (read32 m info.toNat).toNat ≤ fuel)
    (hnext : GoesOn m info name off → LoopEnds m info name fuel (nextOffset m info off)) :
    LoopEnds m info name (fuel + 1) off := by
  rcases Classical.em (TagTaken m info off) with htaken | hstop
  · obtain ⟨hsafe, hvalue⟩ := moduleMatchesTraced_safe hfit hname htaken hin hfuel
    obtain ⟨b, hb⟩ := Option.ne_none_iff_exists'.1 hvalue
    obtain ⟨-, hiff⟩ := moduleMatchesTraced_answer hfit hname htaken hb hsafe
    obtain ⟨hsafe', hvalue'⟩ := loop_taken hfit htaken name rfl
    cases b with
    | true =>
      exact ⟨hsafe'.2 ⟨hsafe, fun hfalse => absurd (hb.symm.trans hfalse) (by simp)⟩,
        hvalue'.2 (Or.inl hb)⟩
    | false =>
      obtain ⟨hsafe'', hvalue''⟩ := hnext ⟨htaken, fun hf => absurd (hiff.2 hf) (by simp)⟩
      exact ⟨hsafe'.2 ⟨hsafe, fun _ => hsafe''⟩, hvalue'.2 (Or.inr ⟨hb, hvalue''⟩)⟩
  · obtain ⟨hsafe, hvalue⟩ := loop_stop hfit hstop name fuel
    exact ⟨hsafe, by rw [hvalue]; simp⟩

include hfit hname in
/-- **A way that stops, inside the block all along,** is a loop that ends. -/
theorem loop_ends {k : ℕ} (hk : ¬ GoesOn m info name ((nextOffset m info)^[k] off))
    (hin : ∀ k, (∀ j < k, GoesOn m info name ((nextOffset m info)^[j] off)) →
      TagInside m info name ((nextOffset m info)^[k] off))
    (hfuel : (read32 m info.toNat).toNat + k < fuel) : LoopEnds m info name fuel off := by
  induction k generalizing off fuel with
  | zero =>
    obtain ⟨fuel, rfl⟩ := Nat.exists_eq_succ_of_ne_zero (by omega : fuel ≠ 0)
    exact loopEnds_succ hfit hname (hin 0 fun j hj => absurd hj (Nat.not_lt_zero j)) (by omega)
      fun hgo => absurd hgo hk
  | succ k ih =>
    obtain ⟨fuel, rfl⟩ := Nat.exists_eq_succ_of_ne_zero (by omega : fuel ≠ 0)
    refine loopEnds_succ hfit hname (hin 0 fun j hj => absurd hj (Nat.not_lt_zero j)) (by omega)
      fun hgo => ih hk (fun k' hk' => hin (k' + 1) fun j hj => ?_) (by omega)
    rcases j with _ | j
    · exact hgo
    · exact hk' j (Nat.lt_of_succ_lt_succ hj)

/-- The finder is its loop from offset 8 on. -/
theorem multibootFindModuleTraced_loop (hinfo : info ≠ 0) (hname : name ≠ 0)
    (htotal : 16 ≤ read32 m info.toNat) (fuel : ℕ) :
    (Safe (Access.Within info.toNat (read32 m info.toNat).toNat)
        (multibootFindModuleTraced m fuel info name) ↔
      Safe (Access.Within info.toNat (read32 m info.toNat).toNat)
        (findModuleLoopTraced m info (read32 m info.toNat) name fuel 8)) ∧
    (multibootFindModuleTraced m fuel info name).value =
      (findModuleLoopTraced m info (read32 m info.toNat) name fuel 8).value := by
  have hin : info.toNat ≤ info.toNat ∧
      info.toNat + 4 ≤ info.toNat + (read32 m info.toNat).toNat := by bv_omega
  rw [multibootFindModuleTraced, if_neg (not_or.2 ⟨hinfo, hname⟩), safe_bind, value_bind,
    within_load32, value_load32, if_neg (BitVec.not_lt.2 htotal), and_iff_right hin]
  exact ⟨Iff.rfl, rfl⟩

/-- The finder on its `k`-th tag. -/
def offsetAt (m : Mem) (info : U64) (k : ℕ) : U32 := (nextOffset m info)^[k] 8

/-- It comes as far as its `k`-th tag. -/
def Visits (m : Mem) (info name : U64) (k : ℕ) : Prop :=
  ∀ j < k, GoesOn m info name (offsetAt m info j)

include hfit hname in
theorem FinderSafe.spec (h : FinderSafe m info name) (hinfo : info ≠ 0)
    (htotal : 16 ≤ read32 m info.toNat) :
    (∃ k, ¬ GoesOn m info name (offsetAt m info k)) ∧
      ∀ k, Visits m info name k → TagInside m info name (offsetAt m info k) := by
  obtain ⟨fuel, hvalue, hsafe⟩ := h
  obtain ⟨hsafe', hvalue'⟩ := multibootFindModuleTraced_loop hinfo hname htotal fuel
  rw [hvalue'] at hvalue
  exact loop_spec hfit hname hvalue (hsafe'.1 hsafe)

end Block

/-- **When the module finder is safe.**  It ends and stays inside the block exactly when
it comes to no offset twice and every module on its way has its fields, the end
of its first word and the end of its comparison with the name inside the block. -/
theorem finder_safe_iff (hinfo : info ≠ 0) (hname : name ≠ 0) (htotal : 16 ≤ read32 m info.toNat)
    (hfit : info.toNat + (read32 m info.toNat).toNat < 2 ^ 64) :
    FinderSafe m info name ↔
      (∀ i j, i < j → Visits m info name j → offsetAt m info i ≠ offsetAt m info j) ∧
      ∀ k, Visits m info name k → TagInside m info name (offsetAt m info k) := by
  have hfinite : Finite U32 := Finite.of_injective BitVec.toFin fun _ _ => BitVec.eq_of_toFin_eq
  have hstop := exists_stop_iff (nextOffset m info) (GoesOn m info name) 8
  constructor
  · intro hsafe
    obtain ⟨hends, hin⟩ := hsafe.spec hfit hname hinfo htotal
    exact ⟨hstop.1 hends, hin⟩
  · rintro ⟨hfresh, hin⟩
    obtain ⟨k, hk⟩ := hstop.2 hfresh
    obtain ⟨hsafe, hvalue⟩ := loop_ends hfit hname hk hin (Nat.lt_succ_self _)
    obtain ⟨hsafe', hvalue'⟩ := multibootFindModuleTraced_loop hinfo hname htotal
      ((read32 m info.toNat).toNat + k + 1)
    exact ⟨_, by rw [hvalue']; exact hvalue, hsafe'.2 hsafe⟩

/-- A block of 24 bytes whose first tag has the size FFFFFFFFh. -/
def spinBlock : Mem := bytesAt 0x10000
  [24, 0, 0, 0, 0, 0, 0, 0, 1, 0, 0, 0, 255, 255, 255, 255, 0, 0, 0, 0, 0, 0, 0, 0]

/-- A block of 32 bytes that ends in the middle of a module's string. -/
def openStringBlock : Mem := bytesAt 0x10000
  [32, 0, 0, 0, 0, 0, 0, 0,
    3, 0, 0, 0, 24, 0, 0, 0, 0, 0, 0, 1, 0, 16, 0, 1, 97, 97, 97, 97, 97, 97, 97, 97]

/-- On the first block the finder stays at offset 8 for ever; on the second it reads
behind the end. -/
theorem finder_not_safe :
    ¬ FinderSafe spinBlock 0x10000 0x10010 ∧ ¬ FinderSafe openStringBlock 0x10000 0x10018 := by
  constructor
  · intro hsafe
    obtain ⟨⟨k, hk⟩, -⟩ := hsafe.spec (by decide) (by decide) (by decide) (by decide)
    have hfixed : offsetAt spinBlock 0x10000 k = 8 := Function.iterate_fixed (by decide) k
    rw [hfixed] at hk
    exact hk ⟨⟨by decide, by decide, by decide, by decide⟩, fun hf => absurd hf.1.type (by decide)⟩
  · intro hsafe
    obtain ⟨-, hin⟩ := hsafe.spec (by decide) (by decide) (by decide) (by decide)
    have hmodule := hin 0 (fun j hj => absurd hj (Nat.not_lt_zero j))
      ⟨by decide, by decide, by decide, by decide⟩ ⟨by decide, by decide⟩
    obtain ⟨⟨k, hk, hend⟩, -⟩ := hmodule.2 (by decide)
    have hk : k < 8 := by
      have htotal : (read32 openStringBlock (0x10000 : U64).toNat).toNat = 32 := by decide
      have hoff : (offsetAt openStringBlock 0x10000 0).toNat = 8 := rfl
      rw [htotal, hoff] at hk
      omega
    have hchars : ∀ k < 8, ¬ (cmdChar openStringBlock 0x10000 8 k = 0 ∨
        cmdChar openStringBlock 0x10000 8 k = 32) := by decide
    exact hchars k hk hend

/-- A module `a` of one page at 16 MiB and the end of the block, and behind it the name `b`. -/
def otherBlock : Mem := bytesAt 0x10000 ([40, 0, 0, 0, 0, 0, 0, 0] ++
  [3, 0, 0, 0, 18, 0, 0, 0, 0, 0, 0, 1, 0, 16, 0, 1, 97, 0, 0, 0, 0, 0, 0, 0] ++
  [0, 0, 0, 0, 8, 0, 0, 0] ++ [98, 0])

/-- The finder reads the module, goes on to the end of the block and stops there. -/
theorem otherBlock_safe : FinderSafe otherBlock 0x10000 0x10028 := by
  have hnext : offsetAt otherBlock 0x10000 1 = 32 := by decide
  have hstop : ¬ TagTaken otherBlock 0x10000 32 := fun h => absurd h.type (not_not.2 (by decide))
  have hvisits : ∀ {k}, Visits otherBlock 0x10000 0x10028 k → k ≤ 1 := by
    intro k hk
    refine Nat.not_lt.1 fun hlt => hstop ?_
    have hgoes := (hk 1 hlt).1
    rwa [hnext] at hgoes
  refine (finder_safe_iff (by decide) (by decide) (by decide) (by decide)).2
    ⟨fun i j hij hj => ?_, fun k hk => ?_⟩
  · have hle := hvisits hj
    obtain rfl : i = 0 := by omega
    obtain rfl : j = 1 := by omega
    rw [hnext]
    decide
  · rcases (show k = 0 ∨ k = 1 by have := hvisits hk; omega) with rfl | rfl
    · intro _ _
      exact ⟨by decide, fun _ => ⟨⟨1, by decide, by decide⟩, 0, by decide, by decide⟩⟩
    · rw [hnext]
      exact fun htaken => absurd htaken hstop

end SuiraBox.Boot
