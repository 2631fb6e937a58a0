/-
# The configuration record

`kernel/config.c` and `kernel/config.h`: a record of 20 bytes, the fields of `ConfigRecord` in their
order without padding, with the checksum at 16.

The checksum is FNV-1a over the record with a zero in place of the checksum.  Its step, an exclusive
or with the byte and a multiplication with an odd number, can be undone, so no corruption of a
single byte goes unnoticed (`corruption_caught`).  The functions that change a record keep it valid.

Pointers that the functions check against null are not null here.
-/

import SuiraBox.Library.Checksum
import SuiraBox.Library.Runs
import SuiraBox.Mm.Pmm

namespace SuiraBox.Config

open Checksum Mm Runs

/-- `sb_config_record_t`. -/
structure ConfigRecord where
  magic : U32
  version : U16
  size : U16
  sequence : U32
  language : U8
  keyboardLayout : U8
  firstBootCompleted : U8
  reserved : U8
  checksum : U32
  deriving DecidableEq

/-- The bytes of the record up to its checksum. -/
def ConfigRecord.body (r : ConfigRecord) : List U8 :=
  leBytes 4 r.magic.toNat ++ leBytes 2 r.version.toNat ++ leBytes 2 r.size.toNat ++
    leBytes 4 r.sequence.toNat ++ [r.language, r.keyboardLayout, r.firstBootCompleted, r.reserved]

/-- The bytes of the record. -/
def ConfigRecord.bytes (r : ConfigRecord) : List U8 := r.body ++ leBytes 4 r.checksum.toNat

/-- The record that has these bytes. -/
def ConfigRecord.ofBytes (bs : List U8) : ConfigRecord where
  magic := BitVec.ofNat 32 (ofLE (bs.take 4))
  version := BitVec.ofNat 16 (ofLE ((bs.drop 4).take 2))
  size := BitVec.ofNat 16 (ofLE ((bs.drop 6).take 2))
  sequence := BitVec.ofNat 32 (ofLE ((bs.drop 8).take 4))
  language := bs.getD 12 0
  keyboardLayout := bs.getD 13 0
  firstBootCompleted := bs.getD 14 0
  reserved := bs.getD 15 0
  checksum := BitVec.ofNat 32 (ofLE ((bs.drop 16).take 4))

/-- One round of the loop of `checksum_bytes`. -/
def checksumStep (hash : U32) (byte : U8) : U32 := (hash ^^^ byte.setWidth 32) * 16777619

/-- `checksum_bytes`. -/
def checksumBytes (bytes : List U8) : U32 := bytes.foldl checksumStep 2166136261

/-- `sb_config_checksum`. -/
def sbConfigChecksum (r : ConfigRecord) : U32 := checksumBytes { r with checksum := 0 }.bytes

/-- `SB_CONFIG_MAGIC`. -/
def sbConfigMagic : U32 := 0x53424346

/-- `SB_LANGUAGE_SPANISH`, the last language. -/
def sbLanguageSpanish : U32 := 3

/-- `sb_config_defaults`. -/
def sbConfigDefaults : ConfigRecord :=
  let record : ConfigRecord := ⟨sbConfigMagic, 1, 20, 0, 1, 0, 0, 0, 0⟩
  { record with checksum := sbConfigChecksum record }

/-- `sb_config_validate`. -/
def sbConfigValidate (r : ConfigRecord) : ℤ :=
  if r.magic ≠ sbConfigMagic then 0
  else if r.version ≠ 1 then 0
  else if r.size ≠ 20 then 0
  else if sbLanguageSpanish.setWidth 8 < r.language then 0
  else if 1 < r.firstBootCompleted then 0
  else if r.reserved ≠ 0 then 0
  else if r.checksum = sbConfigChecksum r then 1 else 0

/-- `sb_config_set_language`. -/
def sbConfigSetLanguage (r : ConfigRecord) (language : U32) : ℤ × ConfigRecord :=
  if sbLanguageSpanish < language then (-1, r)
  else
    let record := { r with language := language.setWidth 8 }
    (0, { record with checksum := sbConfigChecksum record })

/-- `sb_config_mark_first_boot_complete`. -/
def sbConfigMarkFirstBootComplete (r : ConfigRecord) : ℤ × ConfigRecord :=
  let record := { r with firstBootCompleted := 1, sequence := r.sequence + 1 }
  (0, { record with checksum := sbConfigChecksum record })

/-! ### Records and their bytes -/

@[simp] theorem length_body (r : ConfigRecord) : r.body.length = 16 := by
  simp [ConfigRecord.body]

theorem length_bytes (r : ConfigRecord) : r.bytes.length = 20 := by
  rw [ConfigRecord.bytes, List.length_append, length_body, length_leBytes]

/-- Any 20 bytes are the bytes of a record. -/
theorem bytes_ofBytes {bs : List U8} (hlen : bs.length = 20) :
    (ConfigRecord.ofBytes bs).bytes = bs := by
  have hword : ∀ {w : ℕ} (k n : ℕ), w = 8 * n → k + n ≤ 20 →
      leBytes n (BitVec.ofNat w (ofLE ((bs.drop k).take n))).toNat = (bs.drop k).take n := by
    intro w k n hw hk
    have htake : ((bs.drop k).take n).length = n := by
      rw [List.length_take, List.length_drop]
      omega
    have hbytes := leBytes_ofNat (w := w) ((bs.drop k).take n) (by rw [htake, hw])
    rwa [htake] at hbytes
  have hbyte : ∀ k n, k < 20 →
      (bs.drop k).take (n + 1) = bs.getD k 0 :: (bs.drop (k + 1)).take n := by
    intro k n hk
    have hk : k < bs.length := hlen ▸ hk
    rw [List.drop_eq_getElem_cons hk, List.take_succ_cons, List.getD_eq_getElem _ _ hk]
  have hsingle : [bs.getD 12 0, bs.getD 13 0, bs.getD 14 0, bs.getD 15 0] =
      (bs.drop 12).take 4 := by
    rw [hbyte 12 3 (by decide), hbyte 13 2 (by decide), hbyte 14 1 (by decide),
      hbyte 15 0 (by decide), List.take_zero]
  have hmagic : leBytes 4 (BitVec.ofNat 32 (ofLE (bs.take 4))).toNat = bs.take 4 :=
    hword 0 4 rfl (by decide)
  rw [ConfigRecord.bytes, ConfigRecord.body, ConfigRecord.ofBytes]
  dsimp only
  rw [hmagic, hword 4 2 rfl (by decide), hword 6 2 rfl (by decide), hword 8 4 rfl (by decide),
    hword 16 4 rfl (by decide), hsingle, ← List.take_add, ← List.take_add, ← List.take_add,
    ← List.take_add, ← List.take_add, List.take_of_length_le (by omega)]

/-! ### Valid records -/

/-- What `sb_config_validate` checks. -/
structure Valid (r : ConfigRecord) : Prop where
  magic : r.magic = sbConfigMagic
  version : r.version = 1
  size : r.size = 20
  language : r.language ≤ sbLanguageSpanish.setWidth 8
  firstBootCompleted : r.firstBootCompleted ≤ 1
  reserved : r.reserved = 0
  checksum : r.checksum = sbConfigChecksum r

variable {r r' : ConfigRecord}

/-- A valid record passes. -/
theorem Valid.validate (h : Valid r) : sbConfigValidate r = 1 := by
  rw [sbConfigValidate, if_neg (not_not.2 h.magic), if_neg (not_not.2 h.version),
    if_neg (not_not.2 h.size), if_neg (BitVec.not_lt.2 h.language),
    if_neg (BitVec.not_lt.2 h.firstBootCompleted), if_neg (not_not.2 h.reserved), if_pos h.checksum]

/-- No other one does. -/
theorem validate_eq_zero (h : ¬ Valid r) : sbConfigValidate r = 0 := by
  rw [sbConfigValidate]
  split_ifs with hmagic hversion hsize hlanguage hfirst hreserved hsum
  · rfl
  · rfl
  · rfl
  · rfl
  · rfl
  · rfl
  · exact absurd ⟨not_not.1 hmagic, not_not.1 hversion, not_not.1 hsize, BitVec.not_lt.1 hlanguage,
      BitVec.not_lt.1 hfirst, not_not.1 hreserved, hsum⟩ h
  · rfl

/-- The checksum is taken with its own field at zero. -/
theorem sbConfigChecksum_eq (r : ConfigRecord) :
    sbConfigChecksum r = checksumBytes (r.body ++ leBytes 4 0) := congrArg checksumBytes rfl

/-- The checksum of a record does not depend on the one in it. -/
theorem sbConfigChecksum_congr (h : r.body = r'.body) :
    sbConfigChecksum r = sbConfigChecksum r' := by
  rw [sbConfigChecksum_eq, sbConfigChecksum_eq, h]

/-- A record with good fields is valid once its checksum has been put into it. -/
theorem valid_sealed (hmagic : r.magic = sbConfigMagic) (hversion : r.version = 1)
    (hsize : r.size = 20) (hlanguage : r.language ≤ sbLanguageSpanish.setWidth 8)
    (hfirst : r.firstBootCompleted ≤ 1) (hreserved : r.reserved = 0) {sum : U32}
    (hsum : sum = sbConfigChecksum r) : Valid { r with checksum := sum } :=
  ⟨hmagic, hversion, hsize, hlanguage, hfirst, hreserved, hsum.trans (sbConfigChecksum_congr rfl)⟩

/-! ### What is done to a record -/

inductive ConfigOp
  | setLanguage (language : U32)
  | markFirstBootComplete

def configStep (r : ConfigRecord) : ConfigOp → ℤ × ConfigRecord
  | .setLanguage language => sbConfigSetLanguage r language
  | .markFirstBootComplete => sbConfigMarkFirstBootComplete r

/-- Every operation leaves a valid record. -/
theorem Valid.step (h : Valid r) (op : ConfigOp) : Valid (configStep r op).2 := by
  cases op with
  | setLanguage language =>
    rw [configStep, sbConfigSetLanguage]
    split_ifs with hbad
    · exact h
    · have hgood : language.setWidth 8 ≤ sbLanguageSpanish.setWidth 8 := by
        have hle : language.toNat ≤ 3 := BitVec.not_lt.1 hbad
        rw [BitVec.le_def, BitVec.toNat_setWidth, BitVec.toNat_setWidth]
        exact (Nat.mod_le _ _).trans hle
      exact valid_sealed (r := { r with language := language.setWidth 8 }) h.magic h.version
        h.size hgood
        h.firstBootCompleted h.reserved rfl
  | markFirstBootComplete =>
    exact valid_sealed (r := { r with firstBootCompleted := 1, sequence := r.sequence + 1 })
      h.magic h.version
      h.size h.language (BitVec.le_refl 1) h.reserved rfl

theorem valid_sbConfigDefaults : Valid sbConfigDefaults :=
  valid_sealed rfl rfl rfl (by decide) (by decide) rfl rfl

/-- **The record is valid whatever has been done to it** since it was set to its defaults. -/
theorem valid_of_run (ops : List ConfigOp) :
    sbConfigValidate (run configStep sbConfigDefaults ops) = 1 :=
  (run_invariant (P := Valid) (fun _ op h => h.step op) ops valid_sbConfigDefaults).validate

/-! ### Corrupted records -/

/-- The multiplication can be undone. -/
theorem mul_prime_injective : Function.Injective fun x : U32 => x * 16777619 := by
  intro x y h
  have hundo : ∀ z : U32, z * 16777619 * 899433627 = z := fun z => by
    rw [BitVec.mul_assoc, show (16777619 : U32) * 899433627 = 1#32 from by decide, BitVec.mul_one]
  have hboth := congrArg (· * 899433627) h
  rwa [hundo, hundo] at hboth

/-- A step loses nothing of the sum so far. -/
theorem checksumStep_injective_hash (byte : U8) :
    Function.Injective fun hash => checksumStep hash byte :=
  fun _ _ h => (BitVec.xor_left_inj _).1 (mul_prime_injective h)

/-- A step loses nothing of the byte. -/
theorem checksumStep_injective_byte (hash : U32) : Function.Injective (checksumStep hash) := by
  intro b c h
  have hwide : b.setWidth 32 = c.setWidth 32 := (BitVec.xor_right_inj _).1 (mul_prime_injective h)
  have hback := congrArg (BitVec.setWidth 8) hwide
  rwa [BitVec.setWidth_setWidth_of_le _ (by decide), BitVec.setWidth_setWidth_of_le _ (by decide)]
    at hback

/-- Records that differ in one byte have different checksums. -/
theorem checksumBytes_ne {i : ℕ} {xs ys : List U8} (h : DiffersAt i xs ys) :
    checksumBytes xs ≠ checksumBytes ys :=
  h.foldl_ne checksumStep_injective_hash checksumStep_injective_byte _

/-- Two valid records differ in more than one byte. -/
theorem Valid.not_valid (h : Valid r) {i : ℕ} (hd : DiffersAt i r.bytes r'.bytes) : ¬ Valid r' := by
  intro h'
  have hbody : r.body.length = r'.body.length := by rw [length_body, length_body]
  rcases Nat.lt_or_ge i r.body.length with hlt | hge
  · -- the same checksum in both records, but different bytes in front of it
    obtain ⟨hdiff, hsums⟩ := hd.of_append_left hbody hlt
    have hsum : r.checksum = r'.checksum := leBytes_toNat_inj (by decide) hsums
    rw [h.checksum, h'.checksum, sbConfigChecksum_eq, sbConfigChecksum_eq] at hsum
    exact checksumBytes_ne (hdiff.append _) hsum
  · -- the same bytes in front, so the same checksum
    have hsame := hd.of_append_right hbody hge
    refine hd.ne ?_
    rw [ConfigRecord.bytes, ConfigRecord.bytes, h.checksum, h'.checksum,
      sbConfigChecksum_congr hsame, hsame]

/-- **Every single corrupted byte is caught:** in a valid record, and in general the checksums of
two byte strings that differ in one place are different. -/
theorem corruption_caught :
    (∀ r, sbConfigValidate r = 1 → ∀ i < 20, ∀ b, r.bytes[i]? ≠ some b →
      sbConfigValidate (ConfigRecord.ofBytes (r.bytes.set i b)) = 0) ∧
    ∀ (xs ys : List U8) (i : ℕ), DiffersAt i xs ys → checksumBytes xs ≠ checksumBytes ys := by
  refine ⟨fun r hr i hi b hb => ?_, fun xs ys i => checksumBytes_ne⟩
  have hvalid : Valid r := by
    by_contra hnot
    exact Int.zero_ne_one ((validate_eq_zero hnot).symm.trans hr)
  have hdiff := differsAt_set (by rw [length_bytes]; exact hi : i < r.bytes.length) hb
  rw [← bytes_ofBytes ((List.length_set ..).trans (length_bytes r) : (r.bytes.set i b).length = 20)]
    at hdiff
  exact validate_eq_zero (hvalid.not_valid hdiff)

/-- Another language in the default record. -/
theorem defaults_corruption_caught :
    sbConfigValidate sbConfigDefaults = 1 ∧
    sbConfigValidate (ConfigRecord.ofBytes (sbConfigDefaults.bytes.set 12 2)) = 0 :=
  ⟨valid_sbConfigDefaults.validate,
    corruption_caught.1 sbConfigDefaults valid_sbConfigDefaults.validate 12 (by decide) 2
      (by decide)⟩

end SuiraBox.Config
