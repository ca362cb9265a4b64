import MediaService.DbModels.Rows
import MediaService.Foundation.Trimming

/-! Settings, and the code the service calls but does not contain: the content
sniffer, the digest, the slug library, the Unicode database and the order in
which a bucket is listed. The latter are fields of `Env`, with the documented
facts about them that the service relies on; every modelled function takes the
environment it runs in. -/

namespace MediaService

abbrev Bytes := List UInt8

structure Settings where
  s3BucketPublic : String
  s3BucketPrivate : String
  s3BucketSensitive : String
  s3BucketTemp : String
  s3BucketArchive : String
  s3PresignedUrlExpireSeconds : ℕ
  mediaMaxUploadSizeBytes : ℕ
  mediaMaxUploadSizeBytesPerCategory : List (String × ℕ)
  mediaExportMaxObjects : ℕ
  mediaExportMaxTotalBytes : ℕ
  mediaExportArchiveTtlSeconds : ℕ
  mediaImportMaxManifestBytes : ℕ
  mediaImportMaxArchiveBytes : ℕ
  mediaImportMaxObjects : ℕ
  mediaImportMaxTotalBytes : ℕ
  mediaImportMaxCategories : ℕ
  mediaImportMaxCategoryDepth : ℕ
  mediaDefaultQuotaBytes : Option ℕ
  mediaDefaultQuotaObjects : Option ℕ
  mediaShareDefaultExpiresSeconds : ℕ
  mediaShareMaxExpiresSeconds : ℕ
  one_le_expireSeconds : 1 ≤ s3PresignedUrlExpireSeconds
  one_le_maxUploadSize : 1 ≤ mediaMaxUploadSizeBytes
  one_le_categoryDepth : 1 ≤ mediaImportMaxCategoryDepth

structure Env where
  settings : Settings
  /-- How many leading bytes `get_object_head` fetches. -/
  headLength : ℕ
  /-- `filetype.guess(head).mime`. -/
  sniffMime : Bytes → Option String
  /-- `hashlib.sha256(content).hexdigest()`. -/
  sha256Hex : Bytes → String
  /-- `slugify` of the slug library. -/
  slugify : String → String
  /-- `str.lower`. -/
  lower : String → String
  /-- `unicodedata.normalize("NFC", ·)`. -/
  nfc : String → String
  /-- `unicodedata.category(ch).startswith("C")`. -/
  isOtherCategory : Char → Bool
  /-- `unicodedata.decimal(ch)`. -/
  decimal : Char → Option ℕ
  /-- The order in which a bucket with these keys is listed. -/
  listing : List String → List String
  lower_ascii : ∀ s : String, (∀ c ∈ s.toList, c.toNat < 128) →
    lower s = String.ofList (s.toList.map Char.toLower)
  listing_perm : ∀ keys, (listing keys).Perm keys

/-! ### String methods -/

/-- `str.isspace` of one character. -/
def isSpace (c : Char) : Bool :=
  let n := c.toNat
  (9 ≤ n ∧ n ≤ 13) ∨ (28 ≤ n ∧ n ≤ 32) ∨ n = 0x85 ∨ n = 0xa0 ∨ n = 0x1680 ∨
    (0x2000 ≤ n ∧ n ≤ 0x200a) ∨ n = 0x2028 ∨ n = 0x2029 ∨ n = 0x202f ∨ n = 0x205f ∨ n = 0x3000

/-- `str.strip` with no argument. -/
def strip (s : String) : String := String.ofList ((s.toList.dropWhile isSpace).rdropWhile isSpace)

theorem toList_strip (s : String) : (strip s).toList = Foundation.trim isSpace s.toList :=
  String.toList_ofList

/-- `str.replace` of one character by another. -/
def replaceChar (old new : Char) (s : String) : String :=
  String.ofList (s.toList.map fun c => if c = old then new else c)

/-- `s.split("/")[-1]`. -/
def lastSegment (s : String) : String := String.ofList (s.toList.rtakeWhile (· ≠ '/'))

/-- `str.replace(pattern, "")`; `skip` counts what is left of a match. -/
def removeAll (pattern : List Char) : ℕ → List Char → List Char
  | _, [] => []
  | skip + 1, _ :: cs => removeAll pattern skip cs
  | 0, c :: cs =>
    if pattern.isPrefixOf (c :: cs) then removeAll pattern (pattern.length - 1) cs
    else c :: removeAll pattern 0 cs

/-- A digit of `int(·, 16)`: a letter from a to f, or any decimal digit. -/
def hexValue (env : Env) (c : Char) : Option ℕ :=
  if 'a' ≤ c ∧ c ≤ 'f' then some (c.toNat - 'a'.toNat + 10)
  else if 'A' ≤ c ∧ c ≤ 'F' then some (c.toNat - 'A'.toNat + 10)
  else env.decimal c

/-- Digits with single underscores between them; `afterDigit` where one may come. -/
def hexDigits (env : Env) : Bool → ℕ → List Char → Option ℕ
  | afterDigit, n, [] => if afterDigit then some n else none
  | afterDigit, n, c :: cs =>
    if c = '_' then if afterDigit then hexDigits env false n cs else none
    else
      match hexValue env c with
      | none => none
      | some d => hexDigits env true (16 * n + d) cs

/-- `int(s, 16)`, for a string without a minus sign. -/
def parseHex (env : Env) (s : List Char) : Option ℕ :=
  let s := (s.dropWhile isSpace).rdropWhile isSpace
  let s := if s.head? = some '+' then s.tail else s
  match s with
  | '0' :: 'x' :: cs | '0' :: 'X' :: cs =>
    hexDigits env false 0 (if cs.head? = some '_' then cs.tail else cs)
  | cs => hexDigits env false 0 cs

/-- `uuid.UUID(s)`; `none` where it raises. -/
def parseUuid (env : Env) (s : String) : Option UUID :=
  let isBrace := fun c => c = '\x7b' ∨ c = '\x7d'
  let hex := removeAll "uuid:".toList 0 (removeAll "urn:".toList 0 s.toList)
  let hex := ((hex.dropWhile isBrace).rdropWhile isBrace).filter (· ≠ '-')
  if hex.length ≠ 32 then none
  else (parseHex env hex).map fun n => ⟨BitVec.ofNat 128 n⟩

theorem slash_not_mem_lastSegment (s : String) : '/' ∉ (lastSegment s).toList := by
  rw [lastSegment, String.toList_ofList]
  intro h
  simpa using List.mem_rtakeWhile_imp h

/-! ### Spelled identifiers -/

/-- The decimal value of the ASCII digits. -/
def DecimalAscii (env : Env) : Prop :=
  ∀ d : Fin 10, env.decimal (Nat.digitChar d) = some d.val

theorem removeAll_of_not_mem {p : Char} {pattern cs : List Char} (hp : pattern.head? = some p)
    (h : p ∉ cs) : removeAll pattern 0 cs = cs := by
  obtain ⟨ps, rfl⟩ := List.head?_eq_some_iff.mp hp
  induction cs with
  | nil => rfl
  | cons c cs ih =>
    rw [List.mem_cons, not_or] at h
    rw [removeAll, if_neg, ih h.2]
    simp [List.isPrefixOf, h.1]

variable {env : Env}

theorem hexValue_digitChar (hdecimal : DecimalAscii env) (d : Fin 16) :
    hexValue env (Nat.digitChar d) = some d.val := by
  have hletters : ∀ d : Fin 16, ¬ ('A' ≤ Nat.digitChar d ∧ Nat.digitChar d ≤ 'F') ∧
      (d.val < 10 ∨ ('a' ≤ Nat.digitChar d ∧ Nat.digitChar d ≤ 'f') ∧
        (Nat.digitChar d).toNat - 'a'.toNat + 10 = d.val) ∧
      (('a' ≤ Nat.digitChar d ∧ Nat.digitChar d ≤ 'f') → 10 ≤ d.val) := by
    decide
  obtain ⟨hupper, hvalue, hlower⟩ := hletters d
  unfold hexValue
  rcases hvalue with hd | ⟨hletter, hvalue⟩
  · rw [if_neg fun h => absurd (hlower h) (by omega), if_neg hupper]
    exact hdecimal ⟨d, hd⟩
  · rw [if_pos hletter, hvalue]

theorem hexDigits_map (hdecimal : DecimalAscii env) (ds : List (Fin 16)) :
    ∀ n, hexDigits env true n (ds.map fun d : Fin 16 => Nat.digitChar d) =
      some (ds.foldl (fun n d => 16 * n + d.val) n) := by
  induction ds with
  | nil => exact fun n => rfl
  | cons d ds ih =>
    intro n
    have hunderscore : Nat.digitChar d ≠ '_' :=
      (by decide : ∀ d : Fin 16, Nat.digitChar d ≠ '_') d
    rw [List.map_cons, hexDigits, if_neg hunderscore, hexValue_digitChar hdecimal]
    exact ih _

/-- The digits of a UUID, most significant first. -/
def UUID.digits (u : UUID) : List (Fin 16) :=
  (List.range 32).map fun i => (u.val.extractLsb' (4 * (31 - i)) 4).toFin

theorem UUID.hex_eq_map (u : UUID) : u.hex = u.digits.map fun d : Fin 16 => Nat.digitChar d := by
  rw [UUID.hex, UUID.digits, List.map_map]
  rfl

theorem UUID.foldl_digits (u : UUID) :
    u.digits.foldl (fun n d => 16 * n + d.val) 0 = u.val.toNat := by
  have hprefix : ∀ k ≤ 32, ((List.range k).map fun i =>
      (u.val.extractLsb' (4 * (31 - i)) 4).toFin).foldl
        (fun n (d : Fin 16) => 16 * n + d.val) 0 = u.val.toNat / 16 ^ (32 - k) := by
    intro k hk
    induction k with
    | zero =>
      exact (Nat.div_eq_of_lt (by simpa using u.val.isLt)).symm
    | succ k ih =>
      have hdigit : (u.val.extractLsb' (4 * (31 - k)) 4).toFin.val =
          u.val.toNat / 16 ^ (31 - k) % 16 := by
        rw [BitVec.val_toFin, BitVec.extractLsb'_toNat, Nat.shiftRight_eq_div_pow, Nat.pow_mul]
      rw [List.range_succ, List.map_append, List.foldl_append, ih (by omega), List.map_singleton,
        List.foldl_cons, List.foldl_nil, hdigit, show 32 - k = 31 - k + 1 by omega, Nat.pow_succ,
        ← Nat.div_div_eq_div_mul, show 32 - (k + 1) = 31 - k by omega]
      exact Nat.div_add_mod _ _
  have hall := hprefix 32 (Nat.le_refl 32)
  rwa [Nat.sub_self, Nat.pow_zero, Nat.div_one] at hall

theorem parseHex_hex (hdecimal : DecimalAscii env) (u : UUID) :
    parseHex env u.hex = some u.val.toNat := by
  have hplain : ∀ c ∈ "0123456789abcdef".toList,
      isSpace c = false ∧ c ≠ '+' ∧ c ≠ 'x' ∧ c ≠ 'X' ∧ c ≠ '_' := by
    have hall : ("0123456789abcdef".toList.all fun c => decide (isSpace c = false ∧ c ≠ '+' ∧
        c ≠ 'x' ∧ c ≠ 'X' ∧ c ≠ '_')) = true := by decide
    exact fun c hc => of_decide_eq_true (List.all_eq_true.mp hall c hc)
  have hchars := fun c hc => hplain c (UUID.mem_hex (u := u) (c := c) hc)
  have hread := hexDigits_map hdecimal u.digits 0
  rw [u.foldl_digits, ← u.hex_eq_map] at hread
  obtain ⟨c, d, cs, hhex⟩ : ∃ c d cs, u.hex = c :: d :: cs := by
    match hh : u.hex with
    | c :: d :: cs => exact ⟨c, d, cs, rfl⟩
    | [] | [_] => exact absurd (hh ▸ u.hex_length) (by simp)
  rw [hhex] at hchars hread ⊢
  obtain ⟨-, hplus, -, -, hunderscore⟩ := hchars c List.mem_cons_self
  obtain ⟨-, -, hx, hX, -⟩ := hchars d (List.mem_cons_of_mem c List.mem_cons_self)
  have htrim : ((c :: d :: cs).dropWhile isSpace).rdropWhile isSpace = c :: d :: cs :=
    Foundation.trim_eq_self fun c hc => (hchars c hc).1
  unfold parseHex
  rw [htrim]
  simp only [List.head?_cons, Option.some.injEq, hplus, if_false]
  split
  · rename_i he
    exact absurd (List.cons.inj (List.cons.inj he).2).1 hx
  · rename_i he
    exact absurd (List.cons.inj (List.cons.inj he).2).1 hX
  · rw [← hread]
    simp only [hexDigits, if_neg hunderscore]

/-- `UUID(str(u))` is `u`. -/
theorem parseUuid_str (hdecimal : DecimalAscii env) (u : UUID) :
    parseUuid env u.str = some u := by
  have hmem : ∀ c ∈ u.chars, c ∈ '-' :: "0123456789abcdef".toList := by
    intro c hc
    by_cases hd : c = '-'
    · exact hd ▸ List.mem_cons_self
    · have hf : c ∈ u.chars.filter (· ≠ '-') := List.mem_filter.mpr ⟨hc, by simpa using hd⟩
      exact List.mem_cons_of_mem _ (UUID.mem_hex (u.filter_chars ▸ hf))
  have hu : 'u' ∉ u.chars := fun h => absurd (hmem _ h) (by decide)
  have hnone : ('-' :: "0123456789abcdef".toList).any
      (fun c => decide (c = '\x7b' ∨ c = '\x7d')) = false := by decide
  have hbrace : ∀ c ∈ u.chars, decide (c = '\x7b' ∨ c = '\x7d') = false := fun c hc =>
    Bool.not_eq_true _ ▸ List.any_eq_false.mp hnone c (hmem c hc)
  have hstr : u.str.toList = u.chars := String.toList_ofList
  have hurn : removeAll "urn:".toList 0 u.chars = u.chars := removeAll_of_not_mem (by decide) hu
  have huuid : removeAll "uuid:".toList 0 u.chars = u.chars := removeAll_of_not_mem (by decide) hu
  have htrim := Foundation.trim_eq_self hbrace
  unfold Foundation.trim at htrim
  rw [parseUuid, hstr, hurn, huuid]
  simp only [htrim, u.filter_chars, u.hex_length, ne_eq, not_true_eq_false,
    if_false, parseHex_hex hdecimal, Option.map_some, BitVec.ofNat_toNat, BitVec.setWidth_eq]

end MediaService
