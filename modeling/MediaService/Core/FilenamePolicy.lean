import MediaService.Core.Validation
import MediaService.Foundation.Json
import MediaService.Foundation.Trimming

/-! The filename policy over every `str`, lone surrogates included. Its two sides agree: the
importing side makes a name that the checking side accepts as it is, and leaves alone a name
that was accepted. Both come down to one description of an accepted name. -/

namespace MediaService

open Foundation

/-! ### The two functions -/

/-- What the policy uses of `unicodedata` and `repr`. -/
structure UnicodeLibrary where
  /-- `unicodedata.normalize("NFC", ·)`. -/
  nfc : CodePoints → CodePoints
  /-- `unicodedata.category(ch).startswith("C")`. -/
  isOther : ℕ → Bool
  repr : ℕ → CodePoints

inductive FilenameError where
  | dots
  | tooLong
  | characters (bad : List ℕ)
  deriving DecidableEq

variable (lib : UnicodeLibrary)

/-- `str(exc)`. -/
def FilenameError.message : FilenameError → CodePoints
  | .dots => codePoints "filename must not be empty or made only of dots"
  | .tooLong => codePoints s!"filename is longer than {maxFilenameLength} characters"
  | .characters bad =>
    codePoints ("filename contains characters that are not allowed " ++
      "(path separators, < > : \" | ? *, or control/format characters): ") ++
      (codePoints " ").intercalate (bad.map lib.repr)

/-- `str.isspace` of one code point. -/
def isSpacePoint (n : ℕ) : Bool :=
  (9 ≤ n ∧ n ≤ 13) ∨ (28 ≤ n ∧ n ≤ 32) ∨ n = 0x85 ∨ n = 0xa0 ∨ n = 0x1680 ∨
    (0x2000 ≤ n ∧ n ≤ 0x200a) ∨ n = 0x2028 ∨ n = 0x2029 ∨ n = 0x202f ∨ n = 0x205f ∨ n = 0x3000

/-- `is_forbidden_filename_char`. -/
def isForbiddenPoint (n : ℕ) : Bool :=
  n ∈ forbiddenFilenameChars.map Char.toNat ∨ lib.isOther n

/-- `not name or set(name) <= {"."}`. -/
def isDotsOnly (name : CodePoints) : Bool := name.all (· = 0x2e)

/-- `validate_filename`. -/
def validatedFilename (value : CodePoints) : Except FilenameError CodePoints :=
  let name := trim isSpacePoint (lib.nfc value)
  if isDotsOnly name then .error .dots
  else if maxFilenameLength < name.length then .error .tooLong
  else
    let bad := (name.filter (isForbiddenPoint lib)).dedup.insertionSort (· ≤ ·)
    if bad ≠ [] then .error (.characters bad) else .ok name

/-- `name.replace("\\", "/").rsplit("/", 1)[-1]`. -/
def lastSegmentPoints (name : CodePoints) : CodePoints :=
  (name.map fun c => if c = 0x5c then 0x2f else c).rtakeWhile (· ≠ 0x2f)

/-- The underscore for every character that no filename may carry. -/
def replaceForbidden (name : CodePoints) : CodePoints :=
  name.map fun c => if isForbiddenPoint lib c then 0x5f else c

/-- `sanitize_filename`. -/
def sanitizedFilename (value : Option CodePoints) : CodePoints :=
  let name := trim isSpacePoint (lib.nfc (value.getD []))
  let name := replaceForbidden lib (lastSegmentPoints name)
  let name := trim isSpacePoint ((trim isSpacePoint name).take maxFilenameLength)
  if isDotsOnly name then codePoints fallbackFilename else name

/-! ### Accepted names -/

/-- What is documented of NFC and of the categories. -/
structure UnicodeLaws (lib : UnicodeLibrary) : Prop where
  nfc_nfc : ∀ s, lib.nfc (lib.nfc s) = lib.nfc s
  nfc_infix : ∀ s t, lib.nfc s = s → t <:+: s → lib.nfc t = t
  nfc_replace : ∀ s, lib.nfc s = s → lib.nfc (replaceForbidden lib s) = replaceForbidden lib s
  nfc_ascii : ∀ s : CodePoints, (∀ c ∈ s, c < 0x80) → lib.nfc s = s
  printable : ∀ c, 0x20 ≤ c → c < 0x7f → lib.isOther c = false

/-- A name that the policy has nothing to say against. -/
structure Portable (lib : UnicodeLibrary) (name : CodePoints) : Prop where
  normal : lib.nfc name = name
  trimmed : trim isSpacePoint name = name
  named : isDotsOnly name = false
  short : name.length ≤ maxFilenameLength
  allowed : ∀ c ∈ name, isForbiddenPoint lib c = false

variable {lib} {value : CodePoints} {name : CodePoints}

/-- The error names exactly the characters in the way. -/
theorem mem_bad {c : ℕ} :
    c ∈ (name.filter (isForbiddenPoint lib)).dedup.insertionSort (· ≤ ·) ↔
      c ∈ name ∧ isForbiddenPoint lib c = true := by
  rw [List.mem_insertionSort, List.mem_dedup, List.mem_filter]

theorem validatedFilename_eq_ok : validatedFilename lib value = .ok name ↔
    name = trim isSpacePoint (lib.nfc value) ∧ isDotsOnly name = false ∧
      name.length ≤ maxFilenameLength ∧ ∀ c ∈ name, isForbiddenPoint lib c = false := by
  unfold validatedFilename
  dsimp only
  generalize trim isSpacePoint (lib.nfc value) = trimmed
  by_cases hdots : isDotsOnly trimmed = true
  · rw [if_pos hdots]
    constructor
    · intro h
      cases h
    · rintro ⟨rfl, hnamed, -⟩
      rw [hdots] at hnamed
      cases hnamed
  rw [if_neg hdots]
  by_cases hlong : maxFilenameLength < trimmed.length
  · rw [if_pos hlong]
    constructor
    · intro h
      cases h
    · rintro ⟨rfl, -, hshort, -⟩
      omega
  rw [if_neg hlong]
  have hbad : (trimmed.filter (isForbiddenPoint lib)).dedup.insertionSort (· ≤ ·) = [] ↔
      ∀ c ∈ trimmed, isForbiddenPoint lib c = false := by
    simp only [List.eq_nil_iff_forall_not_mem, mem_bad, not_and, Bool.not_eq_true]
  by_cases hallowed : ∀ c ∈ trimmed, isForbiddenPoint lib c = false
  · rw [if_neg (not_not_intro (hbad.mpr hallowed)), Except.ok.injEq]
    constructor
    · rintro rfl
      exact ⟨rfl, Bool.not_eq_true _ ▸ hdots, not_lt.mp hlong, hallowed⟩
    · exact fun h => h.1.symm
  · rw [if_pos fun h => hallowed (hbad.mp h)]
    constructor
    · intro h
      cases h
    · rintro ⟨rfl, -, -, h⟩
      exact absurd h hallowed

theorem Portable.validated (h : Portable lib name) : validatedFilename lib name = .ok name := by
  refine validatedFilename_eq_ok.mpr ⟨?_, h.named, h.short, h.allowed⟩
  rw [h.normal, h.trimmed]

theorem portable_of_validated (laws : UnicodeLaws lib)
    (h : validatedFilename lib value = .ok name) : Portable lib name := by
  obtain ⟨htrim, hnamed, hshort, hallowed⟩ := validatedFilename_eq_ok.mp h
  refine ⟨?_, ?_, hnamed, hshort, hallowed⟩
  · rw [htrim]
    exact laws.nfc_infix _ _ (laws.nfc_nfc value) (infix_trim _ _)
  · rw [htrim, trim_trim]

/-! ### Sanitising -/

theorem Portable.ne (h : Portable lib name) {d c : ℕ}
    (hd : d ∈ forbiddenFilenameChars.map Char.toNat) (hc : c ∈ name) : c ≠ d := by
  rintro rfl
  have hallowed := h.allowed c hc
  rw [isForbiddenPoint, decide_eq_true (.inl hd)] at hallowed
  cases hallowed

/-- The last segment is the end of the name after the last separator of either kind. -/
theorem lastSegmentPoints_eq (name : CodePoints) :
    lastSegmentPoints name = name.rtakeWhile fun c => c ≠ 0x2f ∧ c ≠ 0x5c := by
  have hcomp : (fun c : ℕ => decide (c ≠ 0x2f)) ∘ (fun c => if c = 0x5c then 0x2f else c) =
      fun c => decide (c ≠ 0x2f ∧ c ≠ 0x5c) := by
    funext c
    by_cases hc : c = 0x5c <;> simp [hc]
  rw [lastSegmentPoints, List.rtakeWhile, ← List.map_reverse, List.takeWhile_map, hcomp,
    ← List.map_reverse, ← List.rtakeWhile]
  refine (List.map_congr_left fun c hc => if_neg ?_).trans (List.map_id' _)
  have hkept := List.mem_rtakeWhile_imp hc
  exact (of_decide_eq_true hkept).2

theorem infix_lastSegmentPoints (name : CodePoints) : lastSegmentPoints name <:+: name := by
  rw [lastSegmentPoints_eq]
  exact (List.rtakeWhile_suffix _ _).isInfix

theorem Portable.lastSegment (h : Portable lib name) : lastSegmentPoints name = name := by
  rw [lastSegmentPoints_eq, List.rtakeWhile_eq_self_iff]
  exact fun c hc => decide_eq_true ⟨h.ne (by decide) hc, h.ne (by decide) hc⟩

theorem Portable.replaced (h : Portable lib name) : replaceForbidden lib name = name := by
  refine (List.map_congr_left fun c hc => if_neg ?_).trans (List.map_id' _)
  rw [h.allowed c hc]
  exact Bool.false_ne_true

/-- Sanitising leaves an accepted name alone. -/
theorem Portable.sanitized (h : Portable lib name) : sanitizedFilename lib (some name) = name := by
  have hwhole : name.take maxFilenameLength = name := List.take_of_length_le h.short
  unfold sanitizedFilename
  dsimp only
  rw [Option.getD_some, h.normal, h.trimmed, h.lastSegment, h.replaced, h.trimmed, hwhole,
    h.trimmed, h.named, if_neg Bool.false_ne_true]

theorem isForbiddenPoint_of_printable (laws : UnicodeLaws lib) {c : ℕ} (hlow : 0x20 ≤ c)
    (hhigh : c < 0x7f) (hc : c ∉ forbiddenFilenameChars.map Char.toNat) :
    isForbiddenPoint lib c = false := by
  rw [isForbiddenPoint, laws.printable c hlow hhigh]
  simpa using hc

theorem allowed_replaceForbidden (laws : UnicodeLaws lib) {c : ℕ}
    (hc : c ∈ replaceForbidden lib name) : isForbiddenPoint lib c = false := by
  obtain ⟨d, -, rfl⟩ := List.mem_map.mp hc
  split_ifs with hd
  · exact isForbiddenPoint_of_printable laws (by decide) (by decide) (by decide)
  · exact Bool.not_eq_true _ ▸ hd

theorem portable_fallbackPoints (laws : UnicodeLaws lib) :
    Portable lib (codePoints fallbackFilename) := by
  have hplain : ((codePoints fallbackFilename).all fun c => decide (0x20 ≤ c ∧ c < 0x7f ∧
      c ∉ forbiddenFilenameChars.map Char.toNat)) = true := by decide
  have hplain := fun c hc => of_decide_eq_true (List.all_eq_true.mp hplain c hc)
  refine ⟨laws.nfc_ascii _ fun c hc => ?_, by decide, by decide, by decide, fun c hc => ?_⟩
  · have := (hplain c hc).2.1
    omega
  · exact isForbiddenPoint_of_printable laws (hplain c hc).1 (hplain c hc).2.1 (hplain c hc).2.2

/-- Whatever it is given, sanitising makes an accepted name. -/
theorem portable_sanitized (laws : UnicodeLaws lib) (value : Option CodePoints) :
    Portable lib (sanitizedFilename lib value) := by
  unfold sanitizedFilename
  dsimp only
  generalize hsource : lib.nfc (value.getD []) = source
  have hnormal : lib.nfc source = source := by rw [← hsource, laws.nfc_nfc]
  generalize hsegment : lastSegmentPoints (trim isSpacePoint source) = segment
  have hsub : segment <:+: source := by
    rw [← hsegment]
    exact (infix_lastSegmentPoints _).trans (infix_trim _ _)
  have hreplaced := laws.nfc_replace segment (laws.nfc_infix _ _ hnormal hsub)
  generalize hkept : trim isSpacePoint
    ((trim isSpacePoint (replaceForbidden lib segment)).take maxFilenameLength) = kept
  have hcut : kept <:+: (trim isSpacePoint (replaceForbidden lib segment)).take
      maxFilenameLength := by
    rw [← hkept]
    exact infix_trim _ _
  have hwithin : kept <:+: replaceForbidden lib segment :=
    (hcut.trans (List.take_prefix _ _).isInfix).trans (infix_trim _ _)
  by_cases hdots : isDotsOnly kept = true
  · rw [if_pos hdots]
    exact portable_fallbackPoints laws
  rw [if_neg hdots]
  refine ⟨laws.nfc_infix _ _ hreplaced hwithin, ?_, Bool.not_eq_true _ ▸ hdots, ?_, ?_⟩
  · rw [← hkept, trim_trim]
  · exact hcut.length_le.trans (List.length_take_le _ _)
  · exact fun c hc => allowed_replaceForbidden laws (hwithin.subset hc)

/-- The two sides of the policy agree: what one makes the other accepts as it is, and what
was accepted both leave alone. -/
theorem filenamePolicy_agrees (laws : UnicodeLaws lib) :
    (∀ value, validatedFilename lib (sanitizedFilename lib value) =
      .ok (sanitizedFilename lib value)) ∧
    ∀ value name, validatedFilename lib value = .ok name →
      validatedFilename lib name = .ok name ∧ sanitizedFilename lib (some name) = name := by
  refine ⟨fun value => (portable_sanitized laws value).validated, fun value name h => ?_⟩
  have hportable := portable_of_validated laws h
  exact ⟨hportable.validated, hportable.sanitized⟩

/-- NFC on text without marks that combine, and the controls and surrogates. -/
def asciiLibrary : UnicodeLibrary where
  nfc s := s
  isOther c := c < 0x20 ∨ (0x7f ≤ c ∧ c < 0xa0) ∨ (0xd800 ≤ c ∧ c ≤ 0xdfff)
  repr c := [0x27, c, 0x27]

theorem asciiLibrary_laws : UnicodeLaws asciiLibrary where
  nfc_nfc _ := rfl
  nfc_infix _ _ _ _ := rfl
  nfc_replace _ _ := rfl
  nfc_ascii _ _ := rfl
  printable c hlow hhigh := by
    simp only [asciiLibrary, decide_eq_false_iff_not]
    omega

/-- A path with a lone surrogate in its last segment, and spaces around a name. -/
theorem filenamePolicy_agrees_surrogate :
    validatedFilename asciiLibrary (sanitizedFilename asciiLibrary
      (some (codePoints "a/b" ++ [0xd800] ++ codePoints ".png "))) = .ok (codePoints "b_.png") ∧
    sanitizedFilename asciiLibrary (some (codePoints "b c.png")) = codePoints "b c.png" := by
  obtain ⟨hmade, hkept⟩ := filenamePolicy_agrees asciiLibrary_laws
  constructor
  · have hname : sanitizedFilename asciiLibrary
        (some (codePoints "a/b" ++ [0xd800] ++ codePoints ".png ")) = codePoints "b_.png" := by
      decide +kernel
    have := hmade (some (codePoints "a/b" ++ [0xd800] ++ codePoints ".png "))
    rwa [hname] at this ⊢
  · exact (hkept (codePoints " b c.png ") (codePoints "b c.png") (by decide +kernel)).2

/-! ### Names without lone surrogates -/

section Text

variable {env : Env}

/-- The library is the one that the environment shows of it. -/
structure UnicodeAgrees (env : Env) (lib : UnicodeLibrary) : Prop where
  nfc : ∀ s, lib.nfc (codePoints s) = codePoints (env.nfc s)
  isOther : ∀ c : Char, lib.isOther c.toNat = env.isOtherCategory c

theorem codePoints_ofList (cs : List Char) : codePoints (String.ofList cs) = cs.map Char.toNat := by
  rw [codePoints, String.toList_ofList]

theorem trim_codePoints (s : String) : trim isSpacePoint (codePoints s) = codePoints (strip s) := by
  have hspace : ∀ c : Char, isSpacePoint c.toNat = isSpace c := fun _ => rfl
  rw [codePoints, trim_map hspace, strip, codePoints_ofList]
  rfl

theorem isDotsOnly_codePoints (s : String) : isDotsOnly (codePoints s) = isDots s := by
  have hdot : ∀ c : Char, (decide (c.toNat = 0x2e)) = decide (c = '.') := fun c =>
    decide_eq_decide.mpr (@Char.toNat_inj c '.')
  rw [isDotsOnly, isDots, codePoints, List.all_map]
  exact List.all_congr rfl hdot

theorem isForbiddenPoint_toNat (h : UnicodeAgrees env lib) (c : Char) :
    isForbiddenPoint lib c.toNat = isForbiddenFilenameChar env c := by
  rw [isForbiddenPoint, isForbiddenFilenameChar, h.isOther, decide_eq_decide,
    List.mem_map_of_injective fun _ _ => Char.toNat_inj.mp]

theorem lastSegmentPoints_codePoints (s : String) :
    lastSegmentPoints (codePoints s) = codePoints (lastSegment (replaceChar '\\' '/' s)) := by
  have hreplace : (codePoints s).map (fun c => if c = 0x5c then 0x2f else c) =
      codePoints (replaceChar '\\' '/' s) := by
    rw [replaceChar, codePoints_ofList, codePoints, List.map_map, List.map_map]
    refine List.map_congr_left fun c _ => ?_
    have hc := @Char.toNat_inj c '\\'
    by_cases he : c = '\\'
    · subst he
      rfl
    · simp only [Function.comp, if_neg he]
      exact if_neg fun h => he (hc.mp h)
  have hslash : (fun c => decide (c ≠ 0x2f)) ∘ Char.toNat = fun c : Char => decide (c ≠ '/') :=
    funext fun c => decide_eq_decide.mpr (not_congr (@Char.toNat_inj c '/'))
  rw [lastSegmentPoints, hreplace, lastSegment, codePoints_ofList, codePoints, List.rtakeWhile,
    ← List.map_reverse, List.takeWhile_map, hslash, ← List.map_reverse, ← List.rtakeWhile]

theorem replaceForbidden_codePoints (h : UnicodeAgrees env lib) (s : String) :
    replaceForbidden lib (codePoints s) = codePoints (String.ofList
      (s.toList.map fun c => if isForbiddenFilenameChar env c then '_' else c)) := by
  rw [replaceForbidden, codePoints_ofList, codePoints, List.map_map, List.map_map]
  refine List.map_congr_left fun c _ => ?_
  simp only [Function.comp, isForbiddenPoint_toNat h]
  split_ifs <;> rfl

theorem sanitizedFilename_codePoints (h : UnicodeAgrees env lib) (value : Option String) :
    sanitizedFilename lib (value.map codePoints) = codePoints (sanitizeFilename env value) := by
  have hvalue : (value.map codePoints).getD [] = codePoints (value.getD "") := by
    cases value <;> rfl
  unfold sanitizedFilename sanitizeFilename
  dsimp only
  rw [hvalue, h.nfc, trim_codePoints, lastSegmentPoints_codePoints, replaceForbidden_codePoints h,
    trim_codePoints, codePoints, ← List.map_take, ← codePoints_ofList, trim_codePoints,
    isDotsOnly_codePoints]
  split_ifs <;> rfl

theorem validatedFilename_codePoints (h : UnicodeAgrees env lib) (value : String) :
    (validatedFilename lib (codePoints value)).toOption =
      (validateFilename env value).map codePoints := by
  have hlength : (codePoints (strip (env.nfc value))).length = (strip (env.nfc value)).length := by
    rw [codePoints, List.length_map, String.length_toList]
  have hbad : ((codePoints (strip (env.nfc value))).filter
      (isForbiddenPoint lib)).dedup.insertionSort (· ≤ ·) ≠ [] ↔
        (strip (env.nfc value)).toList.any (isForbiddenFilenameChar env) = true := by
    rw [ne_eq, ← List.isEmpty_iff, Bool.not_eq_true, List.isEmpty_eq_false_iff_exists_mem]
    simp only [mem_bad, codePoints, List.mem_map, List.any_eq_true]
    constructor
    · rintro ⟨_, ⟨c, hc, rfl⟩, hforbidden⟩
      exact ⟨c, hc, isForbiddenPoint_toNat h c ▸ hforbidden⟩
    · rintro ⟨c, hc, hforbidden⟩
      exact ⟨c.toNat, ⟨c, hc, rfl⟩, (isForbiddenPoint_toNat h c).trans hforbidden⟩
  unfold validatedFilename validateFilename
  dsimp only
  rw [h.nfc, trim_codePoints, isDotsOnly_codePoints, hlength]
  simp only [hbad]
  split_ifs <;> rfl

end Text

end MediaService
