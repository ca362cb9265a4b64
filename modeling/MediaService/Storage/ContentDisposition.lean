import MediaService.Core.Config
import MediaService.Foundation.HeaderFields
import MediaService.Foundation.PercentEncoding

/-! The header under which a download is served. A name that a user chose is put in twice,
once in plain characters between quotes and once percent-encoded. Read as a header field, the
value has these two parameters and no other, and the second one spells the name. -/

namespace MediaService

open Foundation Foundation.Header

/-! ### Building the header -/

/-- `_UNSAFE_DISPOSITION_CHARS`. -/
def isUnsafeDispositionChar (c : Char) : Bool :=
  c.toNat < 0x20 ∨ c.toNat = 0x7f ∨ c = '"' ∨ c = '\\'

/-- The name without its path. -/
def dispositionBase (filename : String) : String :=
  lastSegment (replaceChar '\\' '/' (strip filename))

/-- `sub("_", base).encode("ascii", "ignore").decode("ascii") or "download"`. -/
def asciiFallback (base : String) : String :=
  let kept := (base.toList.map fun c => if isUnsafeDispositionChar c then '_' else c).filter
    fun c => c.toNat < 0x80
  if kept = [] then "download" else String.ofList kept

/-- `_safe_content_disposition`. -/
def safeContentDisposition (filename : String) : String :=
  let base := dispositionBase filename
  "attachment; filename=\"" ++ asciiFallback base ++ "\"; filename*=UTF-8''" ++
    Percent.quoteText base

/-- `create_download_url`: the headers it has storage sign, if any. -/
def responseHeaders : Option String → Option (List (String × String))
  | none => none
  | some filename =>
    if filename = "" then none
    else some [("response-content-disposition", safeContentDisposition filename)]

/-! ### What the header says -/

/-- Printable ASCII that needs no escape between quotes. -/
def IsPlain (c : Char) : Prop := 0x20 ≤ c.toNat ∧ c.toNat < 0x7f ∧ c ≠ '"' ∧ c ≠ '\\'

instance (c : Char) : Decidable (IsPlain c) := inferInstanceAs (Decidable (_ ∧ _ ∧ _ ∧ _))

/-- The field with its two parameters. -/
def dispositionField (fallback encoded : String) : Field :=
  ⟨"attachment",
    [⟨"filename", .quoted fallback⟩, ⟨"filename*", .token ("UTF-8''" ++ encoded)⟩]⟩

/-- The header is the two parameters, harmless and faithful to the name. -/
structure Discloses (header base fallback encoded : String) : Prop where
  parsed : Header.read header = some (dispositionField fallback encoded)
  written : header =
    "attachment; filename=\"" ++ fallback ++ "\"; filename*=UTF-8''" ++ encoded
  nonempty : fallback ≠ ""
  plain : ∀ c ∈ fallback.toList, IsPlain c
  unreserved : Percent.Encoded encoded.toList
  decoded : Percent.unquoteText encoded = some base
  printable : ∀ c ∈ header.toList, 0x20 ≤ c.toNat ∧ c.toNat < 0x7f

theorem asciiFallback_ne_empty (base : String) : asciiFallback base ≠ "" := by
  unfold asciiFallback
  dsimp only
  split_ifs with hkept
  · decide
  · rwa [ne_eq, String.ofList_eq_empty_iff]

theorem isPlain_of_mem_asciiFallback {base : String} {c : Char}
    (hc : c ∈ (asciiFallback base).toList) : IsPlain c := by
  unfold asciiFallback at hc
  dsimp only at hc
  split_ifs at hc with hkept
  · have hall : ("download".toList.all fun c => decide (IsPlain c)) = true := by decide
    exact of_decide_eq_true (List.all_eq_true.mp hall c hc)
  · rw [String.toList_ofList] at hc
    obtain ⟨hmem, hascii⟩ := List.mem_filter.mp hc
    have hascii := of_decide_eq_true hascii
    obtain ⟨d, -, rfl⟩ := List.mem_map.mp hmem
    split_ifs with hsafe
    · exact ⟨by decide, by decide, by decide, by decide⟩
    · rw [if_neg hsafe] at hascii
      simp only [isUnsafeDispositionChar, decide_eq_true_eq, not_or, not_lt] at hsafe
      exact ⟨hsafe.1, by omega, hsafe.2.2.1, hsafe.2.2.2⟩

theorem isTokenChar_of_isUnreserved {c : Char} (hc : Percent.isUnreserved c = true) :
    isTokenChar c = true := by
  simp only [Percent.isUnreserved, decide_eq_true_eq] at hc
  rw [isTokenChar, decide_eq_true_eq]
  rcases hc with hc | rfl | rfl | rfl | rfl
  · exact .inl hc
  · exact .inr (by decide)
  · exact .inr (by decide)
  · exact .inr (by decide)
  · exact .inr (by decide)

theorem isTokenChar_hexDigit {n : ℕ} (h : n < 16) : isTokenChar (Percent.hexDigit n) = true :=
  (by decide +kernel : ∀ n : Fin 16, isTokenChar (Percent.hexDigit n) = true) ⟨n, h⟩

theorem isTokenChar_of_encoded {cs : List Char} (h : Percent.Encoded cs) :
    ∀ c ∈ cs, isTokenChar c = true := by
  induction h with
  | nil => exact fun c hc => absurd hc List.not_mem_nil
  | plain hc _ ih => exact List.forall_mem_cons.mpr ⟨isTokenChar_of_isUnreserved hc, ih⟩
  | byte ha hb _ ih =>
    exact List.forall_mem_cons.mpr ⟨by decide, List.forall_mem_cons.mpr
      ⟨isTokenChar_hexDigit ha, List.forall_mem_cons.mpr ⟨isTokenChar_hexDigit hb, ih⟩⟩⟩

theorem isToken_of_all {s : String} (h : s ≠ "") (hall : s.toList.all isTokenChar = true) :
    IsToken s.toList :=
  ⟨fun hnil => h (String.toList_eq_nil_iff.mp hnil), fun c hc => List.all_eq_true.mp hall c hc⟩

theorem wellFormed_dispositionField {fallback encoded : String}
    (hfallback : ∀ c ∈ fallback.toList, IsPlain c) (hencoded : Percent.Encoded encoded.toList) :
    (dispositionField fallback encoded).WellFormed := by
  have hcharset : IsToken "UTF-8''".toList := isToken_of_all (by decide) (by decide)
  have hext : IsToken ("UTF-8''" ++ encoded).toList := by
    rw [String.toList_append]
    refine ⟨fun h => hcharset.1 (List.append_eq_nil_iff.mp h).1, fun c hc => ?_⟩
    rcases List.mem_append.mp hc with hc | hc
    · exact hcharset.2 c hc
    · exact isTokenChar_of_encoded hencoded c hc
  have hfallback : ∀ c ∈ fallback.toList, isQuotable c = true := by
    intro c hc
    rw [isQuotable, decide_eq_true_eq]
    exact .inr ⟨(hfallback c hc).1, (hfallback c hc).2.1.ne⟩
  constructor
  · exact isToken_of_all (s := "attachment") (by decide) (by decide)
  · simp only [dispositionField, List.forall_mem_cons]
    exact ⟨isToken_of_all (by decide) (by decide), isToken_of_all (by decide) (by decide),
      List.forall_mem_nil _⟩
  · simp only [dispositionField, List.forall_mem_cons]
    exact ⟨hfallback, hext, List.forall_mem_nil _⟩

theorem flatMap_escape {s : List Char} (hs : ∀ c ∈ s, IsPlain c) : s.flatMap escape = s := by
  induction s with
  | nil => rfl
  | cons c s ih =>
    obtain ⟨-, -, hquote, hbackslash⟩ := hs c List.mem_cons_self
    rw [List.flatMap_cons, ih fun d hd => hs d (List.mem_cons_of_mem c hd), escape,
      if_neg (not_or.mpr ⟨hquote, hbackslash⟩), List.singleton_append]

theorem write_dispositionField {fallback : String} (hfallback : ∀ c ∈ fallback.toList, IsPlain c)
    (encoded : String) : (dispositionField fallback encoded).write =
      "attachment; filename=\"" ++ fallback ++ "\"; filename*=UTF-8''" ++ encoded := by
  have hfirst : "attachment; filename=\"".toList =
      "attachment".toList ++ ';' :: ' ' :: ("filename".toList ++ ['=', '"']) := by decide
  have hsecond : "\"; filename*=UTF-8''".toList =
      '"' :: ';' :: ' ' :: ("filename*".toList ++ '=' :: "UTF-8''".toList) := by decide
  rw [← String.toList_inj]
  simp only [hfirst, hsecond, dispositionField, Field.write, writeParams, Param.write,
    ParamValue.write, List.flatMap_cons, List.flatMap_nil, flatMap_escape hfallback,
    List.append_assoc, List.cons_append, List.nil_append, List.append_nil, String.toList_append,
    String.toList_ofList]

theorem printable_of_isTokenChar {c : Char} (hc : isTokenChar c = true) :
    0x20 ≤ c.toNat ∧ c.toNat < 0x7f := by
  rw [isTokenChar, decide_eq_true_eq] at hc
  rcases hc with hc | hc
  · have hranges : c.isAlphanum = (decide (65 ≤ c.val ∧ c.val ≤ 90) ||
        (decide (97 ≤ c.val) && decide (c.val ≤ 122)) ||
        (decide (48 ≤ c.val) && decide (c.val ≤ 57))) := rfl
    simp only [hranges, Bool.or_eq_true, Bool.and_eq_true, decide_eq_true_eq,
      UInt32.le_iff_toNat_le, Char.toNat_val] at hc
    have hbounds : (0x30 ≤ c.toNat ∧ c.toNat ≤ 0x39) ∨ (0x41 ≤ c.toNat ∧ c.toNat ≤ 0x5a) ∨
        (0x61 ≤ c.toNat ∧ c.toNat ≤ 0x7a) := by tauto
    omega
  · have hall : (['!', '#', '$', '%', '&', '\'', '*', '+', '-', '.', '^', '_', '\x60', '|',
        '~'].all fun c => decide (0x20 ≤ c.toNat ∧ c.toNat < 0x7f)) = true := by decide
    exact of_decide_eq_true (List.all_eq_true.mp hall c hc)

theorem printable_header {fallback encoded : String} (hfallback : ∀ c ∈ fallback.toList, IsPlain c)
    (hencoded : Percent.Encoded encoded.toList) : ∀ c ∈
      ("attachment; filename=\"" ++ fallback ++ "\"; filename*=UTF-8''" ++ encoded).toList,
        0x20 ≤ c.toNat ∧ c.toNat < 0x7f := by
  have hliteral : (("attachment; filename=\"".toList ++ "\"; filename*=UTF-8''".toList).all
      fun c => decide (0x20 ≤ c.toNat ∧ c.toNat < 0x7f)) = true := by decide
  have hliteral := fun c hc => of_decide_eq_true (List.all_eq_true.mp hliteral c hc)
  intro c hc
  simp only [String.toList_append, List.mem_append] at hc
  rcases hc with ((hc | hc) | hc) | hc
  · exact hliteral c (List.mem_append_left _ hc)
  · exact ⟨(hfallback c hc).1, (hfallback c hc).2.1⟩
  · exact hliteral c (List.mem_append_right _ hc)
  · exact printable_of_isTokenChar (isTokenChar_of_encoded hencoded c hc)

/-- Whatever name it is given, the header holds one harmless quoted name and one encoded name,
which spells the given one; a download URL signs this header alone. -/
theorem safeContentDisposition_discloses (filename : String) :
    (∃ fallback encoded, Discloses (safeContentDisposition filename) (dispositionBase filename)
      fallback encoded) ∧
    ∀ headers, responseHeaders (some filename) = some headers →
      headers = [("response-content-disposition", safeContentDisposition filename)] := by
  have hplain := fun c => @isPlain_of_mem_asciiFallback (dispositionBase filename) c
  have hencoded := Percent.encoded_quoteText (dispositionBase filename)
  have hparsed := Header.read_write (wellFormed_dispositionField hplain hencoded)
  rw [write_dispositionField hplain] at hparsed
  constructor
  · exact ⟨_, _, hparsed, rfl, asciiFallback_ne_empty _, hplain, hencoded,
      Percent.unquoteText_quoteText _, printable_header hplain hencoded⟩
  · intro headers h
    rw [responseHeaders] at h
    split_ifs at h
    exact (Option.some.inj h).symm

end MediaService
