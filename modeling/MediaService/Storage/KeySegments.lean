import MediaService.Core.Presets
import MediaService.Storage.Keys

/-! The segments of a key, one by one. The segment made of a filename is sanitised; the
segment made of a variant's name is only normalised. Both are taken from the name of a
preset and the extension of an output format, which ends either of them and is told
apart by it. -/

namespace MediaService

variable {env : Env} {a b : List Char} {c : Char} {s : String}

/-- Two lists that end alike behind a separator that their ends do not contain. -/
theorem append_cons_inj_right {a' b' : List Char} (hb : c ∉ b) (hb' : c ∉ b')
    (h : a ++ c :: b = a' ++ c :: b') : a = a' ∧ b = b' := by
  rcases List.append_eq_append_iff.mp h with ⟨l, rfl, hl⟩ | ⟨l, rfl, hl⟩
  · cases l with
    | nil => exact ⟨(List.append_nil a).symm, (List.cons.inj hl).2⟩
    | cons d l =>
      rw [(List.cons.inj hl).2] at hb
      exact absurd (List.mem_append_right l List.mem_cons_self) hb
  · cases l with
    | nil => exact ⟨List.append_nil a', (List.cons.inj hl).2.symm⟩
    | cons d l =>
      rw [(List.cons.inj hl).2] at hb'
      exact absurd (List.mem_append_right l List.mem_cons_self) hb'

/-! ### Output names -/

/-- `fmt.ext.lower()`. -/
def ImageFormat.extension : ImageFormat → String
  | .webp => "webp"
  | .jpeg => "jpeg"
  | .png => "png"
  | .gif => "gif"
  | .avif => "avif"

theorem ImageFormat.lower_str (env : Env) (f : ImageFormat) : env.lower f.str = f.extension := by
  have hascii : f.str.toList.all (fun c => c.toNat < 128) = true := by cases f <;> decide
  rw [env.lower_ascii f.str fun c hc => of_decide_eq_true (List.all_eq_true.mp hascii c hc)]
  cases f <;> decide

theorem ImageFormat.extension_inj {f g : ImageFormat}
    (h : f.extension.toList = g.extension.toList) : f = g := by
  revert h
  cases f <;> cases g <;> decide

/-- A character that a key segment passes on as it is, at either end. -/
def isPlain (c : Char) : Bool :=
  !isSpace c ∧ !isKeyUnsafe c ∧ c ≠ '/' ∧ c ≠ '\\' ∧ c ≠ '_' ∧ c ≠ '.'

theorem ImageFormat.plain_extension (f : ImageFormat) :
    ∀ c ∈ f.extension.toList, isPlain c = true := by
  have hall : f.extension.toList.all isPlain = true := by cases f <;> decide
  exact List.all_eq_true.mp hall

theorem ImageFormat.length_extension (f : ImageFormat) :
    3 ≤ f.extension.length ∧ f.extension.length ≤ 4 := by
  cases f <;> decide

/-- The variant name that `_expand` makes of a preset's name and a format. -/
def outputName (name : String) (f : ImageFormat) : String := name ++ "_" ++ f.extension

/-- The filename it makes of the variant name. -/
def outputFilename (name : String) (f : ImageFormat) : String :=
  outputName name f ++ "." ++ f.extension

theorem toList_outputName (name : String) (f : ImageFormat) :
    (outputName name f).toList = name.toList ++ '_' :: f.extension.toList := by
  rw [outputName, String.toList_append, String.toList_append, List.append_assoc]
  rfl

theorem toList_outputFilename (name : String) (f : ImageFormat) :
    (outputFilename name f).toList = (outputName name f).toList ++ '.' :: f.extension.toList := by
  rw [outputFilename, String.toList_append, String.toList_append, List.append_assoc]
  rfl

theorem length_outputName (name : String) (f : ImageFormat) :
    (outputName name f).length = name.length + 1 + f.extension.length := by
  rw [outputName, String.length_append, String.length_append]
  rfl

/-- A variant name determines the preset and the format: no extension has an underscore. -/
theorem outputName_inj {name name' : String} {f g : ImageFormat}
    (h : outputName name f = outputName name' g) : name = name' ∧ f = g := by
  have hlist := congrArg String.toList h
  rw [toList_outputName, toList_outputName] at hlist
  have hnot : ∀ f : ImageFormat, '_' ∉ f.extension.toList := fun f hmem =>
    absurd (f.plain_extension '_' hmem) (by decide)
  obtain ⟨hname, hext⟩ := append_cons_inj_right (hnot f) (hnot g) hlist
  exact ⟨String.toList_inj.mp hname, ImageFormat.extension_inj hext⟩

theorem expandFormat_eq (env : Env) (name : String) (spec : PresetSpec) (o : MediaObject)
    (fmt : FormatSpec) : expandFormat env name spec o fmt =
      { variantName := outputName name fmt.ext
        outputOptions := ⟨outputName name fmt.ext, spec.imageSize, fmt, spec.allowUpscale,
          spec.maxByteSize⟩
        targetBucket := o.storageBucket
        targetKey := buildVariantKey env o.ownerUserId o.id o.category (outputName name fmt.ext)
          (outputFilename name fmt.ext) o.tenantId } := by
  unfold expandFormat
  rw [ImageFormat.lower_str]
  rfl

/-! ### Endings -/

/-- Stripping a text that ends in no space takes only from its front. -/
theorem strip_append (hs : s.toList = a ++ c :: b) (h : ∀ d ∈ c :: b, isSpace d = false) :
    (strip s).toList = a.dropWhile isSpace ++ c :: b := by
  have hc : isSpace c = false := h c List.mem_cons_self
  have hfront : (a ++ c :: b).dropWhile isSpace = a.dropWhile isSpace ++ c :: b := by
    rw [List.dropWhile_append]
    split_ifs with hempty
    · rw [List.isEmpty_iff.mp hempty, List.dropWhile_cons, hc]
      rfl
    · rfl
  rw [strip, String.toList_ofList, hs, hfront, List.rdropWhile_eq_self_iff]
  intro hne
  rw [List.getLast_append_of_ne_nil hne (List.cons_ne_nil c b), Bool.not_eq_true]
  exact h _ (List.getLast_mem (List.cons_ne_nil c b))

/-- The segment of a filename keeps a plain extension. -/
theorem keySegment_append (hs : s.toList = a ++ '.' :: b) (hplain : ∀ d ∈ b, isPlain d = true)
    (hlength : 2 ≤ b.length) : ∃ q, (keySegment s).toList = q ++ '.' :: b := by
  have hfacts : ∀ d ∈ '.' :: b,
      isSpace d = false ∧ isKeyUnsafe d = false ∧ d ≠ '/' ∧ d ≠ '\\' := by
    intro d hd
    rcases List.mem_cons.mp hd with rfl | hd
    · decide
    · have hd := hplain d hd
      simp only [isPlain, decide_eq_true_eq, Bool.not_eq_true'] at hd
      exact ⟨hd.1, hd.2.1, hd.2.2.1, hd.2.2.2.1⟩
  have hstrip := strip_append hs fun d hd => (hfacts d hd).1
  have hreplace : (replaceChar '\\' '/' (strip s)).toList =
      (a.dropWhile isSpace).map (fun c => if c = '\\' then '/' else c) ++ '.' :: b := by
    have hsame : ('.' :: b).map (fun c => if c = '\\' then '/' else c) = '.' :: b :=
      (List.map_congr_left fun d hd => if_neg (hfacts d hd).2.2.2).trans (List.map_id _)
    rw [replaceChar, String.toList_ofList, hstrip, List.map_append, hsame]
  obtain ⟨q, hq⟩ : ∃ q, (lastSegment (replaceChar '\\' '/' (strip s))).toList = q ++ '.' :: b := by
    refine ⟨List.rtakeWhile (· ≠ '/') ((a.dropWhile isSpace).map
      fun c => if c = '\\' then '/' else c), ?_⟩
    have hback : ∀ d ∈ ('.' :: b).reverse, decide (d ≠ '/') = true := fun d hd =>
      decide_eq_true (hfacts d (List.mem_reverse.mp hd)).2.2.1
    rw [lastSegment, String.toList_ofList, hreplace, List.rtakeWhile, List.reverse_append,
      List.takeWhile_append_of_pos hback, List.reverse_append, List.reverse_reverse]
    rfl
  have hbase : (safeFilename s).toList = q ++ '.' :: b := by
    have hlong : 3 ≤ (lastSegment (replaceChar '\\' '/' (strip s))).toList.length := by
      rw [hq, List.length_append, List.length_cons]
      omega
    unfold safeFilename
    dsimp only
    rw [if_neg, hq]
    rintro (h | h | h) <;> rw [h] at hlong <;> revert hlong <;> decide
  refine ⟨q.map fun c => if isKeyUnsafe c then '_' else c, ?_⟩
  have hkept : ('.' :: b).map (fun c => if isKeyUnsafe c then '_' else c) = '.' :: b :=
    (List.map_congr_left fun d hd => by rw [(hfacts d hd).2.1]; rfl).trans (List.map_id _)
  rw [keySegment, String.toList_ofList, hbase, List.map_append, hkept]

/-- The filename segments of outputs in different formats differ. -/
theorem format_eq_of_keySegment {name name' : String} {f g : ImageFormat}
    (h : keySegment (outputFilename name f) = keySegment (outputFilename name' g)) : f = g := by
  have hlength : ∀ f : ImageFormat, 2 ≤ f.extension.toList.length := fun f => by
    have := f.length_extension.1
    rw [String.length_toList]
    omega
  obtain ⟨q, hq⟩ := keySegment_append (toList_outputFilename name f) f.plain_extension (hlength f)
  obtain ⟨q', hq'⟩ :=
    keySegment_append (toList_outputFilename name' g) g.plain_extension (hlength g)
  have hnot : ∀ f : ImageFormat, '.' ∉ f.extension.toList := fun f hmem =>
    absurd (f.plain_extension '.' hmem) (by decide)
  rw [h, hq'] at hq
  exact ImageFormat.extension_inj (append_cons_inj_right (hnot g) (hnot f) hq).2.symm

/-- Two variants of one object have one key exactly when both segments agree. -/
theorem buildVariantKey_eq_iff {o m : UUID} {category : MediaCategory} {v v' f f' : String}
    {t : Option UUID} :
    buildVariantKey env o m category v f t = buildVariantKey env o m category v' f' t ↔
      safeName env v = safeName env v' ∧ keySegment f = keySegment f' := by
  constructor
  · intro h
    have hseg := congrArg keySegments h
    rw [keySegments_buildVariantKey, keySegments_buildVariantKey] at hseg
    have hrest := List.append_cancel_left hseg
    obtain ⟨hname, hfile⟩ := List.append_inj' hrest (by simp only [List.length_singleton])
    refine ⟨String.toList_inj.mp ?_, String.toList_inj.mp (List.singleton_inj.mp hfile)⟩
    have hjoin : ∀ xs : List Char, ['/'].intercalate (xs.splitOn '/') = xs := fun _ =>
      List.intercalate_splitOn '/'
    rw [← hjoin (safeName env v).toList, hname, hjoin]
  · rintro ⟨hname, hfile⟩
    rw [buildVariantKey, buildVariantKey, hname, hfile]

/-! ### Lengths -/

theorem length_keyPath_le (xs : List String) :
    (keyPath xs).length ≤ (xs.map fun s => s.length + 1).sum := by
  rw [keyPath, ← String.length_toList, String.toList_intercalate]
  induction xs with
  | nil => simp
  | cons x xs ih =>
    cases xs with
    | nil =>
      rw [List.map_singleton, List.intercalate_singleton, List.map_singleton, List.sum_singleton,
        String.length_toList]
      exact Nat.le_succ x.length
    | cons y ys =>
      simp only [List.map_cons, List.intercalate_cons_cons, List.length_append, List.sum_cons,
        String.length_toList] at ih ⊢
      have hslash : "/".length = 1 := rfl
      omega

theorem length_strip_le (s : String) : (strip s).length ≤ s.length := by
  rw [← String.length_toList, ← String.length_toList, toList_strip]
  exact (Foundation.infix_trim isSpace s.toList).length_le

theorem length_keySegment_le (s : String) : (keySegment s).length ≤ max 4 s.length := by
  have hlast : (lastSegment (replaceChar '\\' '/' (strip s))).length ≤ s.length := by
    refine le_trans ?_ (length_strip_le s)
    rw [← String.length_toList, ← String.length_toList, lastSegment, String.toList_ofList]
    refine (List.rtakeWhile_suffix _ _).length_le.trans ?_
    rw [replaceChar, String.toList_ofList, List.length_map]
  rw [← String.length_toList, keySegment, String.toList_ofList, List.length_map,
    String.length_toList]
  unfold safeFilename
  dsimp only
  split_ifs
  · exact le_max_left 4 s.length
  · exact hlast.trans (le_max_right 4 s.length)

theorem UUID.length_str (u : UUID) : u.str.length = 36 := by
  rw [← String.length_toList, UUID.str, String.toList_ofList]
  simp [UUID.chars, u.hex_length]

/-- Lower case is at most three characters for one. -/
def LowerBounded (env : Env) : Prop := ∀ s : String, (env.lower s).length ≤ 3 * s.length

/-- The key of an output is within the length a key may have. -/
theorem length_buildVariantKey_le (hlower : LowerBounded env) (o m : UUID)
    (category : MediaCategory) {v f : String} (t : Option UUID) (hv : v.length ≤ 64)
    (hf : f.length ≤ 80) : (buildVariantKey env o m category v f t).length ≤ 1024 := by
  have hname : (safeName env v).length ≤ 192 := by
    have hstrip := length_strip_le v
    have hlow := hlower (strip v)
    rw [← String.length_toList, safeName, replaceChar, String.toList_ofList, List.length_map,
      String.length_toList]
    omega
  have hfile := length_keySegment_le f
  have hcategory : category.str.length ≤ 16 := by cases category <;> decide
  have huuid := UUID.length_str
  refine (length_keyPath_le _).trans ?_
  rw [safeName_category]
  cases t with
  | none =>
    have hlit : "users".length = 5 ∧ "variants".length = 8 := by decide
    simp only [ownerPrefix, List.cons_append, List.nil_append, List.map_cons, List.map_nil,
      List.sum_cons, List.sum_nil, huuid, hlit.1, hlit.2]
    omega
  | some t =>
    have hlit : "tenants".length = 7 ∧ "users".length = 5 ∧ "variants".length = 8 := by decide
    simp only [ownerPrefix, List.cons_append, List.nil_append, List.map_cons, List.map_nil,
      List.sum_cons, List.sum_nil, huuid, hlit.1, hlit.2.1, hlit.2.2]
    omega

end MediaService
