import MediaService.Scenario
import MediaService.Storage.KeySegments

/-! Which keys the public route can carry. The route splits a key at its slashes and
refuses empty and dotted segments and a few characters. The keys of originals and of
exports pass whatever the filename. The key of a variant has the name of its preset in a
segment of its own, so it passes exactly when that name does. -/

namespace MediaService

variable {env : Env} {s name : String} {c : Char} {n : ℕ} {xs : List String} {f : ImageFormat}
  {owner media job : UUID} {tenant : Option UUID} {category : MediaCategory}

/-! ### Routable keys -/

/-- A character that no key may contain. -/
def isForbidden (c : Char) : Bool := isKeyUnsafe c ∨ c = '\\'

/-- A key that the route carries: as many segments as its kind has, each a real name, and
no forbidden character. -/
structure Routable (n : ℕ) (key : String) : Prop where
  count : (keySegments key).length = n
  segments : ∀ s ∈ keySegments key, s ≠ [] ∧ s ≠ ['.'] ∧ s ≠ ['.', '.']
  characters : ∀ c ∈ key.toList, isForbidden c = false

theorem routable_of_all {l : List Char}
    (h : l.all (fun c => !isForbidden c ∧ c ≠ '/') = true) (hc : c ∈ l) :
    isForbidden c = false ∧ c ≠ '/' := by
  have hall := List.all_eq_true.mp h c hc
  rwa [decide_eq_true_eq, Bool.not_eq_true'] at hall

/-- A segment as it should be put into a key. -/
structure SafeSegment (s : String) : Prop where
  named : s ≠ "" ∧ s ≠ "." ∧ s ≠ ".."
  characters : s.toList.all (fun c => !isForbidden c ∧ c ≠ '/') = true

theorem SafeSegment.mem (h : SafeSegment s) (hc : c ∈ s.toList) :
    isForbidden c = false ∧ c ≠ '/' :=
  routable_of_all h.characters hc

theorem safeSegment_of_forall (hnamed : s ≠ "" ∧ s ≠ "." ∧ s ≠ "..")
    (h : ∀ c ∈ s.toList, isForbidden c = false ∧ c ≠ '/') : SafeSegment s where
  named := hnamed
  characters := List.all_eq_true.mpr fun c hc => by
    rw [decide_eq_true_eq, Bool.not_eq_true']
    exact h c hc

theorem mem_keyPath : c ∈ (keyPath xs).toList → c = '/' ∨ ∃ x ∈ xs, c ∈ x.toList := by
  rw [keyPath, String.toList_intercalate]
  induction xs with
  | nil => simp
  | cons x xs ih =>
    cases xs with
    | nil =>
      intro hc
      exact .inr ⟨x, List.mem_cons_self, by simpa using hc⟩
    | cons y ys =>
      rw [List.map_cons, List.map_cons, List.intercalate_cons_cons, List.mem_append,
        List.mem_append]
      rintro ((hc | hc) | hc)
      · exact .inr ⟨x, List.mem_cons_self, hc⟩
      · exact .inl (List.mem_singleton.mp hc)
      · rcases ih hc with hc | ⟨z, hz, hc⟩
        · exact .inl hc
        · exact .inr ⟨z, List.mem_cons_of_mem x hz, hc⟩

theorem mem_keyPath_of_mem (hs : s ∈ xs) (hc : c ∈ s.toList) : c ∈ (keyPath xs).toList := by
  rw [keyPath, String.toList_intercalate]
  induction xs with
  | nil => cases hs
  | cons x xs ih =>
    cases xs with
    | nil =>
      obtain rfl := List.mem_singleton.mp hs
      simpa using hc
    | cons y ys =>
      rw [List.map_cons, List.map_cons, List.intercalate_cons_cons, List.mem_append,
        List.mem_append]
      rcases List.mem_cons.mp hs with rfl | hs
      · exact .inl (.inl hc)
      · exact .inr (ih hs)

/-- A key of safe segments is routable. -/
theorem routable_keyPath (hne : xs ≠ []) (h : ∀ x ∈ xs, SafeSegment x) :
    Routable xs.length (keyPath xs) := by
  have hsplit : keySegments (keyPath xs) = xs.map String.toList := by
    rw [keySegments_keyPath hne, ← List.flatMap_singleton' (xs.map String.toList),
      List.flatMap_map]
    refine List.flatMap_congr fun x hx => List.splitOn_eq_singleton fun hslash => ?_
    exact ((h x hx).mem hslash).2 rfl
  refine ⟨by rw [hsplit, List.length_map], fun s hs => ?_, fun c hc => ?_⟩
  · rw [hsplit] at hs
    obtain ⟨x, hx, rfl⟩ := List.mem_map.mp hs
    have hchars : ∀ t : String, x ≠ t → x.toList ≠ t.toList := fun t hne he =>
      hne (String.toList_inj.mp he)
    obtain ⟨hempty, hdot, hdots⟩ := (h x hx).named
    exact ⟨hchars "" hempty, hchars "." hdot, hchars ".." hdots⟩
  · rcases mem_keyPath hc with rfl | ⟨x, hx, hc⟩
    · decide
    · exact ((h x hx).mem hc).1

/-! ### Safe segments -/

theorem UUID.mem_str {u : UUID} (h : c ∈ u.str.toList) : c ∈ '-' :: "0123456789abcdef".toList := by
  rw [UUID.str, String.toList_ofList] at h
  by_cases hc : c = '-'
  · exact hc ▸ List.mem_cons_self
  · have hfilter : c ∈ u.chars.filter (· ≠ '-') := List.mem_filter.mpr ⟨h, by simpa using hc⟩
    exact List.mem_cons_of_mem _ (UUID.mem_hex (u.filter_chars ▸ hfilter))

theorem UUID.routable_str (u : UUID) :
    ∀ c ∈ u.str.toList, isForbidden c = false ∧ c ≠ '/' := by
  have hall : ('-' :: "0123456789abcdef".toList).all
      (fun c => !isForbidden c ∧ c ≠ '/') = true := by decide
  exact fun c hc => routable_of_all hall (UUID.mem_str hc)

theorem safeSegment_of_long (hlength : 3 ≤ s.length)
    (h : ∀ c ∈ s.toList, isForbidden c = false ∧ c ≠ '/') : SafeSegment s := by
  refine safeSegment_of_forall ⟨?_, ?_, ?_⟩ h <;>
  · rintro rfl
    revert hlength
    decide

theorem safeSegment_uuid (u : UUID) : SafeSegment u.str :=
  safeSegment_of_long (by rw [u.length_str]; decide) u.routable_str

theorem safeSegment_category (c : MediaCategory) : SafeSegment c.str := by
  cases c <;> exact ⟨by decide, by decide⟩

theorem safeSegment_zip (u : UUID) : SafeSegment (u.str ++ ".zip") := by
  refine safeSegment_of_long ?_ fun c hc => ?_
  · rw [String.length_append, u.length_str]
    decide
  · have hzip : ".zip".toList.all (fun c => !isForbidden c ∧ c ≠ '/') = true := by decide
    rw [String.toList_append] at hc
    rcases List.mem_append.mp hc with hc | hc
    · exact u.routable_str c hc
    · exact routable_of_all hzip hc

/-- The last segment of a path is neither empty nor dotted, and has no backslash. -/
theorem safeFilename_named (filename : String) :
    (safeFilename filename ≠ "" ∧ safeFilename filename ≠ "." ∧ safeFilename filename ≠ "..") ∧
      '\\' ∉ (safeFilename filename).toList := by
  unfold safeFilename
  dsimp only
  split_ifs with hname
  · decide
  · simp only [not_or] at hname
    refine ⟨hname, fun hc => ?_⟩
    rw [lastSegment, String.toList_ofList] at hc
    have hc := (List.rtakeWhile_suffix _ _).subset hc
    rw [replaceChar, String.toList_ofList] at hc
    obtain ⟨d, -, hd⟩ := List.mem_map.mp hc
    split_ifs at hd with hback
    · revert hd
      decide
    · exact hback hd

/-- Whatever the filename, its segment is safe. -/
theorem safeSegment_keySegment (filename : String) : SafeSegment (keySegment filename) := by
  obtain ⟨⟨hempty, hdot, hdots⟩, hback⟩ := safeFilename_named filename
  -- Substituting one for one keeps the length, and makes no dot.
  have hname : ∀ t : String, t.toList.all (· = '.') = true → safeFilename filename ≠ t →
      keySegment filename ≠ t := by
    intro t ht hne he
    refine hne (String.toList_inj.mp ?_)
    rw [← he, keySegment, String.toList_ofList] at ht ⊢
    refine (List.map_id _).symm.trans (List.map_congr_left fun c hc => ?_)
    have hdot := of_decide_eq_true (List.all_eq_true.mp ht _ (List.mem_map_of_mem hc))
    split_ifs at hdot ⊢ with hunsafe
    · exact absurd hdot (by decide)
    · rfl
  refine safeSegment_of_forall ⟨hname "" rfl hempty, hname "." rfl hdot, hname ".." rfl hdots⟩ ?_
  intro c hc
  refine ⟨?_, fun hslash => slash_not_mem_keySegment filename (hslash ▸ hc)⟩
  rw [keySegment, String.toList_ofList] at hc
  obtain ⟨d, hd, rfl⟩ := List.mem_map.mp hc
  split_ifs with hunsafe
  · decide
  · have hne : d ≠ '\\' := fun he => hback (he ▸ hd)
    simp [isForbidden, hunsafe, hne]

/-! ### Originals and exports -/

/-- The segments that a key starts with, for its owner and tenant. -/
def ownerSegmentCount (tenant : Option UUID) : ℕ := if tenant.isSome then 4 else 2

theorem length_ownerPrefix (owner : UUID) (tenant : Option UUID) :
    (ownerPrefix owner tenant).length = ownerSegmentCount tenant := by
  cases tenant <;> rfl

theorem safeSegment_ownerPrefix (hs : s ∈ ownerPrefix owner tenant) : SafeSegment s := by
  have htenants : SafeSegment "tenants" := ⟨by decide, by decide⟩
  have husers : SafeSegment "users" := ⟨by decide, by decide⟩
  cases tenant with
  | none =>
    simp only [ownerPrefix, List.mem_cons, List.not_mem_nil, or_false] at hs
    rcases hs with rfl | rfl
    · exact husers
    · exact safeSegment_uuid owner
  | some t =>
    simp only [ownerPrefix, List.mem_cons, List.not_mem_nil, or_false] at hs
    rcases hs with rfl | rfl | rfl | rfl
    · exact htenants
    · exact safeSegment_uuid t
    · exact husers
    · exact safeSegment_uuid owner

/-- A path of safe segments under an owner is routable. -/
theorem routable_under_owner (hne : xs ≠ []) (hn : xs.length = n)
    (h : ∀ x ∈ xs, SafeSegment x) :
    Routable (ownerSegmentCount tenant + n) (keyPath (ownerPrefix owner tenant ++ xs)) := by
  rw [← length_ownerPrefix owner tenant, ← hn, ← List.length_append]
  refine routable_keyPath (List.append_ne_nil_of_right_ne_nil _ hne) fun x hx => ?_
  rcases List.mem_append.mp hx with hx | hx
  · exact safeSegment_ownerPrefix hx
  · exact h x hx

theorem routable_buildObjectKey (env : Env) (owner media : UUID) (category : MediaCategory)
    (filename : String) (tenant : Option UUID) :
    Routable (ownerSegmentCount tenant + 4)
      (buildObjectKey env owner media category filename tenant) := by
  have horiginal : SafeSegment "original" := ⟨by decide, by decide⟩
  rw [buildObjectKey, safeName_category]
  refine routable_under_owner (List.cons_ne_nil _ _) rfl fun x hx => ?_
  simp only [List.mem_cons, List.not_mem_nil, or_false] at hx
  rcases hx with rfl | rfl | rfl | rfl
  · exact safeSegment_category category
  · exact safeSegment_uuid media
  · exact horiginal
  · exact safeSegment_keySegment filename

theorem routable_buildExportArchiveKey (owner job : UUID) (tenant : Option UUID) :
    Routable (ownerSegmentCount tenant + 2) (buildExportArchiveKey owner job tenant) := by
  have hexports : SafeSegment "exports" := ⟨by decide, by decide⟩
  refine routable_under_owner (List.cons_ne_nil _ _) rfl fun x hx => ?_
  simp only [List.mem_cons, List.not_mem_nil, or_false] at hx
  rcases hx with rfl | rfl
  · exact hexports
  · exact safeSegment_zip job

/-! ### Variants -/

/-- Lower case keeps the ASCII characters that are no letters, and makes no new ones. -/
def LowerKeeps (env : Env) : Prop := ∀ (s : String) (c : Char), c.toNat < 128 →
  c.isAlpha = false → (c ∈ (env.lower s).toList ↔ c ∈ s.toList)

/-- The name of a preset, from its first character that is no space, may stand in a key. -/
def NameRoutable (name : String) : Prop :=
  ∀ c ∈ name.toList.dropWhile isSpace, isForbidden c = false ∧ c ≠ '/'

theorem not_plain_iff :
    ¬ (isForbidden c = false ∧ c ≠ '/') ↔ isForbidden c = true ∨ c = '/' := by
  rw [not_and_or, Bool.not_eq_false, not_not]

/-- What may not stand in a name is an ASCII character that is no letter. -/
theorem ascii_of_forbidden (h : isForbidden c = true ∨ c = '/') :
    c.toNat < 128 ∧ c.isAlpha = false ∧ isPlain c = false ∧ c ≠ '_' ∧ c ≠ ' ' := by
  have hascii : c.toNat < 128 := by
    simp only [isForbidden, isKeyUnsafe, decide_eq_true_eq] at h
    rcases h with ((rfl | rfl | rfl | rfl | hcontrol | hdel) | rfl) | rfl
    any_goals decide
    · omega
    · omega
  have hall : ∀ m : Fin 128, isForbidden (Char.ofNat m) = true ∨ Char.ofNat m = '/' →
      (Char.ofNat m).isAlpha = false ∧ isPlain (Char.ofNat m) = false ∧ Char.ofNat m ≠ '_' ∧
        Char.ofNat m ≠ ' ' := by decide
  have hc := hall ⟨c.toNat, hascii⟩
  rw [Char.ofNat_toNat] at hc
  exact ⟨hascii, hc h⟩

theorem toList_strip_outputName (name : String) (f : ImageFormat) :
    (strip (outputName name f)).toList =
      name.toList.dropWhile isSpace ++ '_' :: f.extension.toList := by
  refine strip_append (toList_outputName name f) fun d hd => ?_
  rcases List.mem_cons.mp hd with rfl | hd
  · decide
  · have hplain := f.plain_extension d hd
    simp only [isPlain, decide_eq_true_eq, Bool.not_eq_true'] at hplain
    exact hplain.1

/-- A character that may not stand in a key comes into the variant segment with the name. -/
theorem mem_safeName_iff (hlower : LowerKeeps env) (h : isForbidden c = true ∨ c = '/') :
    c ∈ (safeName env (outputName name f)).toList ↔ c ∈ name.toList.dropWhile isSpace := by
  obtain ⟨hascii, halpha, hplain, hunderscore, hspace⟩ := ascii_of_forbidden h
  have hreplaced : c ∈ (safeName env (outputName name f)).toList ↔
      c ∈ (env.lower (strip (outputName name f))).toList := by
    rw [safeName, replaceChar, String.toList_ofList, List.mem_map]
    constructor
    · rintro ⟨d, hd, he⟩
      split_ifs at he
      · exact absurd he.symm hunderscore
      · exact he ▸ hd
    · exact fun hc => ⟨c, hc, if_neg hspace⟩
  rw [hreplaced, hlower _ c hascii halpha, toList_strip_outputName, List.mem_append,
    List.mem_cons]
  refine or_iff_left ?_
  rintro (he | hc)
  · exact hunderscore he
  · rw [f.plain_extension c hc] at hplain
    cases hplain

/-- The variant segment is safe exactly when the name is routable: the underscore between
the name and the extension keeps it from being empty or dotted. -/
theorem safeSegment_safeName_iff (hlower : LowerKeeps env) :
    SafeSegment (safeName env (outputName name f)) ↔ NameRoutable name := by
  constructor
  · intro h c hc
    by_contra hnot
    have hbad := not_plain_iff.mp hnot
    exact hnot (h.mem ((mem_safeName_iff hlower hbad).mpr hc))
  · intro h
    have hunderscore : '_' ∈ (safeName env (outputName name f)).toList := by
      have hkept : '_' ∈ (env.lower (strip (outputName name f))).toList := by
        rw [hlower _ '_' (by decide) (by decide), toList_strip_outputName]
        exact List.mem_append_right _ List.mem_cons_self
      rw [safeName, replaceChar, String.toList_ofList]
      exact List.mem_map.mpr ⟨'_', hkept, rfl⟩
    refine safeSegment_of_forall ⟨?_, ?_, ?_⟩ fun c hc => ?_
    · exact fun he => absurd (he ▸ hunderscore) (by decide)
    · exact fun he => absurd (he ▸ hunderscore) (by decide)
    · exact fun he => absurd (he ▸ hunderscore) (by decide)
    · by_contra hnot
      have hbad := not_plain_iff.mp hnot
      exact hnot (h c ((mem_safeName_iff hlower hbad).mp hc))

theorem one_lt_length_splitOn {s : List Char} (h : '/' ∈ s) : 1 < (s.splitOn '/').length := by
  obtain ⟨a, b, rfl⟩ := List.append_of_mem h
  rw [List.splitOn_append_cons_self, List.length_append]
  have ha := List.length_pos_of_ne_nil (List.splitOn_ne_nil '/' a)
  have hb := List.length_pos_of_ne_nil (List.splitOn_ne_nil '/' b)
  omega

/-- The key of an output is routable exactly when the name of its preset is. -/
theorem routable_buildVariantKey_iff (hlower : LowerKeeps env) :
    Routable (ownerSegmentCount tenant + 5)
        (buildVariantKey env owner media category (outputName name f) (outputFilename name f)
          tenant) ↔ NameRoutable name := by
  rw [← @safeSegment_safeName_iff env name f hlower]
  have hvariants : SafeSegment "variants" := ⟨by decide, by decide⟩
  constructor
  · intro h
    rw [safeSegment_safeName_iff hlower]
    intro c hc
    by_contra hnot
    have hbad := not_plain_iff.mp hnot
    have hmem := (mem_safeName_iff (f := f) hlower hbad).mpr hc
    rcases hbad with hforbidden | rfl
    · rw [h.characters c (mem_keyPath_of_mem (by simp) hmem)] at hforbidden
      cases hforbidden
    · have hcount := h.count
      have hsplit := one_lt_length_splitOn hmem
      rw [keySegments_buildVariantKey, ownerSegments] at hcount
      simp only [List.length_append, List.length_map, List.length_cons, List.length_nil,
        length_ownerPrefix] at hcount
      omega
  · intro hname
    rw [buildVariantKey, safeName_category]
    refine routable_under_owner (List.cons_ne_nil _ _) rfl fun x hx => ?_
    simp only [List.mem_cons, List.not_mem_nil, or_false] at hx
    rcases hx with rfl | rfl | rfl | rfl | rfl
    · exact safeSegment_category category
    · exact safeSegment_uuid media
    · exact hvariants
    · exact hname
    · exact safeSegment_keySegment _

/-- The three kinds of keys are routable exactly when the name of the preset is; the keys of
originals and of exports always are. -/
theorem keys_routable_iff (hlower : LowerKeeps env) (owner media job : UUID)
    (tenant : Option UUID) (category : MediaCategory) (filename name : String) (f : ImageFormat) :
    ((Routable (ownerSegmentCount tenant + 4)
          (buildObjectKey env owner media category filename tenant) ∧
        Routable (ownerSegmentCount tenant + 2) (buildExportArchiveKey owner job tenant) ∧
        Routable (ownerSegmentCount tenant + 5)
          (buildVariantKey env owner media category (outputName name f) (outputFilename name f)
            tenant)) ↔ NameRoutable name) ∧
      Routable (ownerSegmentCount tenant + 4)
        (buildObjectKey env owner media category filename tenant) ∧
      Routable (ownerSegmentCount tenant + 2) (buildExportArchiveKey owner job tenant) := by
  have hobject := routable_buildObjectKey env owner media category filename tenant
  have hexport := routable_buildExportArchiveKey owner job tenant
  rw [and_iff_right hobject, and_iff_right hexport]
  exact ⟨routable_buildVariantKey_iff hlower, hobject, hexport⟩

theorem lowerKeeps_default : LowerKeeps Env.default := by
  intro s c hascii halpha
  have hlist : (Env.default.lower s).toList = s.toList.map Char.toLower := String.toList_ofList
  have hself : ∀ d : Char, (d.toLower).isAlpha = false ∨ d.isAlpha = false → d.toLower = d := by
    intro d hd
    by_cases hsmall : d.toNat < 128
    · have hall : ∀ m : Fin 128, ((Char.ofNat m).toLower).isAlpha = false ∨
          (Char.ofNat m).isAlpha = false → (Char.ofNat m).toLower = Char.ofNat m := by decide
      have hd' := hall ⟨d.toNat, hsmall⟩
      rw [Char.ofNat_toNat] at hd'
      exact hd' hd
    · unfold Char.toLower
      rw [dif_neg]
      rintro ⟨-, hle⟩
      exact hsmall (lt_of_le_of_lt (UInt32.le_iff_toNat_le.mp hle) (by decide))
  rw [hlist, List.mem_map]
  constructor
  · rintro ⟨d, hd, rfl⟩
    rwa [hself d (.inl halpha)]
  · exact fun hc => ⟨c, hc, hself c (.inr halpha)⟩

/-- The keys of a built-in preset, under a filename that is all path and controls. -/
theorem keys_routable_thumb :
    Routable 8 (buildObjectKey Env.default ⟨1⟩ ⟨2⟩ .asset "a/..\\%\n" (some ⟨3⟩)) ∧
      Routable 6 (buildExportArchiveKey ⟨1⟩ ⟨4⟩ (some ⟨3⟩)) ∧
      Routable 9 (buildVariantKey Env.default ⟨1⟩ ⟨2⟩ .asset (outputName "thumb" .webp)
        (outputFilename "thumb" .webp) (some ⟨3⟩)) := by
  have hname : NameRoutable "thumb" := by
    have hall : ("thumb".toList.dropWhile isSpace).all
        (fun c => !isForbidden c ∧ c ≠ '/') = true := by decide
    exact fun c hc => routable_of_all hall hc
  exact (keys_routable_iff lowerKeeps_default ⟨1⟩ ⟨2⟩ ⟨4⟩ (some ⟨3⟩) .asset "a/..\\%\n" "thumb"
    .webp).1.mpr hname

/-- A percent sign in the name of a preset ends up in the key. -/
theorem not_keys_routable_percent :
    ¬ (Routable 6 (buildObjectKey Env.default ⟨1⟩ ⟨2⟩ .asset "a.png" none) ∧
      Routable 4 (buildExportArchiveKey ⟨1⟩ ⟨4⟩ none) ∧
      Routable 7 (buildVariantKey Env.default ⟨1⟩ ⟨2⟩ .asset (outputName "50%" .webp)
        (outputFilename "50%" .webp) none)) := by
  rintro ⟨-, -, h⟩
  have hmem : '%' ∈ (buildVariantKey Env.default ⟨1⟩ ⟨2⟩ .asset (outputName "50%" .webp)
    (outputFilename "50%" .webp) none).toList := by decide +kernel
  exact absurd (h.characters '%' hmem) (by decide)

end MediaService
