import MediaService.Core.Config

/-! Object keys. A key is a slash-separated path under the tenant and owner of
the media it belongs to. An original's key determines its media id, and no
variant's key and no export's key is an original's. -/

namespace MediaService

/-! ### Paths -/

/-- Slash-join the segments of a key. -/
def keyPath (segments : List String) : String := "/".intercalate segments

/-- The segments a key falls into. -/
def keySegments (key : String) : List (List Char) := key.toList.splitOn '/'

theorem keySegments_keyPath {xs : List String} (h : xs ≠ []) :
    keySegments (keyPath xs) = xs.flatMap fun s => s.toList.splitOn '/' := by
  simp only [keySegments, keyPath, String.toList_intercalate]
  induction xs with
  | nil => exact absurd rfl h
  | cons x xs ih =>
    cases xs with
    | nil => simp
    | cons y ys =>
      simp only [List.map_cons, List.intercalate_cons_cons, List.flatMap_cons] at ih ⊢
      rw [show "/".toList = ['/'] from rfl, List.append_assoc, List.singleton_append,
        List.splitOn_append_cons_self]
      rw [show "/".toList = ['/'] from rfl] at ih
      rw [ih (by simp)]

/-! ### Key construction -/

/-- `_owner_prefix`: the segments shared by everything one owner stores. -/
def ownerPrefix (ownerUserId : UUID) (tenantId : Option UUID) : List String :=
  match tenantId with
  | some t => ["tenants", t.str, "users", ownerUserId.str]
  | none => ["users", ownerUserId.str]

/-- `_safe_filename`. -/
def safeFilename (filename : String) : String :=
  let base := lastSegment (replaceChar '\\' '/' (strip filename))
  if base = "" ∨ base = "." ∨ base = ".." then "file" else base

def isKeyUnsafe (c : Char) : Bool :=
  c = ';' ∨ c = '%' ∨ c = '?' ∨ c = '#' ∨ c.toNat < 0x20 ∨ c.toNat = 0x7f

/-- `_key_segment`. -/
def keySegment (filename : String) : String :=
  String.ofList ((safeFilename filename).toList.map fun c => if isKeyUnsafe c then '_' else c)

section Build

variable (env : Env)

/-- `name.strip().lower().replace(" ", "_")`. -/
def safeName (name : String) : String := replaceChar ' ' '_' (env.lower (strip name))

def buildObjectKey (ownerUserId mediaId : UUID) (category : MediaCategory) (filename : String)
    (tenantId : Option UUID) : String :=
  keyPath (ownerPrefix ownerUserId tenantId ++
    [safeName env category.str, mediaId.str, "original", keySegment filename])

def buildVariantKey (ownerUserId mediaId : UUID) (category : MediaCategory)
    (variantName filename : String) (tenantId : Option UUID) : String :=
  keyPath (ownerPrefix ownerUserId tenantId ++
    [safeName env category.str, mediaId.str, "variants", safeName env variantName,
      keySegment filename])

def buildExportArchiveKey (ownerUserId jobId : UUID) (tenantId : Option UUID) : String :=
  keyPath (ownerPrefix ownerUserId tenantId ++ ["exports", jobId.str ++ ".zip"])

end Build

/-! ### Segments without a slash -/

theorem slash_not_mem_safeFilename (filename : String) : '/' ∉ (safeFilename filename).toList := by
  unfold safeFilename
  dsimp only
  split
  · decide
  · exact slash_not_mem_lastSegment _

theorem slash_not_mem_keySegment (filename : String) : '/' ∉ (keySegment filename).toList := by
  rw [keySegment, String.toList_ofList, List.mem_map]
  rintro ⟨c, hc, he⟩
  split at he
  · revert he
    decide
  · exact slash_not_mem_safeFilename filename (he ▸ hc)

theorem safeName_category (env : Env) (c : MediaCategory) : safeName env c.str = c.str := by
  have hascii : c.str.toList.all (fun x => x.toNat < 128) = true := by cases c <;> decide
  have hstrip : strip c.str = c.str := by cases c <;> decide
  unfold safeName
  rw [hstrip,
    env.lower_ascii c.str fun x hx => of_decide_eq_true (List.all_eq_true.mp hascii x hx)]
  cases c <;> decide

theorem splitOn_uuid (u : UUID) : u.str.toList.splitOn '/' = [u.str.toList] :=
  List.splitOn_eq_singleton u.slash_not_mem_str

theorem splitOn_keySegment (f : String) :
    (keySegment f).toList.splitOn '/' = [(keySegment f).toList] :=
  List.splitOn_eq_singleton (slash_not_mem_keySegment f)

theorem splitOn_category (c : MediaCategory) : c.str.toList.splitOn '/' = [c.str.toList] :=
  List.splitOn_eq_singleton (by cases c <;> decide)

theorem splitOn_zip (u : UUID) :
    (u.str ++ ".zip").toList.splitOn '/' = [u.str.toList ++ ".zip".toList] := by
  rw [String.toList_append]
  apply List.splitOn_eq_singleton
  rw [List.mem_append, not_or]
  exact ⟨u.slash_not_mem_str, by decide⟩

/-- The segments of an owner's prefix. -/
def ownerSegments (ownerUserId : UUID) (tenantId : Option UUID) : List (List Char) :=
  (ownerPrefix ownerUserId tenantId).map String.toList

theorem flatMap_ownerPrefix (o : UUID) (t : Option UUID) :
    (ownerPrefix o t).flatMap (fun s => s.toList.splitOn '/') = ownerSegments o t := by
  have husers : "users".toList.splitOn '/' = ["users".toList] := by decide
  have htenants : "tenants".toList.splitOn '/' = ["tenants".toList] := by decide
  cases t <;>
    simp only [ownerPrefix, ownerSegments, List.flatMap_cons, List.flatMap_nil, husers, htenants,
      splitOn_uuid] <;> rfl

/-- Two prefixes followed by different paths belong to one owner and tenant. -/
theorem ownerSegments_append_inj {o o' : UUID} {t t' : Option UUID} {xs ys : List (List Char)}
    (h : ownerSegments o t ++ xs = ownerSegments o' t' ++ ys) : o = o' ∧ t = t' ∧ xs = ys := by
  have hstr : ∀ u v : UUID, u.str.toList = v.str.toList → u = v := fun u v huv =>
    UUID.str_injective (String.toList_inj.mp huv)
  cases t <;> cases t' <;>
    simp [ownerSegments, ownerPrefix] at h ⊢
  · exact ⟨hstr _ _ h.1, h.2⟩
  · exact ⟨hstr _ _ h.2.1, hstr _ _ h.1, h.2.2⟩

section Segments

variable (env : Env)

theorem keySegments_buildObjectKey (o m : UUID) (c : MediaCategory) (f : String)
    (t : Option UUID) : keySegments (buildObjectKey env o m c f t) =
      ownerSegments o t ++
        [c.str.toList, m.str.toList, "original".toList, (keySegment f).toList] := by
  rw [buildObjectKey, keySegments_keyPath (by simp), List.flatMap_append, flatMap_ownerPrefix]
  simp only [List.flatMap_cons, List.flatMap_nil, safeName_category, splitOn_uuid,
    splitOn_keySegment, splitOn_category]
  rfl

theorem keySegments_buildVariantKey (o m : UUID) (c : MediaCategory) (v f : String)
    (t : Option UUID) : keySegments (buildVariantKey env o m c v f t) =
      ownerSegments o t ++ [c.str.toList, m.str.toList, "variants".toList] ++
        ((safeName env v).toList.splitOn '/' ++ [(keySegment f).toList]) := by
  rw [buildVariantKey, keySegments_keyPath (by simp), List.flatMap_append, flatMap_ownerPrefix]
  simp only [List.flatMap_cons, List.flatMap_nil, safeName_category, splitOn_uuid,
    splitOn_keySegment, splitOn_category, List.append_assoc]
  rfl

theorem keySegments_buildExportArchiveKey (o j : UUID) (t : Option UUID) :
    keySegments (buildExportArchiveKey o j t) =
      ownerSegments o t ++ ["exports".toList, j.str.toList ++ ".zip".toList] := by
  rw [buildExportArchiveKey, keySegments_keyPath (by simp), List.flatMap_append,
    flatMap_ownerPrefix]
  simp only [List.flatMap_cons, List.flatMap_nil, splitOn_zip]
  rfl

end Segments

/-! ### Disjointness -/

variable {env : Env}

/-- An original's key determines the media id, its owner and its tenant. -/
theorem buildObjectKey_inj {o o' m m' : UUID} {c c' : MediaCategory} {f f' : String}
    {t t' : Option UUID} (h : buildObjectKey env o m c f t = buildObjectKey env o' m' c' f' t') :
    o = o' ∧ t = t' ∧ m = m' := by
  have hseg := congrArg keySegments h
  rw [keySegments_buildObjectKey, keySegments_buildObjectKey] at hseg
  obtain ⟨ho, ht, hrest⟩ := ownerSegments_append_inj hseg
  refine ⟨ho, ht, UUID.str_injective (String.toList_inj.mp ?_)⟩
  simp only [List.cons.injEq] at hrest
  exact hrest.2.1

theorem buildObjectKey_ne_buildVariantKey (o o' m m' : UUID) (c c' : MediaCategory)
    (f f' v : String) (t t' : Option UUID) :
    buildObjectKey env o m c f t ≠ buildVariantKey env o' m' c' v f' t' := by
  intro h
  have hseg := congrArg keySegments h
  rw [keySegments_buildObjectKey, keySegments_buildVariantKey, List.append_assoc] at hseg
  obtain ⟨-, -, hrest⟩ := ownerSegments_append_inj hseg
  simp at hrest

theorem buildObjectKey_ne_buildExportArchiveKey (o o' m j : UUID) (c : MediaCategory)
    (f : String) (t t' : Option UUID) :
    buildObjectKey env o m c f t ≠ buildExportArchiveKey o' j t' := by
  intro h
  have hseg := congrArg keySegments h
  rw [keySegments_buildObjectKey, keySegments_buildExportArchiveKey] at hseg
  obtain ⟨-, -, hrest⟩ := ownerSegments_append_inj hseg
  simp at hrest

theorem buildVariantKey_ne_buildExportArchiveKey (o o' m j : UUID) (c : MediaCategory)
    (f v : String) (t t' : Option UUID) :
    buildVariantKey env o m c v f t ≠ buildExportArchiveKey o' j t' := by
  intro h
  have hseg := congrArg keySegments h
  rw [keySegments_buildVariantKey, keySegments_buildExportArchiveKey, List.append_assoc] at hseg
  obtain ⟨-, -, hrest⟩ := ownerSegments_append_inj hseg
  have := congrArg List.length hrest
  simp at this

end MediaService
