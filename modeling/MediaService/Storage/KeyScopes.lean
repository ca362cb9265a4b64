import MediaService.Storage.KeySegments

/-! Whose a key is. A key of any family lies under the prefix of the owner and tenant it was
built for, and starts with nobody else's prefix. Keys of different families differ, and two
originals share a key only if they are one object of one owner and tenant. -/

namespace MediaService

variable {env : Env} {key : String} {o o' : UUID} {t t' : Option UUID}

/-! ### Prefixes -/

/-- `_owner_prefix`, as it stands in a key. -/
def ownerPath (ownerUserId : UUID) (tenantId : Option UUID) : List Char :=
  (keyPath (ownerPrefix ownerUserId tenantId)).toList

theorem ownerPath_none : ownerPath o none = "users/".toList ++ o.str.toList := by
  rw [ownerPath, keyPath, String.toList_intercalate]
  simp [ownerPrefix]

theorem ownerPath_some {tenant : UUID} : ownerPath o (some tenant) =
    "tenants/".toList ++ (tenant.str.toList ++ ("/users/".toList ++ o.str.toList)) := by
  rw [ownerPath, keyPath, String.toList_intercalate]
  simp [ownerPrefix]

theorem toList_keyPath_append {xs ys : List String} (hx : xs ≠ []) (hy : ys ≠ []) :
    (keyPath (xs ++ ys)).toList = (keyPath xs).toList ++ '/' :: (keyPath ys).toList := by
  simp only [keyPath, String.toList_intercalate]
  induction xs with
  | nil => exact absurd rfl hx
  | cons x xs ih =>
    cases xs with
    | nil =>
      obtain ⟨y, ys, rfl⟩ := List.exists_cons_of_ne_nil hy
      simp
    | cons x' xs =>
      have hrest := ih (List.cons_ne_nil x' xs)
      simp only [List.cons_append, List.map_cons, List.intercalate_cons_cons] at hrest ⊢
      rw [hrest]
      simp

/-- Of all prefixes, a text starts with one at most. -/
theorem ownerPath_inj {r r' : List Char} (h : ownerPath o t ++ r = ownerPath o' t' ++ r') :
    o = o' ∧ t = t' := by
  have hlength : ∀ u v : UUID, u.str.toList.length = v.str.toList.length := by
    intro u v
    rw [String.length_toList, String.length_toList, u.length_str, v.length_str]
  have hinj : ∀ {u v : UUID}, u.str.toList = v.str.toList → u = v := fun he =>
    UUID.str_injective (String.toList_inj.mp he)
  cases t with
  | none =>
    cases t' with
    | none =>
      rw [ownerPath_none, ownerPath_none, List.append_assoc, List.append_assoc] at h
      have howner := List.append_inj_left (List.append_cancel_left h) (hlength o o')
      exact ⟨hinj howner, rfl⟩
    | some tenant' =>
      rw [ownerPath_none, ownerPath_some] at h
      cases h
  | some tenant =>
    cases t' with
    | none =>
      rw [ownerPath_none, ownerPath_some] at h
      cases h
    | some tenant' =>
      rw [ownerPath_some, ownerPath_some] at h
      simp only [List.append_assoc] at h
      obtain ⟨htenant, hrest⟩ :=
        List.append_inj (List.append_cancel_left h) (hlength tenant tenant')
      have howner := List.append_inj_left (List.append_cancel_left hrest) (hlength o o')
      exact ⟨hinj howner, congrArg some (hinj htenant)⟩

/-! ### The families -/

/-- The keys built for an owner and tenant. -/
inductive BuiltKey (env : Env) (ownerUserId : UUID) (tenantId : Option UUID) : String → Prop
  | original (mediaId : UUID) (category : MediaCategory) (filename : String) :
      BuiltKey env ownerUserId tenantId
        (buildObjectKey env ownerUserId mediaId category filename tenantId)
  | variant (mediaId : UUID) (category : MediaCategory) (variantName filename : String) :
      BuiltKey env ownerUserId tenantId
        (buildVariantKey env ownerUserId mediaId category variantName filename tenantId)
  | exportArchive (jobId : UUID) :
      BuiltKey env ownerUserId tenantId (buildExportArchiveKey ownerUserId jobId tenantId)

/-- A key goes on below the prefix it was built under. -/
theorem BuiltKey.under (h : BuiltKey env o t key) :
    ∃ rest, key.toList = ownerPath o t ++ '/' :: rest := by
  have hprefix : ownerPrefix o t ≠ [] := by cases t <;> exact List.cons_ne_nil _ _
  cases h with
  | original => exact ⟨_, toList_keyPath_append hprefix (List.cons_ne_nil _ _)⟩
  | variant => exact ⟨_, toList_keyPath_append hprefix (List.cons_ne_nil _ _)⟩
  | exportArchive => exact ⟨_, toList_keyPath_append hprefix (List.cons_ne_nil _ _)⟩

/-- A key starts with no prefix but its own. -/
theorem BuiltKey.owner_unique (h : BuiltKey env o t key) (hkey : ownerPath o' t' <+: key.toList) :
    o' = o ∧ t' = t := by
  obtain ⟨rest, hrest⟩ := h.under
  obtain ⟨rest', hrest'⟩ := hkey
  exact ownerPath_inj (hrest'.trans hrest)

/-- Keys are scoped: originals are told apart by tenant, owner and media id, the families
are disjoint, and a key lies under the prefix of its own owner and tenant alone. -/
theorem keys_scoped (env : Env) :
    (∀ o o' m m' c c' f f' t t',
      buildObjectKey env o m c f t = buildObjectKey env o' m' c' f' t' →
        t = t' ∧ o = o' ∧ m = m') ∧
      (∀ o o' m m' c c' v f f' t t',
        buildObjectKey env o m c f t ≠ buildVariantKey env o' m' c' v f' t') ∧
      (∀ o o' m j c f t t', buildObjectKey env o m c f t ≠ buildExportArchiveKey o' j t') ∧
      (∀ o o' m j c v f t t', buildVariantKey env o m c v f t ≠ buildExportArchiveKey o' j t') ∧
      ∀ o t key, BuiltKey env o t key →
        (∃ rest, key.toList = ownerPath o t ++ '/' :: rest) ∧
          ∀ o' t', ownerPath o' t' <+: key.toList → o' = o ∧ t' = t := by
  refine ⟨fun o o' m m' c c' f f' t t' h => ?_, fun o o' m m' c c' v f f' t t' => ?_,
    fun o o' m j c f t t' => ?_, fun o o' m j c v f t t' => ?_, fun o t key h => ⟨h.under, ?_⟩⟩
  · obtain ⟨ho, ht, hm⟩ := buildObjectKey_inj h
    exact ⟨ht, ho, hm⟩
  · exact buildObjectKey_ne_buildVariantKey o o' m m' c c' f f' v t t'
  · exact buildObjectKey_ne_buildExportArchiveKey o o' m j c f t t'
  · exact buildVariantKey_ne_buildExportArchiveKey o o' m j c f v t t'
  · exact fun o' t' hkey => h.owner_unique hkey

end MediaService
