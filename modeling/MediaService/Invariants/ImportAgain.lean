import MediaService.Invariants.ImportRows

/-! What a row of an import leaves, and what the same row finds when it runs again.
The tree the first run leaves is the one the second finds, no room is gained under
the quota, and a row that has run leaves its object, its refusal or nothing to find
in the same place. The exception is a row whose completion came after its session
had expired: its session stays behind without an object. -/

namespace MediaService

open Foundation

variable {env : Env} {user : UserModel}

/-! ### The tree -/

/-- The later categories continue the earlier ones. -/
def Continues (db db' : Database) : Prop := db.categories.rows <+: db'.categories.rows

theorem Continues.refl (db : Database) : Continues db db := List.prefix_refl _

theorem Continues.trans {db db' db'' : Database} (h : Continues db db')
    (h' : Continues db' db'') : Continues db db'' :=
  List.IsPrefix.trans h h'

theorem Continues.siblingWithSlug {db db' : Database} (h : Continues db db') {slug : String}
    {parentId : Option ℤ} {tenantId : Option UUID} {ownerId : UUID} {row : Category}
    (hs : siblingWithSlug db slug parentId tenantId ownerId none = some row) :
    siblingWithSlug db' slug parentId tenantId ownerId none = some row :=
  (h.filter _).find?_eq_some hs

/-- A level once ensured is found again, as long as categories are only added. -/
theorem ensureLevel_again {db db' : Database} {parentId : Option ℤ} {name slug : String}
    {row : Category} {n : ℕ} (h : ensureLevel db user parentId name slug = .ok (db', row, n)) :
    Continues db db' ∧ ∀ db'', Continues db' db'' →
      ensureLevel db'' user parentId name slug = .ok (db'', row, 0) := by
  have hfound : ∀ {db : Database},
      siblingWithSlug db slug parentId user.tenantId user.id none = some row →
      ∀ db'', Continues db db'' →
        ensureLevel db'' user parentId name slug = .ok (db'', row, 0) := by
    intro db hs db'' hcont
    rw [ensureLevel, hcont.siblingWithSlug hs]
  obtain ⟨hs, rfl, -⟩ | ⟨hs, hins, -⟩ := ensureLevel_ok h
  · exact ⟨.refl _, hfound hs⟩
  · obtain ⟨hrow, t, ht, rfl⟩ := insertCategory_ok hins
    have hrows := Table.rows_of_insert ht
    refine ⟨⟨_, hrows.symm⟩, hfound ?_⟩
    unfold siblingWithSlug categoriesInWriteScope at hs ⊢
    dsimp only
    rw [hrows, List.filter_append, List.find?_append, hs, Option.none_or, hrow,
      List.filter_cons_of_pos (by cases user.tenantId <;> simp [inWriteScope]),
      List.find?_cons_of_pos (by simp)]

theorem ensureLevels_again {db db' : Database} {parent : Option Category} {n m : ℕ}
    {segments : List (String × String)} {row : Option Category}
    (h : ensureLevels user db parent n segments = (db', .ok (row, m))) :
    Continues db db' ∧ ∀ db'', Continues db' db'' → ∀ k,
      ensureLevels user db'' parent k segments = (db'', .ok (row, k)) := by
  induction segments generalizing db parent n with
  | nil =>
    cases h
    exact ⟨.refl _, fun _ _ _ => rfl⟩
  | cons level segments ih =>
    obtain ⟨name, slug⟩ := level
    rw [ensureLevels] at h
    split at h
    · cases h
    · rename_i db₁ row₁ n₁ hlevel
      obtain ⟨hcont, hagain⟩ := ensureLevel_again hlevel
      obtain ⟨hcont', hagain'⟩ := ih h
      refine ⟨hcont.trans hcont', fun db'' hc k => ?_⟩
      rw [ensureLevels, hagain db'' (hcont'.trans hc)]
      exact hagain' db'' hc k

theorem ensureCategoryPath_again {db db' : Database} {segments : List (String × String)}
    {row : Category} {n : ℕ} (h : ensureCategoryPath db user segments = (db', .ok (row, n))) :
    Continues db db' ∧ ∀ db'', Continues db' db'' →
      ensureCategoryPath db'' user segments = (db'', .ok (row, 0)) := by
  unfold ensureCategoryPath at h
  split at h
  · cases h
  · cases h
  · rename_i db₁ row₁ n₁ hlevels
    cases h
    obtain ⟨hcont, hagain⟩ := ensureLevels_again hlevels
    refine ⟨hcont, fun db'' hc => ?_⟩
    rw [ensureCategoryPath, hagain db'' hc]

theorem ensureChains_again {db db' : Database} {tree tree' : RecreatedTree}
    {chains : List (String × CategoryChain)}
    (h : ensureChains user db tree chains = (db', .ok tree')) :
    Continues db db' ∧ ∃ rows, tree'.byPath = tree.byPath ++ rows ∧
      ∀ db'', Continues db' db'' → ∀ tree'', ∃ tree₂,
        ensureChains user db'' tree'' chains = (db'', .ok tree₂) ∧
          tree₂.byPath = tree''.byPath ++ rows ∧ tree₂.created = tree''.created := by
  induction chains generalizing db tree with
  | nil =>
    cases h
    exact ⟨.refl _, [], (List.append_nil _).symm, fun _ _ tree'' =>
      ⟨tree'', rfl, (List.append_nil _).symm, rfl⟩⟩
  | cons p chains ih =>
    obtain ⟨key, chain⟩ := p
    rw [ensureChains] at h
    split at h
    · cases h
    · rename_i db₁ row n hpath
      obtain ⟨hcont, hagain⟩ := ensureCategoryPath_again hpath
      obtain ⟨hcont', rows, hrows, hagain'⟩ := ih h
      refine ⟨hcont.trans hcont', (key, row) :: rows, ?_, fun db'' hc tree'' => ?_⟩
      · rw [hrows, List.append_assoc]
        rfl
      · obtain ⟨tree₂, hok, hbyPath, hcreated⟩ := hagain' db'' hc
          ⟨tree''.byPath ++ [(key, row)], tree''.created + 0, tree''.reused + (1 - 0)⟩
        refine ⟨tree₂, ?_, ?_, hcreated⟩
        · rw [ensureChains, hagain db'' (hcont'.trans hc)]
          exact hok
        · rw [hbyPath, List.append_assoc]
          rfl

/-- The tree a run leaves is the tree the next run of the document finds. -/
theorem recreateTree_again {db db' : Database} {manifest : ImportManifest} {tree : RecreatedTree}
    (h : recreateTree env db user manifest = (db', .ok tree)) {db'' : Database}
    (hc : Continues db' db'') :
    ∃ tree', recreateTree env db'' user manifest = (db'', .ok tree') ∧
      tree'.byPath = tree.byPath ∧ tree'.created = 0 := by
  unfold recreateTree at h ⊢
  split at h
  · cases h
  · rename_i chains hchains
    split at h
    · cases h
    · rename_i hcap
      obtain ⟨-, rows, hrows, hagain⟩ := ensureChains_again h
      obtain ⟨tree', hok, hbyPath, hcreated⟩ := hagain db'' hc ⟨[], 0, 0⟩
      exact ⟨tree', (if_neg hcap).trans hok, hbyPath.trans hrows.symm, hcreated⟩

/-! ### Quota -/

/-- What the later totals still admit, the earlier ones admit. -/
def Narrows (settings : Settings) (scope : Scope) (usage usage' : UsageTable) : Prop :=
  ∀ n, checkQuota settings usage' scope n = .ok () → checkQuota settings usage scope n = .ok ()

theorem checkQuota_eq_ok {settings : Settings} {usage : UsageTable} {scope : Scope} {n : ℕ} :
    checkQuota settings usage scope n = .ok () ↔
      exceeds (effectiveQuotaBytes settings (usage.find scope))
          ((usageTotals usage scope).1 + n) = false ∧
        exceeds (effectiveQuotaObjects settings (usage.find scope))
          ((usageTotals usage scope).2 + 1) = false := by
  have htotals : ((usage.find scope).map StorageUsage.totalBytes).getD 0 =
        (usageTotals usage scope).1 ∧
      ((usage.find scope).map StorageUsage.objectCount).getD 0 = (usageTotals usage scope).2 := by
    unfold usageTotals
    cases usage.find scope <;> exact ⟨rfl, rfl⟩
  unfold checkQuota
  dsimp only
  rw [htotals.1, htotals.2]
  cases exceeds (effectiveQuotaBytes settings (usage.find scope))
      ((usageTotals usage scope).1 + n) <;>
    cases exceeds (effectiveQuotaObjects settings (usage.find scope))
      ((usageTotals usage scope).2 + 1) <;> simp

/-- A reservation leaves the ceilings of its scope as they were. -/
theorem effectiveQuota_reserve (settings : Settings) (usage : UsageTable) (scope : Scope) (size : ℕ)
    (now : Timestamp) :
    effectiveQuotaBytes settings
        ((reserveStorageForObject settings usage scope size now).1.find scope) =
          effectiveQuotaBytes settings (usage.find scope) ∧
      effectiveQuotaObjects settings
        ((reserveStorageForObject settings usage scope size now).1.find scope) =
          effectiveQuotaObjects settings (usage.find scope) := by
  unfold reserveStorageForObject
  dsimp only
  split <;> rw [Table.find_put, if_pos (by simp)] <;> unfold getOrCreateUsage <;>
    cases usage.find scope <;> exact ⟨rfl, rfl⟩

/-- A reservation, granted or refused, leaves no more room than there was. -/
theorem narrows_reserve (settings : Settings) (usage : UsageTable) (scope : Scope) (size : ℕ)
    (now : Timestamp) :
    Narrows settings scope usage (reserveStorageForObject settings usage scope size now).1 := by
  intro n h
  obtain ⟨hbytes, hobjects⟩ := effectiveQuota_reserve settings usage scope size now
  have htotals : (usageTotals usage scope).1 ≤
        (usageTotals (reserveStorageForObject settings usage scope size now).1 scope).1 ∧
      (usageTotals usage scope).2 ≤
        (usageTotals (reserveStorageForObject settings usage scope size now).1 scope).2 := by
    cases hr : (reserveStorageForObject settings usage scope size now).2 with
    | some reason =>
      rw [usageTotals_reserve_refused hr]
      exact ⟨le_refl _, le_refl _⟩
    | none =>
      rw [usageTotals_reserve_granted hr, if_pos rfl]
      simp
  rw [checkQuota_eq_ok, hbytes, hobjects] at h
  rw [checkQuota_eq_ok]
  exact ⟨exceeds_mono (by omega) h.1, exceeds_mono (by omega) h.2⟩

/-! ### Staging -/

theorem stageUpload_eq_ok {db : Database} {req : UploadInitiateRequest} {id : UUID}
    {staged : StagedUpload} :
    stageUpload env db user req id = .ok staged ↔
      isAllowedDeclaredMime req.mimeType = true ∧
        checkQuota env.settings db.usage ⟨user.id, user.tenantId⟩ req.expectedSizeBytes = .ok () ∧
        ∃ categories, resolveCategoryIds db user req.categoryIds = .ok categories ∧
          staged = {
            mediaId := id
            ownerId := user.id
            tenantId := user.tenantId
            bucket := bucketForVisibility env.settings req.visibility
            objectKey :=
              buildObjectKey env user.id id req.category req.originalFilename user.tenantId
            categoryIds := categories.map Category.id } := by
  unfold stageUpload
  by_cases hm : isAllowedDeclaredMime req.mimeType = true
  · cases checkQuota env.settings db.usage ⟨user.id, user.tenantId⟩ req.expectedSizeBytes with
    | error e => simp [hm, bind, Except.bind]
    | ok u =>
      cases resolveCategoryIds db user req.categoryIds with
      | error e => simp [hm, bind, Except.bind]
      | ok cs => simp [hm, bind, Except.bind, pure, Except.pure, eq_comm]
  · simp [hm, refuse, bind, Except.bind]

theorem resolveCategoryIds_same {db db' : Database} (h : SameCategories db db') (ids : List ℤ) :
    resolveCategoryIds db' user ids = resolveCategoryIds db user ids := by
  unfold resolveCategoryIds scopedCategories loadCategory
  rw [h.1]

/-- What is staged when the quota has narrowed could be staged before. -/
theorem stageUpload_narrows {db db' : Database} (hc : SameCategories db db')
    (hq : Narrows env.settings ⟨user.id, user.tenantId⟩ db.usage db'.usage)
    {req : UploadInitiateRequest} {id : UUID} {staged : StagedUpload}
    (h : stageUpload env db' user req id = .ok staged) :
    stageUpload env db user req id = .ok staged := by
  obtain ⟨hm, hquota, categories, hcat, he⟩ := stageUpload_eq_ok.mp h
  rw [resolveCategoryIds_same hc] at hcat
  exact stageUpload_eq_ok.mpr ⟨hm, hq _ hquota, categories, hcat, he⟩

/-! ### Completion -/

/-- What a completion makes of its session when no storage operation fails and no
exception escapes: it expires, or its object is rejected or promoted. -/
inductive Completes (env : Env) (now : Timestamp) (s : UploadSession) (categories : List Category)
    (db db' : Database) : Except Failure MediaObject → Prop
  | expired {e : HTTPException} : s.expiresAt < now →
      db' = db.updateSession { s with status := .expired } →
      Completes env now s categories db db' (.error (.http e))
  | rejected {e : HTTPException} {usage : UsageTable} {o : MediaObject} {t : Table MediaObject.id} :
      Narrows env.settings s.scope db.usage usage → o.id = s.id → o.status = .rejected →
      db.objects.insert o = some t →
      db' = { db with
        usage := usage
        objects := t
        sessions := db.sessions.update { s with status := .aborted } } →
      Completes env now s categories db db' (.error (.http e))
  | promoted {usage : UsageTable} {o : MediaObject} {t : Table MediaObject.id} :
      Narrows env.settings s.scope db.usage usage → o.id = s.id →
      o.ownerUserId = s.ownerUserId → o.status = .uploaded → o.deletedAt = none →
      db.objects.insert o = some t →
      db' = { (db.setFiling s.id (categories.map Category.id)) with
        usage := usage
        objects := t
        sessions := db.sessions.update { s with status := .completed, completedAt := some now } } →
      Completes env now s categories db db' (.ok o)

section Completion

variable {b : Backend} {s : UploadSession} {now : Timestamp} {categories : List Category}

theorem insertObject_error {db : Database} {o : MediaObject} {e : Failure}
    (h : db.insertObject o = .error e) (refusal : HTTPException) : e ≠ .http refusal := by
  rintro rfl
  unfold Database.insertObject at h
  split at h
  · cases h
  · split at h <;> cases h

theorem digestOk_ne_none {st : Storage} {faults : Faults} {l : Location} {content : Bytes}
    (hread : st.read faults .stream l = some content) (sha256 : Option String) :
    digestOk env st faults l sha256 ≠ none := by
  unfold digestOk Storage.streamObject
  rw [hread]
  split
  · exact Option.some_ne_none _
  · split <;> exact Option.some_ne_none _

theorem completes_rejectUpload {usage : UsageTable}
    (hn : Narrows env.settings s.scope b.db.usage usage) (reason : UploadRejectReason) (size : ℕ)
    {storage : Storage} :
    Completes env now s categories b.db
        (rejectUpload { b with storage := storage } usage Faults.none now s reason size).1.db
        (rejectUpload { b with storage := storage } usage Faults.none now s reason size).2 ∨
      ∃ e, (rejectUpload { b with storage := storage } usage Faults.none now s reason size).2 =
        .error e ∧ ∀ refusal, e ≠ .http refusal := by
  unfold rejectUpload
  dsimp only
  split
  · rename_i e he
    exact .inr ⟨e, rfl, insertObject_error he⟩
  · rename_i db hins
    obtain ⟨-, t, ht, rfl⟩ := Database.insertObject_ok hins
    exact .inl (.rejected hn rfl rfl ht rfl)

theorem completes_completeSession (hstored : (b.storage.find s.location).isSome)
    (sha256 : Option String) :
    Completes env now s categories b.db
        (completeSession env b Faults.none now s sha256 categories).1.db
        (completeSession env b Faults.none now s sha256 categories).2 ∨
      ∃ e, (completeSession env b Faults.none now s sha256 categories).2 = .error e ∧
        ∀ refusal, e ≠ .http refusal := by
  obtain ⟨stored, hfind⟩ := Option.isSome_iff_exists.mp hstored
  have hread : ∀ op, b.storage.read Faults.none op s.location = some stored.content := by
    intro op
    simp [Storage.read, Faults.none, Storage.content, hfind]
  have hsame : Narrows env.settings s.scope b.db.usage b.db.usage := fun _ h => h
  unfold completeSession Storage.statObject
  rw [hread]
  dsimp only [Option.map_some]
  split
  · exact completes_rejectUpload hsame _ _
  · split
    · exact completes_rejectUpload hsame _ _
    · split
      · rename_i hnone
        exact absurd hnone (digestOk_ne_none (hread .stream) sha256)
      · exact completes_rejectUpload hsame _ _
      · split
        · rename_i hct
          simp [Storage.setObjectContentType, Faults.none, hfind] at hct
        · split
          · rename_i usage reason hreserve
            have hn := narrows_reserve env.settings b.db.usage s.scope stored.content.length now
            rw [hreserve] at hn
            exact completes_rejectUpload hn _ _
          · rename_i usage hreserve
            have hn := narrows_reserve env.settings b.db.usage s.scope stored.content.length now
            rw [hreserve] at hn
            unfold promoteUpload
            dsimp only
            split
            · rename_i e he
              exact .inr ⟨e, rfl, insertObject_error he⟩
            · rename_i db hins
              obtain ⟨-, t, ht, rfl⟩ := Database.insertObject_ok hins
              dsimp only [MediaObject.validated]
              split
              · exact .inl (.promoted hn rfl rfl rfl rfl ht rfl)
              · refine .inr ⟨_, rfl, fun refusal he => ?_⟩
                cases he

variable (env now) in
theorem completes_completeUpload (hs : b.db.sessions.find s.id = some s)
    (howner : s.ownerUserId = user.id) (hinitiated : s.status = .initiated)
    (hstored : (b.storage.find s.location).isSome) {ids : List ℤ}
    (hcat : resolveCategoryIds b.db user ids = .ok categories) (sha256 : Option String) :
    Completes env now s categories b.db
        (completeUpload env b Faults.none now user s.id ⟨sha256, some ids⟩).1.db
        (completeUpload env b Faults.none now user s.id ⟨sha256, some ids⟩).2 ∨
      ∃ e, (completeUpload env b Faults.none now user s.id ⟨sha256, some ids⟩).2 = .error e ∧
        ∀ refusal, e ≠ .http refusal := by
  have hload := loadOwnedSession_eq_ok hs (.inr howner)
  unfold completeUpload ensureCompletable
  rw [hload]
  dsimp only
  rw [if_neg (not_not.mpr hinitiated)]
  by_cases hlate : now > s.expiresAt
  · rw [if_pos hlate]
    exact .inl (.expired hlate rfl)
  · rw [if_neg hlate]
    dsimp only [completionCategories]
    rw [hcat]
    exact completes_completeSession hstored sha256

end Completion

/-! ### One row -/

/-- What the row of one id leaves: the objects, filings and sessions of the other
ids, the categories, and no more room under the quota. -/
structure RowFrame (env : Env) (user : UserModel) (id : UUID) (db db' : Database) : Prop where
  object : ∀ k, k ≠ id → db'.objects.find k = db.objects.find k
  links : ∀ k c, k ≠ id → ((k, c) ∈ db'.links ↔ (k, c) ∈ db.links)
  session : ∀ k, k ≠ id → db'.sessions.find k = db.sessions.find k
  categories : SameCategories db db'
  quota : Narrows env.settings ⟨user.id, user.tenantId⟩ db.usage db'.usage

theorem RowFrame.refl (env : Env) (user : UserModel) (id : UUID) (db : Database) :
    RowFrame env user id db db where
  object _ _ := rfl
  links _ _ _ := Iff.rfl
  session _ _ := rfl
  categories := .refl db
  quota _ h := h

/-- An object an import may link to. -/
def Usable (user : UserModel) (o : MediaObject) : Prop :=
  o.ownerUserId = user.id ∧ o.deletedAt = none ∧ isImportable o.status = true

instance (user : UserModel) (o : MediaObject) : Decidable (Usable user o) :=
  inferInstanceAs (Decidable (_ ∧ _ ∧ _))

theorem importableMatch_usable {db : Database} {id : UUID} {o : MediaObject} {usable : Bool} :
    importableMatch db user id = some (o, usable) ↔
      db.objects.find id = some o ∧ usable = decide (Usable user o) := by
  unfold importableMatch
  constructor
  · intro h
    obtain ⟨o', ho', he⟩ := Option.map_eq_some_iff.mp h
    cases he
    exact ⟨ho', rfl⟩
  · rintro ⟨ho, rfl⟩
    rw [ho]
    rfl

/-- The row's bytes are in the archive, pass every check before the session is
recorded, and can be read. -/
def Reaches (env : Env) (db : Database) (user : UserModel) (info : Option ZipInfo)
    (entry : ImportObjectEntry) (categories : List Category) : Prop :=
  ∃ zip req staged data, info = some zip ∧ isAllowedDeclaredMime entry.mimeType = true ∧
    zip.fileSize ≤ maxSizeForCategory env.settings entry.category.str ∧
    (entryRequest env entry zip.fileSize categories).validated env = some req ∧
    stageUpload env db user req entry.id = .ok staged ∧ zip.read = some data

/-- The completion comes after the session has expired. -/
def RowContext.Late (env : Env) (ctx : RowContext) : Prop :=
  ctx.recordedAt + seconds env.settings.s3PresignedUrlExpireSeconds < ctx.completedAt

/-- What a row that has run finds when it runs again: its object, filed if it may
be; or nothing, and then it is stopped before its session, unless the first time
its session expired. -/
def Visited (env : Env) (user : UserModel) (info : Option ZipInfo) (entry : ImportObjectEntry)
    (categories : List Category) (late : Prop) (db : Database) : Prop :=
  (∃ o, db.objects.find entry.id = some o ∧
      (Usable user o → ∀ c ∈ categories, (entry.id, c.id) ∈ db.links)) ∨
    db.objects.find entry.id = none ∧ (Reaches env db user info entry categories →
      late ∧ (db.sessions.find entry.id).isSome)

/-- What a reported row has done: it kept to its own id, is visited, and reports
a usable object as created or linked. -/
structure RowDone (env : Env) (user : UserModel) (info : Option ZipInfo)
    (entry : ImportObjectEntry) (categories : List Category) (late : Prop) (db db' : Database)
    (r : ImportObjectResult) : Prop where
  frame : RowFrame env user entry.id db db'
  visited : Visited env user info entry categories late db'
  sourceId : r.sourceId = entry.id
  usable : r.status = .created ∨ r.status = .linked →
    ∃ o, db'.objects.find entry.id = some o ∧ Usable user o

section Row

variable {b b' : Backend} {ctx : RowContext} {info : Option ZipInfo} {entry : ImportObjectEntry}
  {categories : List Category} {paths : List String}
  {res : ImportObjectResult × Option MediaObject}

theorem Reaches.narrows {db db' : Database} {id : UUID} (hf : RowFrame env user id db db')
    (h : Reaches env db' user info entry categories) :
    Reaches env db user info entry categories := by
  obtain ⟨zip, req, staged, data, hinfo, hmime, hsize, hreq, hstage, hread⟩ := h
  exact ⟨zip, req, staged, data, hinfo, hmime, hsize, hreq,
    stageUpload_narrows hf.categories hf.quota hstage, hread⟩

theorem Visited.frame {late : Prop} {db db' : Database} {id : UUID}
    (h : Visited env user info entry categories late db) (hf : RowFrame env user id db db')
    (hne : entry.id ≠ id) : Visited env user info entry categories late db' := by
  rcases h with ⟨o, ho, hlinks⟩ | ⟨hnone, hreach⟩
  · refine .inl ⟨o, (hf.object _ hne).trans ho, fun husable c hc => ?_⟩
    exact (hf.links _ _ hne).mpr (hlinks husable c hc)
  · refine .inr ⟨(hf.object _ hne).trans hnone, fun hr => ?_⟩
    rw [hf.session _ hne]
    exact hreach (hr.narrows hf)

/-- Every id asked for is among the categories resolved. -/
theorem mem_of_resolveCategoryIds {db : Database} {ids : List ℤ} {cs : List Category}
    (h : resolveCategoryIds db user ids = .ok cs) {i : ℤ} (hi : i ∈ ids) :
    i ∈ cs.map Category.id := by
  have hunique : i ∈ uniqueIds ids := List.mem_eraseDups.mpr hi
  obtain ⟨c, hc, hresolved⟩ := exists_of_mapM_eq_ok h hunique
  refine List.mem_map.mpr ⟨c, hc, ?_⟩
  split at hresolved
  · rename_i row hfind
    cases hresolved
    simpa using List.find?_some hfind
  · unfold loadCategory at hresolved
    split at hresolved
    · cases hresolved
    · rename_i row hfind
      split at hresolved
      · cases hresolved
        exact Table.key_of_find hfind
      · cases hresolved

theorem rowFrame_completes {db db₁ db' : Database} {s : UploadSession} {now : Timestamp}
    {cs : List Category} {t : Table UploadSession.id} {x : Except Failure MediaObject}
    (hscope : s.scope = ⟨user.id, user.tenantId⟩) (ht : db.sessions.insert s = some t)
    (hdb₁ : db₁ = { db with sessions := t }) (h : Completes env now s cs db₁ db' x) :
    RowFrame env user s.id db db' := by
  subst hdb₁
  have hsession : ∀ (s' : UploadSession), s'.id = s.id → ∀ k, k ≠ s.id →
      (t.update s').find k = db.sessions.find k := by
    intro s' hid k hk
    rw [Table.find_update_ne (by rwa [hid]), Table.find_insert ht, if_neg hk]
  cases h with
  | expired _ hdb' =>
    subst hdb'
    exact ⟨fun _ _ => rfl, fun _ _ _ => Iff.rfl, hsession _ rfl, ⟨rfl, rfl⟩, fun _ h => h⟩
  | rejected hn hid _ hins hdb' =>
    subst hdb'
    refine ⟨fun k hk => ?_, fun _ _ _ => Iff.rfl, hsession _ rfl, ⟨rfl, rfl⟩, hscope ▸ hn⟩
    exact (Table.find_insert hins k).trans (if_neg (by rwa [hid]))
  | promoted hn hid _ _ _ hins hdb' =>
    subst hdb'
    refine ⟨fun k hk => ?_, fun k c hk => ?_, hsession _ rfl, ⟨rfl, rfl⟩, hscope ▸ hn⟩
    · exact (Table.find_insert hins k).trans (if_neg (by rwa [hid]))
    · simp [Database.setFiling, hk, Ne.symm hk]

variable (info) in
/-- A recorded row that is reported, with no storage operation failing. -/
theorem recordAndComplete_done (hfaults : ctx.faults = Faults.none)
    (hnone : b.db.objects.find entry.id = none) {staged : StagedUpload}
    {req : UploadInitiateRequest} (hstage : stageUpload env b.db user req entry.id = .ok staged)
    (hids : req.categoryIds = categories.map Category.id)
    (hstored : (b.storage.find staged.location).isSome)
    (h : recordAndComplete env b ctx user entry staged req categories paths = (b', .ok res)) :
    RowDone env user info entry categories (ctx.Late env) b.db b'.db res.1 := by
  obtain ⟨-, -, cs, hcs, rfl⟩ := stageUpload_eq_ok.mp hstage
  rw [hids] at hcs
  unfold recordAndComplete recordUploadSession at h
  dsimp only at h
  split at h
  · cases h
  · rename_i db₁ hrec
    obtain ⟨-, t, ht, hdb₁⟩ := Database.insertSession_ok hrec
    set s := stagedSession _ req ctx.recordedAt
      (ctx.recordedAt + seconds env.settings.s3PresignedUrlExpireSeconds) with hs
    have hfind : db₁.sessions.find s.id = some s := by
      rw [hdb₁]
      exact (Table.find_insert ht s.id).trans (if_pos rfl)
    have hresolve : resolveCategoryIds db₁ user (categories.map Category.id) = .ok cs := by
      have hsame : SameCategories b.db db₁ := ⟨by rw [hdb₁], by rw [hdb₁]⟩
      rw [resolveCategoryIds_same hsame]
      exact hcs
    have hcompletes := completes_completeUpload env ctx.completedAt (b := ⟨db₁, b.storage⟩)
      hfind rfl rfl hstored hresolve entry.sha256
    rw [← hfaults, show s.id = entry.id from rfl] at hcompletes
    generalize completeUpload env ⟨db₁, b.storage⟩ ctx.faults ctx.completedAt user entry.id
      ⟨entry.sha256, some (categories.map Category.id)⟩ = answer at h hcompletes
    obtain ⟨b₂, answer⟩ := answer
    rcases hcompletes with hcompletes | ⟨e, he, hescapes⟩
    · have hframe := rowFrame_completes rfl ht hdb₁ hcompletes
      dsimp only at hcompletes
      cases hcompletes with
      | expired hlate hdb₂ =>
        cases h
        refine ⟨hframe, .inr ⟨?_, fun _ => ⟨hlate, ?_⟩⟩, rfl, fun hstatus => ?_⟩
        · rw [hdb₂, hdb₁]
          exact hnone
        · rw [hdb₂]
          exact (Table.find_update_isSome _ _ s.id).trans (by rw [hfind]; rfl)
        · rcases hstatus with hstatus | hstatus <;> cases hstatus
      | @rejected refusal usage o t' hn hid hstatus hins hdb₂ =>
        cases h
        refine ⟨hframe, .inl ⟨o, ?_, fun husable => ?_⟩, rfl, fun hstatus => ?_⟩
        · rw [hdb₂]
          exact (Table.find_insert hins _).trans (if_pos hid.symm)
        · have := husable.2.2
          simp [isImportable, hstatus] at this
        · rcases hstatus with hstatus | hstatus <;> cases hstatus
      | @promoted usage o t' hn hid howner hstatus hlive hins hdb₂ =>
        cases h
        have hfind₂ := (Table.find_insert hins s.id).trans (if_pos hid.symm)
        have husable : Usable user o := ⟨howner, hlive, by rw [hstatus]; rfl⟩
        refine ⟨hframe, .inl ⟨o, ?_, fun _ c hc => ?_⟩, rfl, fun _ => ⟨o, ?_, husable⟩⟩
        · rw [hdb₂]
          exact hfind₂
        · have hmem := mem_of_resolveCategoryIds hcs (List.mem_map_of_mem hc)
          rw [hdb₂]
          simp only [Database.setFiling, Finset.mem_union, List.mem_toFinset, List.mem_map]
          exact .inr ⟨c.id, List.mem_map.mp hmem, rfl⟩
        · rw [hdb₂]
          exact hfind₂
    · dsimp only at he
      subst he
      split at h
      · rename_i heq
        cases heq
      · rename_i heq
        cases heq
        exact absurd rfl (hescapes _)
      · cases h

/-- A row that leaves the database as it was and reports nothing created. -/
theorem rowDone_refused (hvisited : Visited env user info entry categories (ctx.Late env) b.db)
    {r : ImportObjectResult} (hid : r.sourceId = entry.id) (hcreated : r.status ≠ .created)
    (hlinked : r.status ≠ .linked) :
    RowDone env user info entry categories (ctx.Late env) b.db b.db r :=
  ⟨.refl env user entry.id b.db, hvisited, hid, fun h => absurd h (by simp [hcreated, hlinked])⟩

/-- A row whose id is held is done once it is filed. -/
theorem rowDone_fileInto {o : MediaObject} (ho : b.db.objects.find entry.id = some o)
    (husable : Usable user o) :
    RowDone env user info entry categories (ctx.Late env) b.db
      (fileInto b.db ctx.recordedAt o categories) (rowLinked entry paths o) := by
  have hid : o.id = entry.id := Table.key_of_find ho
  unfold fileInto
  dsimp only
  split
  · rename_i hadded
    refine ⟨.refl env user entry.id b.db, .inl ⟨o, ho, fun _ c hc => ?_⟩, rfl,
      fun _ => ⟨o, ho, husable⟩⟩
    have := List.filter_eq_nil_iff.mp hadded c hc
    rw [← hid]
    simpa using this
  · have hfind := Table.find_update_self (t := b.db.objects)
      (r := { o with updatedAt := ctx.recordedAt }) (hid ▸ ho)
    refine ⟨⟨fun k hk => ?_, fun k c hk => ?_, fun _ _ => rfl, ⟨rfl, rfl⟩, fun _ h => h⟩,
      .inl ⟨{ o with updatedAt := ctx.recordedAt }, hid ▸ hfind, fun _ c hc => ?_⟩, rfl,
      fun _ => ⟨{ o with updatedAt := ctx.recordedAt }, hid ▸ hfind, husable⟩⟩
    · exact Table.find_update_ne (by rwa [hid])
    · simp [hid, Ne.symm hk]
    · by_cases hlink : (entry.id, c.id) ∈ b.db.links
      · exact Finset.mem_union_left _ hlink
      · refine Finset.mem_union_right _ (List.mem_toFinset.mpr (List.mem_map.mpr ⟨c, ?_, ?_⟩))
        · exact List.mem_filter.mpr ⟨hc, by simpa [hid] using hlink⟩
        · rw [hid]

theorem importNewFile_done (hfaults : ctx.faults = Faults.none)
    (hnone : b.db.objects.find entry.id = none) {zip : ZipInfo}
    (h : importNewFile env b ctx user zip entry categories paths = (b', .ok res)) :
    RowDone env user (some zip) entry categories (ctx.Late env) b.db b'.db res.1 := by
  have hstopped : ¬ Reaches env b.db user (some zip) entry categories →
      Visited env user (some zip) entry categories (ctx.Late env) b.db :=
    fun hnot => .inr ⟨hnone, fun hreach => absurd hreach hnot⟩
  unfold importNewFile at h
  split at h
  · rename_i hmime
    cases h
    refine rowDone_refused (hstopped ?_) rfl nofun nofun
    rintro ⟨_, _, _, _, -, hallowed, -⟩
    simp [hallowed] at hmime
  · rename_i hmime
    split at h
    · rename_i hbig
      cases h
      refine rowDone_refused (hstopped ?_) rfl nofun nofun
      rintro ⟨_, _, _, _, hzip, -, hle, -⟩
      cases hzip
      omega
    · rename_i hsize
      split at h
      · rename_i hinvalid
        cases h
        refine rowDone_refused (hstopped ?_) rfl nofun nofun
        rintro ⟨_, _, _, _, hzip, -, -, hvalid, -⟩
        cases hzip
        cases hinvalid.symm.trans hvalid
      · rename_i req hreq
        split at h
        · rename_i refusal hstage
          cases h
          refine rowDone_refused (hstopped ?_) rfl nofun nofun
          rintro ⟨_, _, _, _, hzip, -, -, hvalid, hok, -⟩
          cases hzip
          cases hreq.symm.trans hvalid
          cases hstage.symm.trans hok
        · cases h
        · rename_i staged hstage
          split at h
          · rename_i hput
            cases h
            refine rowDone_refused (hstopped ?_) rfl nofun nofun
            rintro ⟨_, _, _, data, hzip, -, -, -, -, hread⟩
            cases hzip
            rw [hread, hfaults] at hput
            simp [Storage.putObjectStream, Faults.none] at hput
          · rename_i st hput
            obtain ⟨data, hread, hstored⟩ := Option.bind_eq_some_iff.mp hput
            have hids : req.categoryIds = categories.map Category.id := by
              obtain ⟨name, -, rfl⟩ := UploadInitiateRequest.validated_eq_some hreq
              rfl
            rw [hfaults] at hstored
            cases hstored
            have hdone := recordAndComplete_done (some zip)
              (b := ⟨b.db, b.storage.put ⟨staged.location, data, entry.mimeType⟩⟩) hfaults hnone
              hstage hids (by simp [Table.find_put]) h
            exact hdone

/-- What either kind of row does with an object that is there. -/
def heldRow (b : Backend) (ctx : RowContext) (entry : ImportObjectEntry)
    (categories : List Category) (paths : List String) (o : MediaObject) :
    Bool → Backend × Except Failure (ImportObjectResult × Option MediaObject)
  | false => (b, .ok (rowFailed entry paths .idConflict idConflictMessage, none))
  | true => ({ b with db := fileInto b.db ctx.recordedAt o categories },
      .ok (rowLinked entry paths o, none))

theorem importOneFile_held {o : MediaObject} {usable : Bool}
    (hm : importableMatch b.db user entry.id = some (o, usable)) :
    importOneFile env b ctx user info entry categories paths =
      heldRow b ctx entry categories paths o usable := by
  unfold importOneFile
  rw [hm]
  cases usable <;> rfl

theorem importManifestEntry_held {o : MediaObject} {usable : Bool}
    (hm : importableMatch b.db user entry.id = some (o, usable)) :
    importManifestEntry b ctx user entry categories paths =
      heldRow b ctx entry categories paths o usable := by
  unfold importManifestEntry
  rw [hm]
  cases usable <;> rfl

theorem heldRow_done {o : MediaObject} {usable : Bool}
    (hm : importableMatch b.db user entry.id = some (o, usable))
    (h : heldRow b ctx entry categories paths o usable = (b', .ok res)) :
    RowDone env user info entry categories (ctx.Late env) b.db b'.db res.1 := by
  obtain ⟨ho, husable⟩ := importableMatch_usable.mp hm
  cases usable with
  | false =>
    cases h
    refine rowDone_refused (.inl ⟨o, ho, fun hyes => ?_⟩) rfl nofun nofun
    exact absurd hyes (of_decide_eq_false husable.symm)
  | true =>
    cases h
    exact rowDone_fileInto ho (of_decide_eq_true husable.symm)

/-- Every row of an archive is done once it is reported. -/
theorem importOneFile_done (hfaults : ctx.faults = Faults.none)
    (h : importOneFile env b ctx user info entry categories paths = (b', .ok res)) :
    RowDone env user info entry categories (ctx.Late env) b.db b'.db res.1 := by
  cases hm : importableMatch b.db user entry.id with
  | some held =>
    rw [importOneFile_held hm] at h
    exact heldRow_done hm h
  | none =>
    have hnone := importableMatch_eq_none.mp hm
    unfold importOneFile at h
    rw [hm] at h
    cases info with
    | none =>
      cases h
      refine rowDone_refused (.inr ⟨hnone, ?_⟩) rfl nofun nofun
      rintro ⟨_, _, _, _, hzip, -⟩
      cases hzip
    | some zip => exact importNewFile_done hfaults hnone h

theorem importManifestEntry_done
    (h : importManifestEntry b ctx user entry categories paths = (b', .ok res)) :
    RowDone env user none entry categories (ctx.Late env) b.db b'.db res.1 := by
  cases hm : importableMatch b.db user entry.id with
  | some held =>
    rw [importManifestEntry_held hm] at h
    exact heldRow_done hm h
  | none =>
    unfold importManifestEntry at h
    rw [hm] at h
    cases h
    refine rowDone_refused (.inr ⟨importableMatch_eq_none.mp hm, ?_⟩) rfl nofun nofun
    rintro ⟨_, _, _, _, hzip, -⟩
    cases hzip

/-- Filing an object where it is filed already changes nothing. -/
theorem fileInto_again {db : Database} {o : MediaObject} {now : Timestamp}
    (h : ∀ c ∈ categories, (o.id, c.id) ∈ db.links) : fileInto db now o categories = db := by
  unfold fileInto
  dsimp only
  rw [if_pos]
  exact List.filter_eq_nil_iff.mpr fun c hc => by simpa using h c hc

/-- A row whose object is there and filed leaves the database as it was. -/
theorem heldRow_again {o : MediaObject} (ho : b.db.objects.find entry.id = some o)
    (hlinks : Usable user o → ∀ c ∈ categories, (entry.id, c.id) ∈ b.db.links) :
    ∃ res, heldRow b ctx entry categories paths o (decide (Usable user o)) = (b, .ok res) ∧
      res.1.sourceId = entry.id ∧
      ((∃ o, b.db.objects.find entry.id = some o ∧ Usable user o) → res.1.status = .linked) := by
  by_cases husable : Usable user o
  · rw [decide_eq_true husable, heldRow, fileInto_again (Table.key_of_find ho ▸ hlinks husable)]
    exact ⟨_, rfl, rfl, fun _ => rfl⟩
  · rw [decide_eq_false husable]
    refine ⟨_, rfl, rfl, ?_⟩
    rintro ⟨o', ho', husable'⟩
    cases ho.symm.trans ho'
    exact absurd husable' husable

/-- A row that is stopped before its session leaves the database as it was. -/
theorem importNewFile_stopped {zip : ZipInfo}
    (hstop : ¬ Reaches env b.db user (some zip) entry categories) (paths : List String) :
    ∃ st res, importNewFile env b ctx user zip entry categories paths = (⟨b.db, st⟩, .ok res) ∧
      res.1.sourceId = entry.id := by
  unfold importNewFile
  split
  · exact ⟨_, _, rfl, rfl⟩
  · rename_i hmime
    split
    · exact ⟨_, _, rfl, rfl⟩
    · rename_i hsize
      split
      · exact ⟨_, _, rfl, rfl⟩
      · rename_i req hreq
        split
        · exact ⟨_, _, rfl, rfl⟩
        · rename_i e hne hstage
          obtain ⟨refusal, rfl⟩ := onlyRefuses_stageUpload _ _ _ _ _ hstage
          exact absurd rfl (hne refusal)
        · rename_i staged hstage
          split
          · exact ⟨_, _, rfl, rfl⟩
          · rename_i st hput
            obtain ⟨data, hread, -⟩ := Option.bind_eq_some_iff.mp hput
            exact absurd ⟨zip, req, staged, data, rfl, by simpa using hmime, by omega, hreq, hstage,
              hread⟩ hstop

/-- A session is recorded once. -/
theorem recordUploadSession_again {db : Database} {staged : StagedUpload}
    (h : (db.sessions.find staged.mediaId).isSome) (req : UploadInitiateRequest)
    (now expiresAt : Timestamp) :
    ∃ e, recordUploadSession db staged req now expiresAt = .error e := by
  unfold recordUploadSession Database.insertSession
  split
  · exact ⟨_, rfl⟩
  · split
    · exact ⟨_, rfl⟩
    · rename_i t ht
      have hfree := Table.insert_isSome.mp (Option.isSome_of_eq_some ht)
      rw [show (stagedSession staged req now expiresAt).id = staged.mediaId from rfl] at hfree
      rw [hfree] at h
      cases h

/-- The session of an earlier run holds the row's id, no object does, and nothing
stops the row before it records a session of its own. -/
def Stranded (env : Env) (db : Database) (user : UserModel) (info : Option ZipInfo)
    (entry : ImportObjectEntry) (categories : List Category) : Prop :=
  db.objects.find entry.id = none ∧ (db.sessions.find entry.id).isSome ∧
    Reaches env db user info entry categories

theorem importOneFile_stranded (hfaults : ctx.faults = Faults.none)
    (h : Stranded env b.db user info entry categories) :
    ∃ e, (importOneFile env b ctx user info entry categories paths).2 = .error e := by
  obtain ⟨hnone, hsession, zip, req, staged, data, rfl, hmime, hsize, hreq, hstage, hread⟩ := h
  have hid : staged.mediaId = entry.id := (stageUpload_ok hstage).1
  have hput : (zip.read.bind fun data =>
      b.storage.putObjectStream ctx.faults staged.location data entry.mimeType) =
        some (b.storage.put ⟨staged.location, data, entry.mimeType⟩) := by
    simp [hread, hfaults, Storage.putObjectStream, Faults.none]
  unfold importOneFile importNewFile
  rw [importableMatch_eq_none.mpr hnone]
  dsimp only
  rw [if_neg (by simp [hmime]), if_neg (by omega), hreq]
  dsimp only
  rw [hstage]
  dsimp only
  rw [hput]
  unfold recordAndComplete
  dsimp only
  obtain ⟨e, he⟩ := recordUploadSession_again
    (show (b.db.sessions.find staged.mediaId).isSome by rwa [hid]) req ctx.recordedAt
    (ctx.recordedAt + seconds env.settings.s3PresignedUrlExpireSeconds)
  rw [he]
  exact ⟨e, rfl⟩

end Row

/-! ### Rows of either format -/

/-- What the two kinds of row have in common; `info` gives the bytes an entry
has in the archive. -/
structure RowLaw (env : Env) (user : UserModel) (info : ImportObjectEntry → Option ZipInfo)
    (row : ImportRow) : Prop where
  done : ∀ {b b' : Backend} {ctx : RowContext} {entry : ImportObjectEntry}
    {categories : List Category} {paths : List String}
    {res : ImportObjectResult × Option MediaObject}, ctx.faults = Faults.none →
    row b ctx entry categories paths = (b', .ok res) →
    RowDone env user (info entry) entry categories (ctx.Late env) b.db b'.db res.1
  again : ∀ {b : Backend} {ctx : RowContext} {entry : ImportObjectEntry}
    {categories : List Category} {late : Prop} (paths : List String), ctx.faults = Faults.none →
    Visited env user (info entry) entry categories late b.db →
    ¬ Stranded env b.db user (info entry) entry categories →
    ∃ st res, row b ctx entry categories paths = (⟨b.db, st⟩, .ok res) ∧
      res.1.sourceId = entry.id ∧
      ((∃ o, b.db.objects.find entry.id = some o ∧ Usable user o) → res.1.status = .linked)
  stranded : ∀ {b : Backend} {ctx : RowContext} {entry : ImportObjectEntry}
    {categories : List Category} (paths : List String), ctx.faults = Faults.none →
    Stranded env b.db user (info entry) entry categories →
    ∃ e, (row b ctx entry categories paths).2 = .error e

theorem rowLaw_archive (env : Env) (user : UserModel) (infolist : List ZipInfo) :
    RowLaw env user (fun entry => fileEntry env infolist entry.id)
      fun b ctx entry categories paths =>
        importOneFile env b ctx user (fileEntry env infolist entry.id) entry categories paths where
  done := importOneFile_done
  again := by
    intro b ctx entry categories late paths hfaults hvisited hstranded
    rcases hvisited with ⟨o, ho, hlinks⟩ | ⟨hnone, hreach⟩
    · rw [importOneFile_held (importableMatch_usable.mpr ⟨ho, rfl⟩)]
      exact ⟨b.storage, heldRow_again ho hlinks⟩
    · have hstop : ¬ Reaches env b.db user (fileEntry env infolist entry.id) entry categories :=
        fun hr => hstranded ⟨hnone, (hreach hr).2, hr⟩
      have hlinked : (∃ o, b.db.objects.find entry.id = some o ∧ Usable user o) → False := by
        rintro ⟨o, ho, -⟩
        cases hnone.symm.trans ho
      unfold importOneFile
      rw [importableMatch_eq_none.mpr hnone]
      dsimp only
      cases hinfo : fileEntry env infolist entry.id with
      | none => exact ⟨b.storage, _, rfl, rfl, fun h => (hlinked h).elim⟩
      | some zip =>
        rw [hinfo] at hstop
        obtain ⟨st, res, hres, hid⟩ := importNewFile_stopped hstop paths
        exact ⟨st, res, hres, hid, fun h => (hlinked h).elim⟩
  stranded := fun _ hfaults h => importOneFile_stranded hfaults h

theorem rowLaw_manifest (env : Env) (user : UserModel) :
    RowLaw env user (fun _ => none) fun b ctx entry categories paths =>
      importManifestEntry b ctx user entry categories paths where
  done := fun _ h => importManifestEntry_done h
  again := by
    intro b ctx entry categories late paths hfaults hvisited hstranded
    rcases hvisited with ⟨o, ho, hlinks⟩ | ⟨hnone, -⟩
    · rw [importManifestEntry_held (importableMatch_usable.mpr ⟨ho, rfl⟩)]
      exact ⟨b.storage, heldRow_again ho hlinks⟩
    · unfold importManifestEntry
      rw [importableMatch_eq_none.mpr hnone]
      refine ⟨b.storage, _, rfl, rfl, ?_⟩
      rintro ⟨o, ho, -⟩
      cases hnone.symm.trans ho
  stranded := by
    rintro b ctx entry categories paths - ⟨-, -, _, _, _, _, hzip, -⟩
    cases hzip

end MediaService
