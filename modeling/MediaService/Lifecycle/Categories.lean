import MediaService.Lifecycle.Completion
import MediaService.Lifecycle.Service

/-! Categories along a run. Only category requests and imports write category
rows, and those that insert one take its id from the sequence. So in every
reachable world the sequence is ahead of the stored ids, and resolving a
category path never fails. -/

namespace MediaService

open Foundation

variable {env : Env} {w : World} {r : Request} {db db' : Database}

/-- The sequence is ahead of every stored id. -/
def CategoriesFresh (db : Database) : Prop := ∀ c ∈ db.categories, c.id < db.categorySeq

/-! ### Category requests -/

theorem CategoriesFresh.insert (h : CategoriesFresh db) {name slug : String} {parentId : Option ℤ}
    {ownerId : UUID} {tenantId : Option UUID} {row : Category}
    (hi : insertCategory db name slug parentId ownerId tenantId = .ok (db', row)) :
    CategoriesFresh db' := by
  obtain ⟨hrow, t, ht, rfl⟩ := insertCategory_ok hi
  have hid : row.id = db.categorySeq := by rw [hrow]
  intro c hc
  dsimp only
  rcases (Table.mem_insert ht).mp hc with hc | rfl
  · have := h c hc
    omega
  · omega

/-- A level can always be reused or created. -/
theorem CategoriesFresh.ensureLevel (h : CategoriesFresh db) (user : UserModel)
    (parentId : Option ℤ) (name slug : String) :
    ∃ db' row n, ensureLevel db user parentId name slug = .ok (db', row, n) ∧
      CategoriesFresh db' := by
  unfold MediaService.ensureLevel
  split
  · exact ⟨_, _, _, rfl, h⟩
  · rename_i hfree
    cases hi : insertCategory db name slug parentId user.id user.tenantId with
    | ok res => exact ⟨_, _, _, rfl, h.insert hi⟩
    | error e =>
      exfalso
      unfold insertCategory at hi
      dsimp only at hi
      split at hi
      · rename_i htaken
        simp only [categoryTaken, List.any_eq_true, decide_eq_true_eq] at htaken
        obtain ⟨c, hc, -, hslug, htenant, hsome, hparent, -⟩ := htaken
        have hscope : c ∈ writeScope db user.tenantId user.id := by
          refine mem_writeScope.mpr ⟨hc, ?_⟩
          obtain ⟨t, ht⟩ := Option.isSome_iff_exists.mp hsome
          simp only [Category.scopeKey, scopeKey, htenant, ht]
        have := siblingWithSlug_eq_none.mp hfree c hscope hslug hparent
        cases this
      · split at hi
        · rename_i hins
          obtain ⟨c, hc⟩ := Table.insert_eq_none.mp hins
          have hlt := h c (Table.mem_of_find hc)
          rw [Table.key_of_find hc] at hlt
          exact lt_irrefl _ hlt
        · cases hi

theorem CategoriesFresh.ensureLevels (h : CategoriesFresh db) (user : UserModel)
    (parent : Option Category) (created : ℕ) (segments : List (String × String)) :
    ∃ last n, (ensureLevels user db parent created segments).2 = .ok (last, n) ∧
      (segments ≠ [] ∨ parent.isSome → last.isSome) ∧
      CategoriesFresh (ensureLevels user db parent created segments).1 := by
  induction segments generalizing db parent created with
  | nil => exact ⟨parent, created, rfl, by simp, h⟩
  | cons seg segments ih =>
    obtain ⟨name, slug⟩ := seg
    obtain ⟨db', row, n, he, h'⟩ := h.ensureLevel user (parent.map Category.id) name slug
    obtain ⟨last, m, hok, hsome, hfresh⟩ := ih h' (some row) (created + n)
    rw [MediaService.ensureLevels, he]
    exact ⟨last, m, hok, fun _ => hsome (.inr rfl), hfresh⟩

theorem CategoriesFresh.after_path (h : CategoriesFresh db) (user : UserModel)
    (segments : List (String × String)) :
    CategoriesFresh (ensureCategoryPath db user segments).1 := by
  obtain ⟨last, n, -, -, hfresh⟩ := h.ensureLevels user none 0 segments
  unfold ensureCategoryPath
  split <;> rename_i he <;> rw [he] at hfresh <;> exact hfresh

/-- A path of at least one segment always resolves. -/
theorem CategoriesFresh.ensureCategoryPath_ok (h : CategoriesFresh db) (user : UserModel)
    {segments : List (String × String)} (hne : segments ≠ []) :
    ∃ db' row n, ensureCategoryPath db user segments = (db', .ok (row, n)) := by
  obtain ⟨last, n, hok, hsome, -⟩ := h.ensureLevels user none 0 segments
  obtain ⟨row, rfl⟩ := Option.isSome_iff_exists.mp (hsome (.inl hne))
  unfold ensureCategoryPath
  cases he : MediaService.ensureLevels user db none 0 segments with
  | mk db' res =>
    rw [he] at hok
    subst hok
    exact ⟨db', row, n, rfl⟩

theorem CategoriesFresh.step (h : CategoriesFresh db) (settings : Settings)
    (r : CategoryRequest) : CategoriesFresh (r.step settings db) := by
  cases r with
  | create user req =>
    simp only [CategoryRequest.step]
    split
    · rename_i hc
      exact h.insert (createCategory_ok hc).2.2.2
    · exact h
  | update user i req =>
    simp only [CategoryRequest.step]
    split
    · rename_i new hu
      obtain ⟨row, hload, hnew, rfl, -, -⟩ := updateCategory_ok hu
      obtain ⟨⟨hrow, -⟩, -⟩ := loadCategory_eq_ok.mp hload
      have hid : new.id = row.id := by rw [hnew]
      intro c hc
      rcases (Table.mem_update (by rw [hid, Table.find_of_mem hrow])).mp hc with rfl | ⟨hc, -⟩
      · rw [hid]
        exact h row hrow
      · exact h c hc
    · exact h
  | delete user i =>
    simp only [CategoryRequest.step]
    split
    · rename_i hd
      obtain ⟨row, -, -, rfl⟩ := deleteCategory_ok hd
      exact fun c hc => h c (Table.mem_erase.mp hc).1
    · exact h
  | ensurePath user segments => exact h.after_path user segments

/-! ### Everything else -/

/-- No category row and no id of the sequence is touched. -/
def SameCategories (db db' : Database) : Prop :=
  db'.categories = db.categories ∧ db'.categorySeq = db.categorySeq

theorem SameCategories.refl (db : Database) : SameCategories db db := ⟨rfl, rfl⟩

theorem SameCategories.trans {db'' : Database} (h₁ : SameCategories db db')
    (h₂ : SameCategories db' db'') : SameCategories db db'' :=
  ⟨h₂.1.trans h₁.1, h₂.2.trans h₁.2⟩

theorem CategoriesFresh.same (h : CategoriesFresh db) (hs : SameCategories db db') :
    CategoriesFresh db' := by
  unfold CategoriesFresh
  rw [hs.1, hs.2]
  exact h

theorem OnlyRecords.sameCategories (h : OnlyRecords db db') : SameCategories db db' := by
  obtain ⟨_, _, _, rfl⟩ := h
  exact ⟨rfl, rfl⟩

theorem sameCategories_withDb {b : Backend} {x : Except Failure Database}
    (hx : ∀ db', x = .ok db' → SameCategories b.db db') :
    SameCategories b.db (b.withDb x).db := by
  cases x with
  | error e => exact .refl _
  | ok db' => exact hx db' rfl

theorem sameCategories_completeUpload (b : Backend) (faults : Faults) (now : Timestamp)
    (user : UserModel) (sessionId : UUID) (req : UploadCompleteRequest) :
    SameCategories b.db (completeUpload env b faults now user sessionId req).1.db := by
  have hends := ends_completeUpload env b faults now user sessionId req
  generalize completeUpload env b faults now user sessionId req = r at hends ⊢
  cases hends with
  | refused _ _ hdb =>
    rcases hdb with rfl | ⟨s, -, -, -, rfl⟩
    · exact .refl _
    · exact ⟨rfl, rfl⟩
  | rejected => exact ⟨rfl, rfl⟩
  | promoted => exact ⟨rfl, rfl⟩

theorem sameCategories_hardPurge (b : Backend) (faults : Faults) (os : List MediaObject) :
    SameCategories b.db (os.foldl (purgeObject faults) b).db := by
  induction os generalizing b with
  | nil => exact .refl _
  | cons o os ih =>
    refine SameCategories.trans ?_ (ih _)
    unfold purgeObject
    split
    · exact .refl _
    · exact ⟨rfl, rfl⟩

/-- Apart from category requests and imports, no request touches a category. -/
theorem sameCategories_answer (hcat : ∀ q, r ≠ .category q)
    (himp : ∀ ctx user source, r ≠ .importCollection ctx user source) :
    SameCategories w.backend.db (answer env w r).db := by
  cases r with
  | initiate faults now mediaId user body =>
    simp only [answer]
    refine sameCategories_withDb fun db' h => ?_
    obtain ⟨form, h⟩ := Except.map_fst_ok h
    obtain ⟨req, staged, -, -, -, hrec⟩ := initiateUpload_ok h
    obtain ⟨-, t, -, rfl⟩ := Database.insertSession_ok hrec
    exact ⟨rfl, rfl⟩
  | post now form content =>
    simp only [answer]
    split <;> exact .refl _
  | complete faults now user sessionId body =>
    exact sameCategories_completeUpload _ faults now user sessionId body
  | abort faults user sessionId =>
    simp only [answer, abortUpload]
    split
    · exact .refl _
    · split
      · exact .refl _
      · exact ⟨rfl, rfl⟩
  | update faults commitFails now user objectId body =>
    simp only [answer]
    rcases updateObject_cases env w.backend faults commitFails now user objectId body with
      ⟨e, st, he, -⟩ | ⟨u, o, st, bucket, categories, db', o', -, -, -, -, hpatch, he⟩
    · rw [he]
      exact .refl _
    · rw [he]
      obtain ⟨-, links, rfl⟩ := patchedDatabase_ok hpatch
      exact ⟨rfl, rfl⟩
  | delete faults commitFails now user objectId =>
    simp only [answer]
    rcases deleteObject_cases env w.backend faults commitFails now user objectId with
      he | ⟨o, st, bucket, -, -, -, ⟨e, he⟩ | ⟨db', -, hcommit, he⟩⟩
    · rw [he]
      exact .refl _
    · rw [he]
      exact .refl _
    · rw [he]
      obtain ⟨outbox, rfl⟩ := softDeletedDatabase_ok hcommit
      exact ⟨rfl, rfl⟩
  | scanResult now objectId scanStatus =>
    refine sameCategories_withDb fun db' h => ?_
    obtain ⟨o', h⟩ := Except.map_fst_ok h
    obtain ⟨-, -, -, -, outbox, rfl⟩ := applyScanResult_ok h
    exact ⟨rfl, rfl⟩
  | getQuota now scope => exact ⟨rfl, rfl⟩
  | setQuota now scope body => exact ⟨rfl, rfl⟩
  | purgeStale faults now => exact ⟨rfl, rfl⟩
  | hardPurge faults now olderThan limit => exact sameCategories_hardPurge _ faults _
  | reconcile faults now buckets grace limit repair => exact ⟨rfl, rfl⟩
  | category request => exact absurd rfl (hcat request)
  | createShare now tokenId user objectId body =>
    refine sameCategories_withDb fun db' h => ?_
    obtain ⟨share, h⟩ := Except.map_fst_ok h
    exact (createShare_ok h).sameCategories
  | revokeShare user tokenId =>
    exact sameCategories_withDb fun db' h => (revokeShare_ok h).sameCategories
  | resolveShare now tokenId =>
    refine sameCategories_withDb fun db' h => ?_
    obtain ⟨url, h⟩ := Except.map_fst_ok h
    exact (resolveShare_ok h).1.sameCategories
  | createPreset presetId user body =>
    exact sameCategories_withDb fun db' h => (createPreset_ok h).sameCategories
  | updatePreset user presetId spec =>
    exact sameCategories_withDb fun db' h => (updatePreset_ok h).sameCategories
  | deletePreset user presetId =>
    exact sameCategories_withDb fun db' h => (deletePreset_ok h).sameCategories
  | generate now jobId user objectId body =>
    refine sameCategories_withDb fun db' h => ?_
    obtain ⟨job, h⟩ := Except.map_fst_ok h
    obtain ⟨⟨t, rfl⟩, -⟩ := generateVariants_ok h
    exact ⟨rfl, rfl⟩
  | writeVariant spec content contentType =>
    simp only [answer]
    split <;> exact .refl _
  | registerVariant now freshId objectId body =>
    simp only [answer]
    split
    · refine sameCategories_withDb fun db' h => ?_
      obtain ⟨v, h⟩ := Except.map_fst_ok h
      obtain ⟨-, -, -, t, outbox, -, rfl⟩ := registerVariant_ok h
      exact ⟨rfl, rfl⟩
    · exact .refl _
  | updateVariantJob now jobId body =>
    exact sameCategories_withDb fun db' h => (updateVariantJob_ok h).sameCategories
  | deleteVariant faults user objectId variantId =>
    simp only [answer, deleteVariant]
    split
    · exact .refl _
    · split
      · exact .refl _
      · split
        · exact .refl _
        · exact ⟨rfl, rfl⟩
  | startExport now jobId user filters =>
    refine sameCategories_withDb fun db' h => ?_
    obtain ⟨job, h⟩ := Except.map_fst_ok h
    obtain ⟨-, -, q, t, -, -, rfl⟩ := startArchiveExport_ok h
    exact ⟨rfl, rfl⟩
  | failUnqueuedExport now jobId =>
    simp only [answer, failUnqueuedExport]
    split
    · exact .refl _
    · split
      · exact .refl _
      · exact ⟨rfl, rfl⟩
  | writeArchive payload content contentType =>
    simp only [answer]
    split <;> exact .refl _
  | updateExportJob now jobId body =>
    refine sameCategories_withDb fun db' h => ?_
    unfold updateExportJob at h
    split at h
    · exact absurd h refuse_ne_ok
    · split at h <;> cases h
      exact ⟨rfl, rfl⟩
  | importCollection ctx user source => exact absurd rfl (himp ctx user source)

/-! ### Imports -/

theorem sameCategories_fileInto (db : Database) (now : Timestamp) (o : MediaObject)
    (categories : List Category) : SameCategories db (fileInto db now o categories) := by
  unfold fileInto
  dsimp only
  split
  · exact .refl _
  · exact ⟨rfl, rfl⟩

theorem sameCategories_recordAndComplete (b : Backend) (ctx : RowContext) (user : UserModel)
    (entry : ImportObjectEntry) (staged : StagedUpload) (req : UploadInitiateRequest)
    (categories : List Category) (paths : List String) :
    SameCategories b.db
      (recordAndComplete env b ctx user entry staged req categories paths).1.db := by
  unfold recordAndComplete
  dsimp only
  split
  · exact .refl _
  · rename_i db hrec
    obtain ⟨-, t, -, rfl⟩ := Database.insertSession_ok hrec
    have hc := @sameCategories_completeUpload env ⟨{ b.db with sessions := t }, b.storage⟩
      ctx.faults ctx.completedAt user staged.mediaId
      ⟨entry.sha256, some (categories.map Category.id)⟩
    split <;> rename_i he <;> rw [he] at hc <;> exact hc

theorem sameCategories_importOneFile (b : Backend) (ctx : RowContext) (user : UserModel)
    (info : Option ZipInfo) (entry : ImportObjectEntry) (categories : List Category)
    (paths : List String) :
    SameCategories b.db (importOneFile env b ctx user info entry categories paths).1.db := by
  unfold importOneFile
  split
  · exact .refl _
  · exact sameCategories_fileInto _ _ _ _
  · split
    · exact .refl _
    · unfold importNewFile
      split
      · exact .refl _
      · split
        · exact .refl _
        · split
          · exact .refl _
          · split
            · exact .refl _
            · exact .refl _
            · split
              · exact .refl _
              · exact sameCategories_recordAndComplete ⟨b.db, _⟩ _ _ _ _ _ _ _

theorem sameCategories_importManifestEntry (b : Backend) (ctx : RowContext) (user : UserModel)
    (entry : ImportObjectEntry) (categories : List Category) (paths : List String) :
    SameCategories b.db (importManifestEntry b ctx user entry categories paths).1.db := by
  unfold importManifestEntry
  split
  · exact .refl _
  · exact .refl _
  · exact sameCategories_fileInto _ _ _ _

theorem CategoriesFresh.ensureChains (h : CategoriesFresh db) (user : UserModel)
    (tree : RecreatedTree) (chains : List (String × CategoryChain)) :
    CategoriesFresh (ensureChains user db tree chains).1 := by
  induction chains generalizing db tree with
  | nil => exact h
  | cons chain chains ih =>
    obtain ⟨key, chain⟩ := chain
    have hpath := h.after_path user chain
    rw [MediaService.ensureChains]
    split <;> rename_i he <;> rw [he] at hpath
    · exact hpath
    · exact ih hpath _

theorem CategoriesFresh.recreateTree (h : CategoriesFresh db) (env : Env) (user : UserModel)
    (manifest : ImportManifest) : CategoriesFresh (recreateTree env db user manifest).1 := by
  unfold MediaService.recreateTree
  split
  · exact h
  · split
    · exact h
    · exact h.ensureChains user _ _

/-- An import leaves the categories alone, or those its tree leaves. -/
theorem sameCategories_runImport (env : Env) (b : Backend) (ctx : ℕ → RowContext)
    (user : UserModel) (source : ImportSource) :
    SameCategories b.db (runImport env b ctx user source).1.db ∨
      SameCategories (recreateTree env b.db user source.document).1
        (runImport env b ctx user source).1.db := by
  refine runImport_inv (I := fun b' : Backend => SameCategories b.db b'.db ∨
      SameCategories (recreateTree env b.db user source.document).1 b'.db) (.inl (.refl _))
    (.inr (.refl _)) fun _ _ i b' entry _ categories paths _ hb => ⟨?_, fun info => ?_⟩
  · have hentry := sameCategories_importManifestEntry b' (ctx i) user entry categories paths
    exact hb.imp (·.trans hentry) (·.trans hentry)
  · have hfile := @sameCategories_importOneFile env b' (ctx i) user info entry categories paths
    exact hb.imp (·.trans hfile) (·.trans hfile)

/-! ### Runs -/

theorem CategoriesFresh.serve (h : CategoriesFresh w.backend.db) (r : Request) :
    CategoriesFresh (serve env w r).backend.db := by
  rw [serve_backend]
  by_cases hcat : ∃ q, r = .category q
  · obtain ⟨q, rfl⟩ := hcat
    exact h.step env.settings q
  · by_cases himp : ∃ ctx user source, r = .importCollection ctx user source
    · obtain ⟨ctx, user, source, rfl⟩ := himp
      rcases sameCategories_runImport env w.backend ctx user source with hs | hs
      · exact h.same hs
      · exact (h.recreateTree env user source.document).same hs
    · refine h.same (sameCategories_answer (fun q hq => hcat ⟨q, hq⟩) fun ctx user source hs => ?_)
      exact himp ⟨ctx, user, source, hs⟩

theorem categoriesFresh_run (env : Env) (rs : List Request) :
    CategoriesFresh (run (MediaService.serve env) World.initial rs).backend.db :=
  (always_of_inv (I := fun w : World => CategoriesFresh w.backend.db) (fun _ r h => h.serve r)
    (fun c hc => absurd hc (Table.not_mem_empty c)) rs).last

end MediaService
