import MediaService.Controllers.TransferImport
import MediaService.Invariants.CategoryForest
import MediaService.Lifecycle.Uploads
import MediaService.ReadSurface.Scope

/-! Exports and imports make only moves of the lifecycle. A callback keeps a
completed export where it was commissioned. An import touches categories, which
hold no bytes, and then takes each row through the upload flow: its bytes go
where no object is, its session is opened, and its completion closes it. -/

namespace MediaService

open Foundation

variable {env : Env}

/-! ### Categories -/

/-- Nothing but category rows and filings differs. -/
def OnlyCategories (db db' : Database) : Prop :=
  ∃ categories categorySeq links, db' = { db with
    categories := categories
    categorySeq := categorySeq
    links := links }

theorem OnlyCategories.refl (db : Database) : OnlyCategories db db := ⟨_, _, _, rfl⟩

theorem OnlyCategories.trans {db db' db'' : Database} (h₁ : OnlyCategories db db')
    (h₂ : OnlyCategories db' db'') : OnlyCategories db db'' := by
  obtain ⟨_, _, _, rfl⟩ := h₁
  obtain ⟨_, _, _, rfl⟩ := h₂
  exact ⟨_, _, _, rfl⟩

theorem OnlyCategories.holdings {db db' : Database} (h : OnlyCategories db db') (st : Storage) :
    (Backend.mk db' st).holdings = (Backend.mk db st).holdings := by
  obtain ⟨_, _, _, rfl⟩ := h
  rfl

theorem onlyCategories_insertCategory {db db' : Database} {name slug : String}
    {parentId : Option ℤ} {ownerId : UUID} {tenantId : Option UUID} {row : Category}
    (h : insertCategory db name slug parentId ownerId tenantId = .ok (db', row)) :
    OnlyCategories db db' := by
  obtain ⟨-, t, -, rfl⟩ := insertCategory_ok h
  exact ⟨_, _, _, rfl⟩

theorem onlyCategories_ensureLevels (user : UserModel) (db : Database) (parent : Option Category)
    (created : ℕ) (segments : List (String × String)) :
    OnlyCategories db (ensureLevels user db parent created segments).1 := by
  induction segments generalizing db parent created with
  | nil => exact .refl db
  | cons seg segments ih =>
    obtain ⟨name, slug⟩ := seg
    rw [ensureLevels]
    split
    · exact .refl db
    · rename_i db' row n he
      refine OnlyCategories.trans ?_ (ih _ _ _)
      obtain ⟨-, rfl, -⟩ | ⟨-, hi, -⟩ := ensureLevel_ok he
      · exact .refl _
      · exact onlyCategories_insertCategory hi

theorem onlyCategories_ensureCategoryPath (db : Database) (user : UserModel)
    (segments : List (String × String)) :
    OnlyCategories db (ensureCategoryPath db user segments).1 := by
  have h := onlyCategories_ensureLevels user db none 0 segments
  unfold ensureCategoryPath
  split <;> rename_i he <;> rw [he] at h <;> exact h

theorem onlyCategories_step (settings : Settings) (db : Database) (r : CategoryRequest) :
    OnlyCategories db (r.step settings db) := by
  cases r with
  | create user req =>
    simp only [CategoryRequest.step]
    split
    · rename_i hc
      exact onlyCategories_insertCategory (createCategory_ok hc).2.2.2
    · exact .refl db
  | update user i req =>
    simp only [CategoryRequest.step]
    split
    · rename_i hu
      obtain ⟨row, -, -, rfl, -, -⟩ := updateCategory_ok hu
      exact ⟨_, _, _, rfl⟩
    · exact .refl db
  | delete user i =>
    simp only [CategoryRequest.step]
    split
    · rename_i hd
      obtain ⟨row, -, -, rfl⟩ := deleteCategory_ok hd
      exact ⟨_, _, _, rfl⟩
    · exact .refl db
  | ensurePath user segments => exact onlyCategories_ensureCategoryPath db user segments

/-! ### Exports -/

/-- Writing well-placed jobs over the export table. -/
theorem movesTo_exported {b : Backend} {t : Table ExportJob.id}
    (ht : ∀ j ∈ t, j.WellPlaced env.settings) :
    MovesTo env Move.Routine b.holdings
      ({ b with db := { b.db with exportJobs := t } } : Backend).holdings :=
  .single (m := .exported) trivial (.exported (h := b.holdings) ht)

/-- The table stays well placed when one job is written over. -/
theorem wellPlaced_update {settings : Settings} {t : Table ExportJob.id} {j j' : ExportJob}
    (ht : ∀ j ∈ t, j.WellPlaced settings) (hj : t.find j'.id = some j)
    (hj' : j'.WellPlaced settings) : ∀ q ∈ t.update j', q.WellPlaced settings := by
  intro q hq
  rcases (Table.mem_update hj).mp hq with rfl | ⟨hq, -⟩
  · exact hj'
  · exact ht q hq

theorem assertWithinExportCeilings_ok {settings : Settings} {matched totalBytes : ℕ}
    (h : assertWithinExportCeilings settings matched totalBytes = .ok ()) :
    matched ≤ settings.mediaExportMaxObjects ∧ totalBytes ≤ settings.mediaExportMaxTotalBytes := by
  unfold assertWithinExportCeilings at h
  split at h
  · exact absurd h refuse_ne_ok
  · split at h
    · exact absurd h refuse_ne_ok
    · omega

/-- An export that starts stays within the ceilings, records its totals and
commissions its payload. -/
theorem startArchiveExport_payload {db db' : Database} {now : Timestamp} {jobId : UUID}
    {user : UserModel} {filters : Option ObjectListParams} {job : ExportArchiveJobPayload}
    (h : startArchiveExport env db now jobId user filters = .ok (db', job)) :
    ∃ selected manifest t, queryObjects db (some user) (filters.getD .default) = .ok selected ∧
      buildManifest env db user (filters.getD .default) = .ok manifest ∧
      (exportTotals selected).1 ≤ env.settings.mediaExportMaxObjects ∧
      (exportTotals selected).2 ≤ env.settings.mediaExportMaxTotalBytes ∧
      job = ⟨jobId, manifest, (orderById (selected.filter carriesBytes)).map archiveEntry,
        exportTarget env.settings user.id jobId user.tenantId⟩ ∧
      db.exportJobs.insert (queuedExport user now jobId (filters.getD .default)
        (exportTotals selected).1 (exportTotals selected).2) = some t ∧
      db' = { db with exportJobs := t } := by
  unfold startArchiveExport at h
  dsimp only at h
  split at h
  · exact absurd h refuse_ne_ok
  · split at h
    · cases h
    · rename_i selected hquery
      split at h
      · cases h
      · rename_i hceilings
        obtain ⟨hmatched, hbytes⟩ := assertWithinExportCeilings_ok hceilings
        unfold archivePayload at h
        rw [hquery] at h
        dsimp only at h
        split at h
        · cases h
        · rename_i payload hpayload
          split at hpayload
          · cases hpayload
          · rename_i manifest hmanifest
            cases hpayload
            split at h
            · cases h
            · rename_i t ht
              cases h
              exact ⟨selected, manifest, t, hquery, hmanifest, hmatched, hbytes, rfl, ht, rfl⟩

theorem orderById_perm (os : List MediaObject) : (orderById os).Perm os :=
  List.perm_insertionSort _ _

/-- The bytes an archive may carry are those in service of a ready object. -/
theorem carriesBytes_iff {o : MediaObject} :
    carriesBytes o = true ↔ o.InService ∧ o.status = .ready := by
  simp only [carriesBytes, decide_eq_true_eq, MediaObject.InService]
  tauto

/-- An export that starts commissions its job's target and takes up rows whose
bytes may be handed out. -/
theorem startArchiveExport_ok {db db' : Database} {now : Timestamp} {jobId : UUID}
    {user : UserModel} {filters : Option ObjectListParams} {job : ExportArchiveJobPayload}
    (h : startArchiveExport env db now jobId user filters = .ok (db', job)) :
    job.target = exportTarget env.settings user.id jobId user.tenantId ∧
      (∀ e ∈ job.objects, ∃ o ∈ db.objects, o.InService ∧ e = archiveEntry o) ∧
      ∃ q t, q.status = .queued ∧ db.exportJobs.insert q = some t ∧
        db' = { db with exportJobs := t } := by
  obtain ⟨selected, manifest, t, hquery, -, -, -, rfl, ht, rfl⟩ := startArchiveExport_payload h
  refine ⟨rfl, fun e he => ?_, _, t, rfl, ht, rfl⟩
  obtain ⟨o, ho, rfl⟩ := List.mem_map.mp he
  rw [(orderById_perm _).mem_iff, List.mem_filter] at ho
  obtain ⟨filed, -, rfl⟩ := queryObjects_ok hquery
  exact ⟨o, (List.mem_filter.mp ho.1).1, (carriesBytes_iff.mp ho.2).1, rfl⟩

theorem movesTo_startArchiveExport {b : Backend} (hk : WellKept env b.holdings) {db' : Database}
    {now : Timestamp} {jobId : UUID} {user : UserModel} {filters : Option ObjectListParams}
    {job : ExportArchiveJobPayload}
    (h : startArchiveExport env b.db now jobId user filters = .ok (db', job)) :
    MovesTo env Move.Routine b.holdings ({ b with db := db' } : Backend).holdings := by
  obtain ⟨-, -, q, t, hq, ht, rfl⟩ := startArchiveExport_ok h
  refine movesTo_exported fun j hj => ?_
  rcases (Table.mem_insert ht).mp hj with hj | rfl
  · exact hk.export_placed j hj
  · intro hc
    rw [hq] at hc
    cases hc

theorem movesTo_failUnqueuedExport {b : Backend} (hk : WellKept env b.holdings) (now : Timestamp)
    (jobId : UUID) :
    MovesTo env Move.Routine b.holdings
      ({ b with db := failUnqueuedExport b.db now jobId } : Backend).holdings := by
  unfold failUnqueuedExport
  split
  · exact .refl _
  · rename_i j hj
    split
    · exact .refl _
    · have hid := Table.key_of_find hj
      subst hid
      refine movesTo_exported (wellPlaced_update hk.export_placed (by exact hj) fun hc => ?_)
      cases hc

/-- A callback that completes an export reports the commissioned target. -/
theorem applyExportCallback_wellPlaced {settings : Settings} {now : Timestamp} {j j' : ExportJob}
    {body : ExportJobUpdate} (hj : j.WellPlaced settings)
    (h : applyExportCallback settings now j body = .ok j') :
    j'.id = j.id ∧ j'.WellPlaced settings := by
  unfold applyExportCallback at h
  split at h
  · split at h
    · cases h
      exact ⟨rfl, fun hc => by cases hc⟩
    · split at h
      · exact absurd h refuse_ne_ok
      · cases h
        exact ⟨rfl, hj⟩
  · split at h
    · cases h
      exact ⟨rfl, fun hc => by cases hc⟩
    · split at h
      · exact absurd h refuse_ne_ok
      · cases h
        exact ⟨rfl, hj⟩
  · dsimp only at h
    split at h
    · exact absurd h refuse_ne_ok
    · rename_i htarget
      simp only [ne_eq, not_or, not_not] at htarget
      split at h
      · cases h
        exact ⟨rfl, fun _ => ⟨htarget.1, htarget.2, rfl⟩⟩
      · split at h
        · exact absurd h refuse_ne_ok
        · cases h
          exact ⟨rfl, hj⟩

theorem movesTo_updateExportJob {b : Backend} (hk : WellKept env b.holdings) {db' : Database}
    {now : Timestamp} {jobId : UUID} {body : ExportJobUpdate}
    (h : updateExportJob env.settings b.db now jobId body = .ok db') :
    MovesTo env Move.Routine b.holdings ({ b with db := db' } : Backend).holdings := by
  unfold updateExportJob at h
  split at h
  · exact absurd h refuse_ne_ok
  · rename_i j hj
    split at h
    · cases h
    · rename_i j' hcall
      cases h
      obtain ⟨hid, hplaced⟩ := applyExportCallback_wellPlaced
        (hk.export_placed j (Table.mem_of_find hj)) hcall
      have hkey := Table.key_of_find hj
      have hfind : b.db.exportJobs.find j'.id = some j := by
        rw [hid, hkey]
        exact hj
      exact movesTo_exported (wellPlaced_update hk.export_placed (by exact hfind) hplaced)

/-! ### Imports -/

/-- What an import may do besides the routine: touch a row it files, whose
visibility it leaves alone. -/
def Move.Imports (m : Move) : Prop :=
  m.Routine ∨ ∃ o o', m = .patched o o' ∧ o'.visibility = o.visibility

theorem importableMatch_eq_none {db : Database} {user : UserModel} {id : UUID} :
    importableMatch db user id = none ↔ db.objects.find id = none := by
  simp [importableMatch]

theorem importableMatch_eq_some {db : Database} {user : UserModel} {id : UUID} {o : MediaObject}
    (h : importableMatch db user id = some (o, true)) :
    o ∈ db.objects ∧ o.id = id ∧ o.deletedAt = none ∧ o.ownerUserId = user.id := by
  unfold importableMatch at h
  obtain ⟨q, hq, he⟩ := Option.map_eq_some_iff.mp h
  simp only [Prod.mk.injEq, decide_eq_true_eq] at he
  obtain ⟨rfl, hown, hlive, -⟩ := he
  exact ⟨Table.mem_of_find hq, Table.key_of_find hq, hlive, hown⟩

/-- A file's row reports and changes nothing, fails other than by refusing, files an object
that is there, or stages an upload, whose bytes it cannot put or puts and records. -/
theorem importOneFile_cases (env : Env) (b : Backend) (ctx : RowContext) (user : UserModel)
    (info : Option ZipInfo) (entry : ImportObjectEntry) (categories : List Category)
    (paths : List String) :
    (∃ status reason message, importOneFile env b ctx user info entry categories paths =
      (b, .ok (rowResult entry paths status reason message none, none))) ∨
    (∃ e, (∀ refusal, e ≠ .http refusal) ∧
      importOneFile env b ctx user info entry categories paths = (b, .error e)) ∨
    (∃ o, importableMatch b.db user entry.id = some (o, true) ∧
      importOneFile env b ctx user info entry categories paths =
        ({ b with db := fileInto b.db ctx.recordedAt o categories },
          .ok (rowLinked entry paths o, none))) ∨
    ∃ (zip : ZipInfo) (req : UploadInitiateRequest) (staged : StagedUpload),
      b.db.objects.find entry.id = none ∧
      (entryRequest env entry zip.fileSize categories).validated env = some req ∧
      stageUpload env b.db user req entry.id = .ok staged ∧
      ((∃ status reason message, importOneFile env b ctx user info entry categories paths =
          ({ b with storage := b.storage.bestEffortRemove ctx.faults staged.location },
            .ok (rowResult entry paths status reason message none, none))) ∨
        ∃ data st, b.storage.putObjectStream ctx.faults staged.location data entry.mimeType =
            some st ∧
          importOneFile env b ctx user info entry categories paths =
            recordAndComplete env { b with storage := st } ctx user entry staged req categories
              paths) := by
  unfold importOneFile
  cases hmatch : importableMatch b.db user entry.id with
  | some found =>
    obtain ⟨o, _ | _⟩ := found
    · exact .inl ⟨_, _, _, rfl⟩
    · exact .inr (.inr (.inl ⟨o, rfl, rfl⟩))
  | none =>
    have hnone := importableMatch_eq_none.mp hmatch
    cases info with
    | none => exact .inl ⟨_, _, _, rfl⟩
    | some zip =>
      dsimp only
      unfold importNewFile
      split
      · exact .inl ⟨_, _, _, rfl⟩
      · split
        · exact .inl ⟨_, _, _, rfl⟩
        · split
          · exact .inl ⟨_, _, _, rfl⟩
          · rename_i req hreq
            split
            · exact .inl ⟨_, _, _, rfl⟩
            · rename_i e hother hstage
              exact .inr (.inl ⟨e, hother, rfl⟩)
            · rename_i staged hstage
              refine .inr (.inr (.inr ⟨zip, req, staged, hnone, hreq, hstage, ?_⟩))
              split
              · exact .inl ⟨_, _, _, rfl⟩
              · rename_i st hput
                obtain ⟨data, -, hput⟩ := Option.bind_eq_some_iff.mp hput
                exact .inr ⟨data, st, hput, rfl⟩

theorem movesTo_fileInto (b : Backend) (now : Timestamp) {o : MediaObject}
    (ho : o ∈ b.db.objects) (hlive : o.deletedAt = none) (categories : List Category) :
    MovesTo env Move.Imports b.holdings
      ({ b with db := fileInto b.db now o categories } : Backend).holdings := by
  unfold fileInto
  dsimp only
  split
  · exact .refl _
  · refine .single (m := .patched o { o with updatedAt := now }) (.inr ⟨o, _, rfl, rfl⟩) ?_
    exact .patched (h := b.holdings) ho hlive rfl rfl

theorem movesTo_recordAndComplete {b : Backend} (hk : WellKept env b.holdings) {db : Database}
    (ctx : RowContext) {user : UserModel} (entry : ImportObjectEntry) {staged : StagedUpload}
    {req : UploadInitiateRequest} (hs : stageUpload env db user req entry.id = .ok staged)
    (categories : List Category) (paths : List String) :
    MovesTo env Move.Routine b.holdings
      (recordAndComplete env b ctx user entry staged req categories paths).1.holdings := by
  unfold recordAndComplete
  dsimp only
  split
  · exact .refl _
  · rename_i db' hrec
    have hopen := movesTo_recordUploadSession hs hrec
    have hcomplete := movesTo_completeUpload (hopen.wellKept hk) ctx.faults ctx.completedAt user
      staged.mediaId ⟨entry.sha256, some (categories.map Category.id)⟩
    split <;> rename_i hc <;> rw [hc] at hcomplete <;> exact hopen.trans hcomplete

/-- Staged bytes of an id without an object go where no object is. -/
theorem location_ne_staged {b : Backend} (hk : WellKept env b.holdings) {db : Database}
    {user : UserModel} {req : UploadInitiateRequest} {id : UUID} {staged : StagedUpload}
    (hs : stageUpload env db user req id = .ok staged) (hnone : b.db.objects.find id = none) :
    ∀ o ∈ b.db.objects, o.location ≠ staged.location := by
  obtain ⟨-, -, -, hkey⟩ := stageUpload_ok hs
  have hown : IsOriginalKey env ⟨user.id, user.tenantId⟩ id staged.location.objectKey :=
    ⟨req.category, req.originalFilename, hkey⟩
  exact hk.location_ne_of_find_none hown hnone

theorem movesTo_importOneFile {b : Backend} (hk : WellKept env b.holdings) (ctx : RowContext)
    (user : UserModel) (info : Option ZipInfo) (entry : ImportObjectEntry)
    (categories : List Category) (paths : List String) :
    MovesTo env Move.Imports b.holdings
      (importOneFile env b ctx user info entry categories paths).1.holdings := by
  rcases importOneFile_cases env b ctx user info entry categories paths with
    ⟨_, _, _, he⟩ | ⟨_, -, he⟩ | ⟨o, hmatch, he⟩ | ⟨zip, req, staged, hnone, -, hstage, hrow⟩
  · rw [he]
    exact .refl _
  · rw [he]
    exact .refl _
  · rw [he]
    obtain ⟨ho, -, hlive, -⟩ := importableMatch_eq_some hmatch
    exact movesTo_fileInto b ctx.recordedAt ho hlive categories
  · refine MovesTo.mono (C := Move.Routine) (fun _ => Or.inl) ?_
    have hfree := location_ne_staged hk hstage hnone
    rcases hrow with ⟨_, _, _, he⟩ | ⟨data, st, hput, he⟩
    · rw [he]
      exact movesTo_bestEffortRemove b ctx.faults fun o ho => hfree o ho.1
    · rw [he]
      unfold Storage.putObjectStream at hput
      split at hput
      · cases hput
      · cases hput
        have hmove := @movesTo_put env b _ data entry.mimeType hfree
        exact hmove.trans
          (movesTo_recordAndComplete (hmove.wellKept hk) ctx entry hstage categories paths)

theorem movesTo_importManifestEntry (b : Backend) (ctx : RowContext) (user : UserModel)
    (entry : ImportObjectEntry) (categories : List Category) (paths : List String) :
    MovesTo env Move.Imports b.holdings
      (importManifestEntry b ctx user entry categories paths).1.holdings := by
  unfold importManifestEntry
  split
  · exact .refl _
  · exact .refl _
  · rename_i o hmatch
    obtain ⟨ho, -, hlive, -⟩ := importableMatch_eq_some hmatch
    exact movesTo_fileInto b ctx.recordedAt ho hlive categories

/-- The row function of either format. -/
abbrev ImportRow := Backend → RowContext → ImportObjectEntry → List Category → List String →
  Backend × Except Failure (ImportObjectResult × Option MediaObject)

/-- What every row of a document keeps, the rows keep in turn. -/
theorem importRows_inv {I : Backend → Prop} {tree : RecreatedTree} {ctx : ℕ → RowContext}
    {row : ImportRow} {entries : List ImportObjectEntry}
    (hrow : ∀ i b, ∀ entry ∈ entries, ∀ categories paths,
      categoriesFor env tree entry = .ok categories → I b →
      I (row b (ctx i) entry categories paths).1)
    (i : ℕ) {b : Backend} (h : I b) : I (importRows env tree ctx row i b entries).1 := by
  induction entries generalizing i b with
  | nil => exact h
  | cons entry entries ih =>
    have hrest : ∀ i b, I b → I (importRows env tree ctx row i b entries).1 := fun i b =>
      ih (fun i b e he => hrow i b e (List.mem_cons_of_mem entry he)) i
    rw [importRows]
    split
    · rename_i categories paths hcat _
      have hfirst := hrow i b entry List.mem_cons_self categories paths hcat h
      split
      · rename_i hr
        rw [hr] at hfirst
        exact hfirst
      · rename_i b' result hr
        rw [hr] at hfirst
        have hlast := hrest (i + 1) b' hfirst
        split <;> rename_i hrec <;> rw [hrec] at hlast <;> exact hlast
    · exact h
    · exact h

/-- A document keeps what its tree and its rows keep. -/
theorem importDocument_inv {I : Backend → Prop} {ctx : ℕ → RowContext} {row : ImportRow}
    {b : Backend} {user : UserModel} {format : ImportFormat} {manifest : ImportManifest}
    (htree : I ⟨(recreateTree env b.db user manifest).1, b.storage⟩)
    (hrow : ∀ tree, (recreateTree env b.db user manifest).2 = .ok tree →
      ∀ i b, ∀ entry ∈ manifest.objects, ∀ categories paths,
      categoriesFor env tree entry = .ok categories → I b →
      I (row b (ctx i) entry categories paths).1) :
    I (importDocument env b ctx user format manifest row).1 := by
  unfold importDocument
  split <;> rename_i he <;> rw [he] at htree hrow
  · exact htree
  · rename_i db tree
    have hrows := importRows_inv (hrow tree rfl) 0 htree
    split <;> rename_i hr <;> rw [hr] at hrows <;> exact hrows

/-- An import changes nothing, or comes to what its tree and the rows of either format
keep. -/
theorem runImport_eq_or_inv {I : Backend → Prop} {ctx : ℕ → RowContext} {b : Backend}
    {user : UserModel} {source : ImportSource}
    (htree : I ⟨(recreateTree env b.db user source.document).1, b.storage⟩)
    (hrow : ∀ tree, (recreateTree env b.db user source.document).2 = .ok tree →
      ∀ i b, ∀ entry ∈ source.document.objects, ∀ categories paths,
      categoriesFor env tree entry = .ok categories → I b →
      I (importManifestEntry b (ctx i) user entry categories paths).1 ∧
        ∀ info, I (importOneFile env b (ctx i) user info entry categories paths).1) :
    (runImport env b ctx user source).1 = b ∨ I (runImport env b ctx user source).1 := by
  cases source with
  | manifest manifest =>
    exact .inr (importDocument_inv htree fun tree he i b entry hentry categories paths hcat hb =>
      (hrow tree he i b entry hentry categories paths hcat hb).1)
  | archive manifest infolist =>
    unfold runImport
    dsimp only
    split
    · exact .inl rfl
    · exact .inr (importDocument_inv htree fun tree he i b entry hentry categories paths hcat hb =>
        (hrow tree he i b entry hentry categories paths hcat hb).2 _)

/-- An import keeps what its tree and the rows of either format keep. -/
theorem runImport_inv {I : Backend → Prop} {ctx : ℕ → RowContext} {b : Backend}
    {user : UserModel} {source : ImportSource} (h : I b)
    (htree : I ⟨(recreateTree env b.db user source.document).1, b.storage⟩)
    (hrow : ∀ tree, (recreateTree env b.db user source.document).2 = .ok tree →
      ∀ i b, ∀ entry ∈ source.document.objects, ∀ categories paths,
      categoriesFor env tree entry = .ok categories → I b →
      I (importManifestEntry b (ctx i) user entry categories paths).1 ∧
        ∀ info, I (importOneFile env b (ctx i) user info entry categories paths).1) :
    I (runImport env b ctx user source).1 := by
  rcases runImport_eq_or_inv htree hrow with heq | hinv
  · rw [heq]
    exact h
  · exact hinv

theorem onlyCategories_recreateTree (env : Env) (db : Database) (user : UserModel)
    (manifest : ImportManifest) :
    OnlyCategories db (recreateTree env db user manifest).1 := by
  have hensure : ∀ (chains : List (String × CategoryChain)) (db : Database) (tree : RecreatedTree),
      OnlyCategories db (ensureChains user db tree chains).1 := by
    intro chains
    induction chains with
    | nil => exact fun db tree => .refl db
    | cons chain chains ih =>
      intro db tree
      obtain ⟨key, chain⟩ := chain
      have hpath := onlyCategories_ensureCategoryPath db user chain
      rw [ensureChains]
      split <;> rename_i he <;> rw [he] at hpath
      · exact hpath
      · exact hpath.trans (ih _ _)
  unfold recreateTree
  split
  · exact .refl db
  · split
    · exact .refl db
    · exact hensure _ _ _

theorem movesTo_runImport {b : Backend} (hk : WellKept env b.holdings) (ctx : ℕ → RowContext)
    (user : UserModel) (source : ImportSource) :
    MovesTo env Move.Imports b.holdings (runImport env b ctx user source).1.holdings := by
  have htree := (onlyCategories_recreateTree env b.db user source.document).holdings b.storage
  have hrow : ∀ {b' b'' : Backend}, MovesTo env Move.Imports b.holdings b'.holdings →
      (WellKept env b'.holdings → MovesTo env Move.Imports b'.holdings b''.holdings) →
      MovesTo env Move.Imports b.holdings b''.holdings := fun h h' => h.trans (h' (h.wellKept hk))
  refine runImport_inv (I := fun b' => MovesTo env Move.Imports b.holdings b'.holdings) (.refl _)
    (.of_eq htree) fun _ _ i b' entry _ categories paths _ hb => ⟨?_, fun info => ?_⟩
  · exact hrow hb fun _ => movesTo_importManifestEntry b' (ctx i) user entry categories paths
  · exact hrow hb fun hk' => movesTo_importOneFile hk' (ctx i) user info entry categories paths

end MediaService
