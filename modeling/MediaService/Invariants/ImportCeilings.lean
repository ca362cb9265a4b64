import MediaService.Invariants.ArchiveRoundTrip
import MediaService.Invariants.ImportScope
import MediaService.Invariants.RecreatedTree

/-! What an import may spend. Its ceilings are checked on the document and on the directory
of the archive; the loops that create rows and put bytes come later. Here the loops are
followed to their ends, failed or not, from any state: the calls for the tree create one
level each, a row creates no object but the one of its id and puts no bytes but those of
its entry. What is put is noted down by the loop itself, at the call that puts it. -/

namespace MediaService

open Foundation ParentMap

variable {env : Env} {user : UserModel} {db db' db'' : Database} {b b' b'' : Backend}

/-! ### Categories -/

/-- At most `room` categories were added, each on a line of at most `cap`. -/
def AddsWithin (user : UserModel) (cap room : ℕ) (db db' : Database) : Prop :=
  ∃ new, db'.categories.rows = db.categories.rows ++ new ∧ new.length ≤ room ∧
    ∀ c ∈ new, ∃ cs, Line (writeScope db' user.tenantId user.id) none (cs ++ [c]) ∧
      (cs ++ [c]).length ≤ cap

theorem AddsWithin.refl (user : UserModel) (cap room : ℕ) (db : Database) :
    AddsWithin user cap room db db :=
  ⟨[], (List.append_nil _).symm, Nat.zero_le room, nofun⟩

theorem AddsWithin.trans {cap room room' : ℕ} (h : AddsWithin user cap room db db')
    (h' : AddsWithin user cap room' db' db'') : AddsWithin user cap (room + room') db db'' := by
  obtain ⟨new, hrows, hlength, hnew⟩ := h
  obtain ⟨new', hrows', hlength', hnew'⟩ := h'
  refine ⟨new ++ new', by rw [hrows', hrows, List.append_assoc], ?_, fun c hc => ?_⟩
  · rw [List.length_append]
    exact Nat.add_le_add hlength hlength'
  · rcases List.mem_append.mp hc with hc | hc
    · obtain ⟨cs, hline, hcap⟩ := hnew c hc
      exact ⟨cs, hline.mono (mem_writeScope_of_rows hrows'), hcap⟩
    · exact hnew' c hc

theorem AddsWithin.mono {cap room room' : ℕ} (h : AddsWithin user cap room db db')
    (hle : room ≤ room') : AddsWithin user cap room' db db' := by
  obtain ⟨new, hrows, hlength, hnew⟩ := h
  exact ⟨new, hrows, hlength.trans hle, hnew⟩

theorem EndsLine.addsWithin {slugs : List String} {row : Category} {n cap : ℕ}
    (h : EndsLine user db db' slugs row n) (hcap : slugs.length ≤ cap) :
    AddsWithin user cap 1 db db' := by
  obtain ⟨cs, hline, hslugs⟩ := h.line
  have hlength : (cs ++ [row]).length ≤ cap := by
    rw [← List.length_map (f := Category.slug), hslugs]
    exact hcap
  cases h with
  | found _ hdb _ _ => exact hdb ▸ .refl user cap 1 db
  | created _ hrows _ _ _ _ _ =>
    refine ⟨[row], hrows, Nat.le_refl 1, fun c hc => ?_⟩
    obtain rfl := List.mem_singleton.mp hc
    exact ⟨cs, hline, hlength⟩

/-- The loop of the tree, wherever it ends. -/
theorem addsWithin_ensureChains {cap : ℕ} {chains : List (String × CategoryChain)}
    (hcap : ∀ p ∈ chains, p.2.length ≤ cap) (done : List (String × CategoryChain))
    (hres : Resolvable (done ++ chains)) (hdone : ∀ p ∈ done, Found user db p.2)
    (tree : RecreatedTree) :
    AddsWithin user cap chains.length db (ensureChains user db tree chains).1 := by
  induction chains generalizing done db tree with
  | nil => exact .refl user cap 0 db
  | cons p chains ih =>
    obtain ⟨key, chain⟩ := p
    obtain ⟨init, ⟨name, slug⟩, hinit, hparent⟩ := hres done (key, chain) chains rfl
    dsimp only at hinit
    have hfound : Found user db init := by
      rcases hparent with rfl | ⟨q, hq, hslugs⟩
      · exact found_nil user db
      · exact (hdone q hq).congr hslugs.symm
    rw [ensureChains]
    rcases endsLine_of_found hfound name slug with ⟨e, he⟩ | ⟨db₁, row, n, hok, hends⟩
    · rw [hinit, he]
      exact .refl user cap _ db
    · rw [← hinit] at hok hends
      obtain ⟨hcont, hthis⟩ := found_of_ensureCategoryPath hok
      have hdone' : ∀ p ∈ done ++ [(key, chain)], Found user db₁ p.2 := by
        intro p hp
        rcases List.mem_append.mp hp with hp | hp
        · exact (hdone p hp).mono hcont
        · obtain rfl := List.mem_singleton.mp hp
          exact hthis
      have hone : AddsWithin user cap 1 db db₁ := hends.addsWithin (by
        rw [List.length_map]
        exact hcap _ List.mem_cons_self)
      have hrest := ih (fun p hp => hcap p (List.mem_cons_of_mem _ hp))
        (done ++ [(key, chain)]) (by rwa [List.append_assoc]) hdone'
        ⟨tree.byPath ++ [(key, row)], tree.created + n, tree.reused + (1 - n)⟩
      rw [hok]
      exact (hone.trans hrest).mono (by rw [List.length_cons]; omega)

/-- The tree of a parsed document. -/
theorem addsWithin_recreateTree (hslug : SlugifyLaws env) {lib : ModelLibrary} {json : Json}
    {manifest : ImportManifest}
    (hparse : parseManifestDocument env.settings lib json = .ok manifest) :
    AddsWithin user env.settings.mediaImportMaxCategoryDepth
      env.settings.mediaImportMaxCategories db (recreateTree env db user manifest).1 := by
  unfold recreateTree
  split
  · exact .refl user _ _ db
  · rename_i chains hchains
    split
    · exact .refl user _ _ db
    · rename_i hceiling
      have hfits := fits_of_manifestChains hparse hchains
      have hcap : ∀ p ∈ chains.insertionSort fun a b => shallowestFirst a b = true,
          p.2.length ≤ env.settings.mediaImportMaxCategoryDepth := fun p hp =>
        (hfits p ((List.mem_insertionSort _).mp hp)).1
      refine (addsWithin_ensureChains hcap []
        (resolvable_of_manifestChains hslug hparse hchains) nofun ⟨[], 0, 0⟩).mono ?_
      rw [List.length_insertionSort]
      omega

/-! ### Objects and bytes -/

/-- From one state to the next no object is new but under one of the ids, and no bytes are
anywhere but where they were or were put, at the length they were put with. -/
structure Spends (b b' : Backend) (ids : List UUID) (puts : List (Location × ℕ)) : Prop where
  objects : ∀ id ∉ ids, b.db.objects.find id = none → b'.db.objects.find id = none
  contents : ∀ l data, b'.storage.content l = some data →
    b.storage.content l = some data ∨ (l, data.length) ∈ puts

variable {ids ids' : List UUID} {puts puts' : List (Location × ℕ)}

theorem Spends.refl (b : Backend) (ids : List UUID) (puts : List (Location × ℕ)) :
    Spends b b ids puts :=
  ⟨fun _ _ h => h, fun _ _ h => .inl h⟩

theorem Spends.trans (h : Spends b b' ids puts) (h' : Spends b' b'' ids' puts') :
    Spends b b'' (ids ++ ids') (puts ++ puts') where
  objects id hid hnone := by
    rw [List.mem_append, not_or] at hid
    exact h'.objects id hid.2 (h.objects id hid.1 hnone)
  contents l data hdata := by
    rcases h'.contents l data hdata with hdata | hput
    · exact (h.contents l data hdata).imp_right (List.mem_append_left puts')
    · exact .inr (List.mem_append_right puts hput)

theorem Spends.of_sameObjects (hobjects : b'.db.objects = b.db.objects)
    (hstorage : b'.storage = b.storage) : Spends b b' ids puts :=
  ⟨fun _ _ h => hobjects ▸ h, fun _ _ h => .inl (hstorage ▸ h)⟩

theorem spends_fileInto (now : Timestamp) (o : MediaObject) (categories : List Category) :
    Spends b { b with db := fileInto b.db now o categories } ids puts := by
  unfold fileInto
  dsimp only
  split
  · exact .refl b ids puts
  · refine ⟨fun id _ hnone => ?_, fun _ _ h => .inl h⟩
    have hsome := Table.find_update_isSome b.db.objects { o with updatedAt := now } id
    rw [hnone, Option.isSome_none] at hsome
    exact Option.isNone_iff_eq_none.mp (by simpa using hsome)

/-! ### The puts -/

/-- What a row comes to, and what it hands to storage on the way: where, and how many
bytes. -/
abbrev LoggedRow :=
  (Backend × Except Failure (ImportObjectResult × Option MediaObject)) × List (Location × ℕ)

/-- `importNewFile`, with its put noted down. -/
def importNewFileLogged (env : Env) (b : Backend) (ctx : RowContext) (user : UserModel)
    (info : ZipInfo) (entry : ImportObjectEntry) (categories : List Category)
    (paths : List String) : LoggedRow :=
  if !isAllowedDeclaredMime entry.mimeType then
    ((b, .ok (rowFailed entry paths .unsupportedMime
      ("Unsupported content type: " ++ entry.mimeType), none)), [])
  else if info.fileSize > maxSizeForCategory env.settings entry.category.str then
    ((b, .ok (rowFailed entry paths (.rejected .sizeExceeded)
      "Object is larger than its category allows.", none)), [])
  else
    match (entryRequest env entry info.fileSize categories).validated env with
    | none =>
      ((b, .ok (rowFailed entry paths .invalidMetadata
        "Manifest metadata does not describe an uploadable object.", none)), [])
    | some req =>
      match stageUpload env b.db user req entry.id with
      | .error (.http e) =>
        ((b, .ok (rowFailed entry paths (reasonFor e).1 (reasonFor e).2, none)), [])
      | .error e => ((b, .error e), [])
      | .ok staged =>
        (match info.read.bind fun data =>
            b.storage.putObjectStream ctx.faults staged.location data entry.mimeType with
        | none =>
          ({ b with storage := b.storage.bestEffortRemove ctx.faults staged.location },
            .ok (rowFailed entry paths .storageError "The imported bytes could not be stored.",
              none))
        | some st =>
          recordAndComplete env { b with storage := st } ctx user entry staged req categories paths,
        [(staged.location, info.fileSize)])

/-- `importOneFile`; only a new file is put. -/
def importOneFileLogged (env : Env) (b : Backend) (ctx : RowContext) (user : UserModel)
    (info : Option ZipInfo) (entry : ImportObjectEntry) (categories : List Category)
    (paths : List String) : LoggedRow :=
  match importableMatch b.db user entry.id, info with
  | none, some info => importNewFileLogged env b ctx user info entry categories paths
  | _, _ => (importOneFile env b ctx user info entry categories paths, [])

/-- `importRows`, with the puts of its rows, up to the one that raises if one does. -/
def importRowsLogged (env : Env) (tree : RecreatedTree) (ctx : ℕ → RowContext)
    (row : Backend → RowContext → ImportObjectEntry → List Category → List String → LoggedRow) :
    ℕ → Backend → List ImportObjectEntry →
      (Backend × Except Failure (List (ImportObjectResult × Option MediaObject))) ×
        List (Location × ℕ)
  | _, b, [] => ((b, .ok []), [])
  | i, b, entry :: entries =>
    match categoriesFor env tree entry, entryPaths env entry with
    | .ok categories, .ok paths =>
      match row b (ctx i) entry categories paths with
      | ((b, .error e), puts) => ((b, .error e), puts)
      | ((b, .ok result), puts) =>
        match importRowsLogged env tree ctx row (i + 1) b entries with
        | ((b, .error e), rest) => ((b, .error e), puts ++ rest)
        | ((b, .ok results), rest) => ((b, .ok (result :: results)), puts ++ rest)
    | .error e, _ => ((b, .error e), [])
    | _, .error e => ((b, .error e), [])

/-- `importDocument`, with the puts of its rows. -/
def importDocumentLogged (env : Env) (b : Backend) (ctx : ℕ → RowContext) (user : UserModel)
    (format : ImportFormat) (manifest : ImportManifest)
    (row : Backend → RowContext → ImportObjectEntry → List Category → List String → LoggedRow) :
    (Backend × Except Failure ImportOutcome) × List (Location × ℕ) :=
  match recreateTree env b.db user manifest with
  | (db, .error e) => (({ b with db := db }, .error e), [])
  | (db, .ok tree) =>
    match importRowsLogged env tree ctx row 0 { b with db := db } manifest.objects with
    | ((b, .error e), puts) => ((b, .error e), puts)
    | ((b, .ok results), puts) => ((b, .ok (tallied format tree results)), puts)

/-- `runImport`; a bare manifest has no bytes to put. -/
def runImportLogged (env : Env) (b : Backend) (ctx : ℕ → RowContext) (user : UserModel) :
    ImportSource → (Backend × Except Failure ImportOutcome) × List (Location × ℕ)
  | .manifest manifest => (runImport env b ctx user (.manifest manifest), [])
  | .archive manifest infolist =>
    match assertArchiveWithinCeilings env manifest infolist with
    | .error e => ((b, .error e), [])
    | .ok () =>
      importDocumentLogged env b ctx user .archive manifest fun b ctx entry categories paths =>
        importOneFileLogged env b ctx user (fileEntry env infolist entry.id) entry categories
          paths

/-- `importController`, with what the import hands to storage. -/
def importControllerLogged (env : Env) (lib : DocumentLibrary) (b : Backend)
    (ctx : ℕ → RowContext) (user : UserModel) (format : ImportFormat) (source : List Bytes) :
    (Backend × Except ImportFailure ImportOutcome) × List (Location × ℕ) :=
  match readUpload env.settings lib format source with
  | .error e => ((b, .error e), [])
  | .ok document =>
    match runImportLogged env b ctx user document with
    | ((b, r), puts) => ((b, r.mapError .failure), puts)

/-- What an import puts into storage. -/
def uploadPuts (env : Env) (lib : DocumentLibrary) (b : Backend) (ctx : ℕ → RowContext)
    (user : UserModel) (format : ImportFormat) (source : List Bytes) : List (Location × ℕ) :=
  (importControllerLogged env lib b ctx user format source).2

section Erasure

variable {ctx : RowContext} {entry : ImportObjectEntry} {categories : List Category}
  {paths : List String}

/-- Noting the put down changes nothing of a row. -/
theorem fst_importNewFileLogged (info : ZipInfo) :
    (importNewFileLogged env b ctx user info entry categories paths).1 =
      importNewFile env b ctx user info entry categories paths := by
  unfold importNewFileLogged importNewFile
  split_ifs
  · rfl
  · rfl
  cases (entryRequest env entry info.fileSize categories).validated env with
  | none => rfl
  | some req =>
    dsimp only
    cases stageUpload env b.db user req entry.id with
    | error e => cases e <;> rfl
    | ok staged => rfl

theorem fst_importOneFileLogged (info : Option ZipInfo) :
    (importOneFileLogged env b ctx user info entry categories paths).1 =
      importOneFile env b ctx user info entry categories paths := by
  unfold importOneFileLogged
  split
  · rename_i info hnone
    rw [fst_importNewFileLogged, importOneFile, hnone]
  · rfl

theorem fst_importRowsLogged {tree : RecreatedTree} {ctx : ℕ → RowContext}
    {logged : Backend → RowContext → ImportObjectEntry → List Category → List String → LoggedRow}
    {row : ImportRow} (hrow : ∀ b ctx entry categories paths,
      (logged b ctx entry categories paths).1 = row b ctx entry categories paths)
    (entries : List ImportObjectEntry) (i : ℕ) :
    (importRowsLogged env tree ctx logged i b entries).1 =
      importRows env tree ctx row i b entries := by
  induction entries generalizing i b with
  | nil => rfl
  | cons entry entries ih =>
    rw [importRowsLogged, importRows]
    cases categoriesFor env tree entry with
    | error e => rfl
    | ok categories =>
      cases entryPaths env entry with
      | error e => rfl
      | ok paths =>
        have hone := hrow b (ctx i) entry categories paths
        dsimp only
        generalize logged b (ctx i) entry categories paths = r at hone ⊢
        obtain ⟨⟨b₁, e | result⟩, puts⟩ := r
        · rw [← hone]
        · rw [← hone]
          dsimp only
          rw [← ih (b := b₁) (i + 1)]
          generalize importRowsLogged env tree ctx logged (i + 1) b₁ entries = rest
          obtain ⟨⟨b₂, e | results⟩, puts'⟩ := rest <;> rfl

theorem fst_importDocumentLogged {ctx : ℕ → RowContext} {format : ImportFormat}
    {manifest : ImportManifest}
    {logged : Backend → RowContext → ImportObjectEntry → List Category → List String → LoggedRow}
    {row : ImportRow} (hrow : ∀ b ctx entry categories paths,
      (logged b ctx entry categories paths).1 = row b ctx entry categories paths) :
    (importDocumentLogged env b ctx user format manifest logged).1 =
      importDocument env b ctx user format manifest row := by
  unfold importDocumentLogged importDocument
  generalize recreateTree env b.db user manifest = r
  obtain ⟨db, e | tree⟩ := r
  · rfl
  · dsimp only
    rw [← fst_importRowsLogged hrow]
    generalize importRowsLogged env tree ctx logged 0 { b with db := db } manifest.objects = rows
    obtain ⟨⟨b₁, e | results⟩, puts⟩ := rows <;> rfl

theorem fst_runImportLogged (ctx : ℕ → RowContext) (source : ImportSource) :
    (runImportLogged env b ctx user source).1 = runImport env b ctx user source := by
  cases source with
  | manifest manifest => rfl
  | archive manifest infolist =>
    rw [runImportLogged, runImport]
    cases assertArchiveWithinCeilings env manifest infolist with
    | error e => rfl
    | ok _ =>
      exact fst_importDocumentLogged fun _ _ _ _ _ => fst_importOneFileLogged _

/-- The import with its puts noted down is the import. -/
theorem fst_importControllerLogged (lib : DocumentLibrary) (ctx : ℕ → RowContext)
    (format : ImportFormat) (source : List Bytes) :
    (importControllerLogged env lib b ctx user format source).1 =
      importController env lib b ctx user format source := by
  unfold importControllerLogged importController
  cases readUpload env.settings lib format source with
  | error e => rfl
  | ok document =>
    dsimp only
    rw [← fst_runImportLogged]

end Erasure

/-! ### What a row spends -/

/-- A rejection removes bytes at most. -/
theorem content_rejectUpload {usage : UsageTable} {faults : Faults} {now : Timestamp}
    {s : UploadSession} (reason : UploadRejectReason) (size : ℕ) (l : Location) :
    (rejectUpload b usage faults now s reason size).1.storage.content l = b.storage.content l ∨
      (rejectUpload b usage faults now s reason size).1.storage.content l = none := by
  unfold rejectUpload
  split
  · exact .inl rfl
  · dsimp only
    rw [Storage.content_bestEffortRemove]
    split_ifs
    · exact .inr rfl
    · exact .inl rfl

theorem storage_promoteUpload {usage : UsageTable} {now : Timestamp} {s : UploadSession}
    {size : ℕ} {sha256 : Option String} {categories : List Category} :
    (promoteUpload b usage now s size sha256 categories).1.storage = b.storage := by
  unfold promoteUpload
  dsimp only
  split <;> rfl

theorem content_completeSession {faults : Faults} {now : Timestamp} {s : UploadSession}
    {sha256 : Option String} {categories : List Category} (l : Location) :
    (completeSession env b faults now s sha256 categories).1.storage.content l =
        b.storage.content l ∨
      (completeSession env b faults now s sha256 categories).1.storage.content l = none := by
  unfold completeSession
  split
  · exact .inl rfl
  · split
    · exact content_rejectUpload _ _ l
    · dsimp only
      split
      · exact content_rejectUpload _ _ l
      · split
        · exact .inl rfl
        · exact content_rejectUpload _ _ l
        · split
          · exact .inl rfl
          · rename_i storage hct
            have hsame := Storage.content_setObjectContentType hct l
            split
            · rw [← hsame]
              exact content_rejectUpload _ _ l
            · rw [storage_promoteUpload]
              exact .inl hsame

/-- A completion removes bytes at most. -/
theorem content_completeUpload (faults : Faults) (now : Timestamp) (id : UUID)
    (req : UploadCompleteRequest) (l : Location) :
    (completeUpload env b faults now user id req).1.storage.content l = b.storage.content l ∨
      (completeUpload env b faults now user id req).1.storage.content l = none := by
  rcases completeUpload_cases env b faults now user id req with
    ⟨_, _, he⟩ | ⟨_, -, -, -, _, _, he⟩ | ⟨_, _, -, he⟩ | ⟨s, categories, -, -, -, -, he⟩
  · exact he ▸ .inl rfl
  · exact he ▸ .inl rfl
  · exact he ▸ .inl rfl
  · exact he ▸ content_completeSession l

/-- A completion creates no object but its session's, and puts nothing. -/
theorem spends_completeUpload (faults : Faults) (now : Timestamp) (id : UUID)
    (req : UploadCompleteRequest) :
    Spends b (completeUpload env b faults now user id req).1 [id] [] := by
  refine ⟨?_, fun l data hdata => .inl ?_⟩
  · have hinsert : ∀ {s : UploadSession} {mimeType : String} {size : ℕ} {sha256 : Option String}
        {status : MediaObjectStatus} {t : Table MediaObject.id},
        loadOwnedSession b.db user id = .ok s →
        b.db.objects.insert (sessionObject s mimeType size sha256 status now) = some t →
        ∀ i ∉ [id], b.db.objects.find i = none → t.find i = none := by
      intro s mimeType size sha256 status t hload ht i hi hnone
      obtain ⟨-, hid, -⟩ := loadOwnedSession_ok hload
      rw [Table.find_insert ht, if_neg, hnone]
      rintro rfl
      exact hi (List.mem_singleton.mpr hid)
    have hends := ends_completeUpload env b faults now user id req
    generalize completeUpload env b faults now user id req = r at hends
    cases hends with
    | refused _ _ hdb =>
      rcases hdb with rfl | ⟨s, -, -, -, rfl⟩
      · exact fun _ _ hnone => hnone
      · exact fun _ _ hnone => hnone
    | rejected hload _ _ ht _ _ => exact hinsert hload ht
    | promoted hload _ _ _ _ _ ht _ _ => exact hinsert hload ht
  · rcases @content_completeUpload env user b faults now id req l with hl | hl
    · exact hl ▸ hdata
    · rw [hl] at hdata
      cases hdata

theorem spends_recordAndComplete (ctx : RowContext) (entry : ImportObjectEntry)
    (staged : StagedUpload) (req : UploadInitiateRequest) (categories : List Category)
    (paths : List String) :
    Spends b (recordAndComplete env b ctx user entry staged req categories paths).1
      [staged.mediaId] [] := by
  unfold recordAndComplete
  dsimp only
  split
  · exact .refl b _ _
  · rename_i db₁ hrecord
    obtain ⟨-, t, -, rfl⟩ := Database.insertSession_ok hrecord
    have hcompleted : Spends ⟨{ b.db with sessions := t }, b.storage⟩ _ [staged.mediaId] [] :=
      @spends_completeUpload env user _ ctx.faults ctx.completedAt staged.mediaId
        ⟨entry.sha256, some (categories.map Category.id)⟩
    have hrecorded : Spends b ⟨{ b.db with sessions := t }, b.storage⟩ [] [] :=
      .of_sameObjects rfl rfl
    have hwhole := hrecorded.trans hcompleted
    split <;> rename_i heq <;> rw [heq] at hwhole <;> exact hwhole

theorem length_read {info : ZipInfo} {data : Bytes} (h : info.read = some data) :
    data.length = info.fileSize := by
  unfold ZipInfo.read at h
  split at h
  · cases h
  · split_ifs at h with hshort
    cases h
    rw [List.length_take]
    omega

theorem spends_putObjectStream {faults : Faults} {l : Location} {data : Bytes}
    {contentType : String} {st : Storage}
    (h : b.storage.putObjectStream faults l data contentType = some st) :
    Spends b { b with storage := st } [] [(l, data.length)] := by
  refine ⟨fun _ _ hnone => hnone, fun l' data' hdata => ?_⟩
  dsimp only at hdata
  rw [Storage.content_putObjectStream h] at hdata
  split_ifs at hdata with hl
  · cases hdata
    exact .inr (hl ▸ List.mem_singleton_self _)
  · exact .inl hdata

/-- A new file's row spends its object's id and its put. -/
theorem spends_importNewFile (ctx : RowContext) (info : ZipInfo) (entry : ImportObjectEntry)
    (categories : List Category) (paths : List String) :
    Spends b (importNewFileLogged env b ctx user info entry categories paths).1.1 [entry.id]
      (importNewFileLogged env b ctx user info entry categories paths).2 := by
  unfold importNewFileLogged
  split_ifs
  · exact .refl b _ _
  · exact .refl b _ _
  cases (entryRequest env entry info.fileSize categories).validated env with
  | none => exact .refl b _ _
  | some req =>
    dsimp only
    cases hstaged : stageUpload env b.db user req entry.id with
    | error e => cases e <;> exact .refl b _ _
    | ok staged =>
      dsimp only
      split
      · refine ⟨fun _ _ hnone => hnone, fun l data hdata => .inl ?_⟩
        dsimp only at hdata
        rw [Storage.content_bestEffortRemove] at hdata
        split_ifs at hdata
        exact hdata
      · rename_i st hput
        obtain ⟨data, hread, hput⟩ := Option.bind_eq_some_iff.mp hput
        have hrecorded := @spends_recordAndComplete env user { b with storage := st } ctx entry
          staged req categories paths
        rw [(stageUpload_ok hstaged).1] at hrecorded
        rw [← length_read hread]
        exact (spends_putObjectStream hput).trans hrecorded

/-- A row spends its object's id and its file's put. -/
theorem spends_importOneFile (ctx : RowContext) (info : Option ZipInfo)
    (entry : ImportObjectEntry) (categories : List Category) (paths : List String) :
    Spends b (importOneFileLogged env b ctx user info entry categories paths).1.1 [entry.id]
      (importOneFileLogged env b ctx user info entry categories paths).2 := by
  unfold importOneFileLogged importOneFile
  cases importableMatch b.db user entry.id with
  | some o =>
    obtain ⟨o, _ | _⟩ := o
    · exact .refl b _ _
    · exact spends_fileInto _ _ _
  | none =>
    cases info with
    | none => exact .refl b _ _
    | some info => exact spends_importNewFile ctx info entry categories paths

/-- What is put of a file has the length it is declared with. -/
theorem sum_importOneFile_le (ctx : RowContext) (info : Option ZipInfo)
    (entry : ImportObjectEntry) (categories : List Category) (paths : List String) :
    ((importOneFileLogged env b ctx user info entry categories paths).2.map Prod.snd).sum ≤
      (info.map ZipInfo.fileSize).getD 0 := by
  unfold importOneFileLogged
  split
  · rename_i info _
    unfold importNewFileLogged
    split_ifs
    · exact Nat.zero_le _
    · exact Nat.zero_le _
    cases (entryRequest env entry info.fileSize categories).validated env with
    | none => exact Nat.zero_le _
    | some req =>
      dsimp only
      cases stageUpload env b.db user req entry.id with
      | error e => cases e <;> exact Nat.zero_le _
      | ok staged => exact Nat.le_refl _
  · exact Nat.zero_le _

theorem spends_importManifestEntry (ctx : RowContext) (entry : ImportObjectEntry)
    (categories : List Category) (paths : List String) :
    Spends b (importManifestEntry b ctx user entry categories paths).1 [] [] := by
  unfold importManifestEntry
  split
  · exact .refl b _ _
  · exact .refl b _ _
  · exact spends_fileInto _ _ _

section Rows

variable {tree : RecreatedTree} {ctx : ℕ → RowContext}
  {row : Backend → RowContext → ImportObjectEntry → List Category → List String → LoggedRow}

theorem sum_importRows_le {size : ImportObjectEntry → ℕ}
    (hput : ∀ b ctx entry categories paths,
      ((row b ctx entry categories paths).2.map Prod.snd).sum ≤ size entry)
    (entries : List ImportObjectEntry) (i : ℕ) :
    ((importRowsLogged env tree ctx row i b entries).2.map Prod.snd).sum ≤
      (entries.map size).sum := by
  induction entries generalizing i b with
  | nil => exact Nat.le_refl 0
  | cons entry entries ih =>
    rw [importRowsLogged, List.map_cons, List.sum_cons]
    cases categoriesFor env tree entry with
    | error e => exact Nat.zero_le _
    | ok categories =>
      cases entryPaths env entry with
      | error e => exact Nat.zero_le _
      | ok paths =>
        have hone := hput b (ctx i) entry categories paths
        dsimp only
        generalize row b (ctx i) entry categories paths = r at hone ⊢
        obtain ⟨⟨b₁, e | result⟩, puts⟩ := r
        · exact hone.trans (Nat.le_add_right _ _)
        · have hrest := ih (b := b₁) (i + 1)
          dsimp only at hone ⊢
          generalize importRowsLogged env tree ctx row (i + 1) b₁ entries = rest at hrest ⊢
          obtain ⟨⟨b₂, e | results⟩, puts'⟩ := rest <;>
          · rw [List.map_append, List.sum_append]
            exact Nat.add_le_add hone hrest

/-- The rows spend their objects' ids and their puts. -/
theorem spends_importRows (hrow : ∀ b ctx entry categories paths,
      Spends b (row b ctx entry categories paths).1.1 [entry.id]
        (row b ctx entry categories paths).2)
    (entries : List ImportObjectEntry) (i : ℕ) :
    Spends b (importRowsLogged env tree ctx row i b entries).1.1
      (entries.map ImportObjectEntry.id) (importRowsLogged env tree ctx row i b entries).2 := by
  induction entries generalizing i b with
  | nil => exact .refl b [] []
  | cons entry entries ih =>
    rw [importRowsLogged]
    cases categoriesFor env tree entry with
    | error e => exact .refl b _ _
    | ok categories =>
      cases entryPaths env entry with
      | error e => exact .refl b _ _
      | ok paths =>
        have hone := hrow b (ctx i) entry categories paths
        dsimp only
        generalize row b (ctx i) entry categories paths = r at hone ⊢
        obtain ⟨⟨b₁, e | result⟩, puts⟩ := r
        · have hwhole := hone.trans (.refl b₁ (entries.map ImportObjectEntry.id) [])
          rwa [List.append_nil] at hwhole
        · have hrest := hone.trans (ih (b := b₁) (i + 1))
          dsimp only at hrest ⊢
          generalize importRowsLogged env tree ctx row (i + 1) b₁ entries = rest at hrest ⊢
          obtain ⟨⟨b₂, e | results⟩, puts'⟩ := rest <;> exact hrest

theorem spends_importDocument {manifest : ImportManifest}
    (hrow : ∀ b ctx entry categories paths,
      Spends b (row b ctx entry categories paths).1.1 [entry.id]
        (row b ctx entry categories paths).2) (format : ImportFormat) :
    Spends b (importDocumentLogged env b ctx user format manifest row).1.1
      (manifest.objects.map ImportObjectEntry.id)
      (importDocumentLogged env b ctx user format manifest row).2 := by
  obtain ⟨_, _, _, hdb⟩ := onlyCategories_recreateTree env b.db user manifest
  unfold importDocumentLogged
  generalize recreateTree env b.db user manifest = r at hdb ⊢
  obtain ⟨db, result⟩ := r
  have htree : Spends b ⟨db, b.storage⟩ [] [] :=
    .of_sameObjects (by rw [show db = _ from hdb]) rfl
  cases result with
  | error e => exact htree.trans (.refl _ (manifest.objects.map ImportObjectEntry.id) [])
  | ok tree =>
    have hrows := htree.trans (@spends_importRows env ⟨db, b.storage⟩ tree ctx row hrow
      manifest.objects 0)
    dsimp only
    split <;> rename_i heq <;> rw [heq] at hrows <;> exact hrows

theorem sum_importDocument_le {size : ImportObjectEntry → ℕ} {manifest : ImportManifest}
    (hput : ∀ b ctx entry categories paths,
      ((row b ctx entry categories paths).2.map Prod.snd).sum ≤ size entry)
    (format : ImportFormat) :
    ((importDocumentLogged env b ctx user format manifest row).2.map Prod.snd).sum ≤
      (manifest.objects.map size).sum := by
  unfold importDocumentLogged
  generalize recreateTree env b.db user manifest = r
  obtain ⟨db, e | tree⟩ := r
  · exact Nat.zero_le _
  · have hrows := @sum_importRows_le env ⟨db, b.storage⟩ tree ctx row size hput manifest.objects 0
    dsimp only
    split <;> rename_i heq <;> rw [heq] at hrows <;> exact hrows

end Rows

/-! ### The whole import -/

/-- An import creates no object but under the ids of its document, and stores nothing but
what it puts. -/
theorem spends_runImport (env : Env) (b : Backend) (ctx : ℕ → RowContext) (user : UserModel)
    (source : ImportSource) :
    Spends b (runImportLogged env b ctx user source).1.1
      (source.document.objects.map ImportObjectEntry.id)
      (runImportLogged env b ctx user source).2 := by
  cases source with
  | manifest manifest =>
    obtain ⟨_, _, _, hdb⟩ := onlyCategories_recreateTree env b.db user manifest
    have hrun : Spends b (runImport env b ctx user (.manifest manifest)).1 [] [] := by
      refine importDocument_inv (I := fun b' => Spends b b' [] []) ?_ ?_
      · exact .of_sameObjects (by rw [hdb]) rfl
      · exact fun _ _ i b' entry _ categories paths _ hb =>
          hb.trans (spends_importManifestEntry (ctx i) entry categories paths)
    exact hrun.trans (.refl _ (manifest.objects.map ImportObjectEntry.id) [])
  | archive manifest infolist =>
    rw [runImportLogged]
    cases assertArchiveWithinCeilings env manifest infolist with
    | error e => exact .refl b _ _
    | ok _ =>
      exact spends_importDocument (fun b ctx entry categories paths =>
        spends_importOneFile ctx (fileEntry env infolist entry.id) entry categories paths) .archive

theorem sum_runImport_le (env : Env) (b : Backend) (ctx : ℕ → RowContext) (user : UserModel)
    (source : ImportSource) :
    ((runImportLogged env b ctx user source).2.map Prod.snd).sum ≤
      env.settings.mediaImportMaxTotalBytes := by
  cases source with
  | manifest manifest => exact Nat.zero_le _
  | archive manifest infolist =>
    rw [runImportLogged]
    cases hceilings : assertArchiveWithinCeilings env manifest infolist with
    | error e => exact Nat.zero_le _
    | ok _ =>
      refine (sum_importDocument_le (fun b ctx entry categories paths => sum_importOneFile_le ctx
        (fileEntry env infolist entry.id) entry categories paths) .archive).trans ?_
      unfold assertArchiveWithinCeilings at hceilings
      dsimp only at hceilings
      split_ifs at hceilings with hfiles htotal
      · cases hceilings
      · cases hceilings
      · exact not_lt.mp htotal

section Parsed

variable {settings : Settings}

/-- A document that was parsed is within the ceiling on objects. -/
theorem length_objects_of_parse {lib : ModelLibrary} {json : Json} {manifest : ImportManifest}
    (h : parseManifestDocument settings lib json = .ok manifest) :
    manifest.objects.length ≤ settings.mediaImportMaxObjects := by
  unfold parseManifestDocument at h
  split at h
  · cases h
  · rename_i hceilings
    split at h
    · cases h
    · rename_i hread
      cases h
      unfold ImportManifest.read at hread
      obtain ⟨tree, -, hread⟩ := Option.bind_eq_some_iff.mp hread
      obtain ⟨objects, hobjects, hread⟩ := Option.bind_eq_some_iff.mp hread
      cases hread
      unfold assertDocumentWithinCeilings at hceilings
      split at hceilings
      · split at hceilings
        · rename_i items _ hitems _
          split_ifs at hceilings with hlength
          · cases hceilings
          · unfold arrayMember at hitems
            unfold readItems at hobjects
            split at hobjects
            · cases hobjects
              exact Nat.zero_le _
            · rename_i items' hmember
              rw [hmember] at hitems
              cases hitems
              rw [← (mapM_eq_some_iff.mp hobjects).length_eq]
              exact not_lt.mp hlength
            · cases hobjects
        · cases hceilings
      · cases hceilings

/-- What an upload was read as was parsed. -/
theorem parsed_of_readUpload {lib : DocumentLibrary} {format : ImportFormat}
    {source : List Bytes} {document : ImportSource}
    (h : readUpload settings lib format source = .ok document) :
    ∃ json, parseManifestDocument settings lib.toModelLibrary json = .ok document.document := by
  have hparsed : ∀ {raw manifest}, parseManifestBytes settings lib raw = .ok manifest →
      ∃ json, parseManifestDocument settings lib.toModelLibrary json = .ok manifest := by
    intro raw manifest hraw
    unfold parseManifestBytes at hraw
    split at hraw
    · cases hraw
    · rename_i json _
      generalize hjson : parseManifestDocument settings lib.toModelLibrary json = r at hraw
      cases r with
      | error e => cases hraw
      | ok manifest' =>
        cases hraw
        exact ⟨json, hjson⟩
  unfold readUpload at h
  cases format with
  | manifest =>
    dsimp only at h
    split at h
    · cases h
    · split at h
      · cases h
      · rename_i hraw
        cases h
        exact hparsed hraw
  | archive =>
    dsimp only at h
    split at h
    · cases h
    · split at h
      · cases h
      · cases h
      · split at h
        · cases h
        · rename_i hmanifest
          cases h
          unfold archiveManifest at hmanifest
          split at hmanifest
          · cases hmanifest
          · split at hmanifest
            · cases hmanifest
            · split at hmanifest
              · cases hmanifest
              · exact hparsed hmanifest

end Parsed

/-- From one state to the next, what was created and what was put is within the ceilings of
an import. What is stored anywhere was there or was put. -/
structure WithinCeilings (settings : Settings) (b b' : Backend) (puts : List (Location × ℕ)) :
    Prop where
  categories : ∃ new, b'.db.categories.rows = b.db.categories.rows ++ new ∧
    new.length ≤ settings.mediaImportMaxCategories ∧
    ∀ c ∈ new, ∃ n ≤ settings.mediaImportMaxCategoryDepth,
      Depth (parentMap b'.db.categories.rows) c.id n
  objects : (b'.db.objects.rows.filter fun o => b.db.objects.find o.id = none).length ≤
    settings.mediaImportMaxObjects
  bytes : (puts.map Prod.snd).sum ≤ settings.mediaImportMaxTotalBytes
  stored : ∀ l data, b'.storage.content l = some data →
    b.storage.content l = some data ∨ (l, data.length) ∈ puts

theorem WithinCeilings.refl (settings : Settings) (b : Backend) :
    WithinCeilings settings b b [] where
  categories := ⟨[], (List.append_nil _).symm, Nat.zero_le _, nofun⟩
  objects := by
    have hnone : (b.db.objects.rows.filter fun o => b.db.objects.find o.id = none) = [] := by
      refine List.filter_eq_nil_iff.mpr fun o ho hnone => ?_
      rw [Table.find_of_mem ho] at hnone
      cases of_decide_eq_true hnone
    rw [hnone]
    exact Nat.zero_le _
  bytes := Nat.zero_le _
  stored _ _ h := .inl h

/-- Whatever is uploaded, from any state and by whoever, and however it ends: an import
stays within its ceilings, its puts being those that it notes down. -/
theorem importController_withinCeilings (hslug : SlugifyLaws env) (lib : DocumentLibrary)
    (b : Backend) (ctx : ℕ → RowContext) (user : UserModel) (format : ImportFormat)
    (source : List Bytes) :
    importControllerLogged env lib b ctx user format source =
        (importController env lib b ctx user format source,
          uploadPuts env lib b ctx user format source) ∧
      WithinCeilings env.settings b (importController env lib b ctx user format source).1
        (uploadPuts env lib b ctx user format source) := by
  refine ⟨Prod.ext (fst_importControllerLogged lib ctx format source) rfl, ?_⟩
  unfold importController uploadPuts importControllerLogged
  cases hread : readUpload env.settings lib format source with
  | error e => exact .refl env.settings b
  | ok document =>
    obtain ⟨json, hparse⟩ := parsed_of_readUpload hread
    have hspends := spends_runImport env b ctx user document
    have hsum := sum_runImport_le env b ctx user document
    rw [fst_runImportLogged] at hspends
    have hrows : (runImport env b ctx user document).1.db.categories = b.db.categories ∨
        (runImport env b ctx user document).1.db.categories =
          (recreateTree env b.db user document.document).1.categories := by
      have hrun : (runImport env b ctx user document).1 = b ∨
          SameCategories (recreateTree env b.db user document.document).1
            (runImport env b ctx user document).1.db :=
        runImport_eq_or_inv (I := fun b' =>
            SameCategories (recreateTree env b.db user document.document).1 b'.db)
          (.refl _) fun tree _ i b' entry _ categories paths _ hb' =>
            ⟨hb'.trans (sameCategories_importManifestEntry b' (ctx i) user entry categories paths),
              fun info => hb'.trans
                (sameCategories_importOneFile b' (ctx i) user info entry categories paths)⟩
      exact hrun.imp (fun h => by rw [h]) fun h => h.1
    have hadds : AddsWithin user env.settings.mediaImportMaxCategoryDepth
        env.settings.mediaImportMaxCategories b.db
        (recreateTree env b.db user document.document).1 := addsWithin_recreateTree hslug hparse
    change WithinCeilings env.settings b (runImport env b ctx user document).1
      (runImportLogged env b ctx user document).2
    refine ⟨?_, ?_, hsum, hspends.contents⟩
    · rcases hrows with hrows | hrows
      · rw [hrows]
        exact (WithinCeilings.refl env.settings b).categories
      · obtain ⟨new, hadded, hlength, hnew⟩ := hadds
        rw [hrows]
        refine ⟨new, hadded, hlength, fun c hc => ?_⟩
        obtain ⟨cs, hline, hcap⟩ := hnew c hc
        refine ⟨cs.length + 1, ?_, ?_⟩
        · rwa [List.length_append] at hcap
        · exact (hline.mono fun c hc => (mem_writeScope.mp hc).1).depth
    · have hnodup : ((((runImport env b ctx user document).1.db.objects.rows.filter fun o =>
          b.db.objects.find o.id = none)).map MediaObject.id).Nodup :=
        (runImport env b ctx user document).1.db.objects.nodup.sublist
          (List.filter_sublist.map _)
      have hsub : ((((runImport env b ctx user document).1.db.objects.rows.filter fun o =>
          b.db.objects.find o.id = none)).map MediaObject.id) ⊆
          document.document.objects.map ImportObjectEntry.id := by
        intro id hid
        obtain ⟨o, ho, rfl⟩ := List.mem_map.mp hid
        obtain ⟨ho, hnone⟩ := List.mem_filter.mp ho
        by_contra hnot
        have hafter := hspends.objects o.id hnot (of_decide_eq_true hnone)
        rw [Table.find_of_mem ho] at hafter
        cases hafter
      have hle := (hnodup.subperm hsub).length_le
      rw [List.length_map, List.length_map] at hle
      exact hle.trans (length_objects_of_parse hparse)

/-- The archive of an upload puts its four bytes. -/
theorem importController_withinCeilings_keptFiling :
    let lib := DocumentLibrary.packed keptFiling.storage (exportedPayload Env.slugging keptFiling)
    let b : Backend := ⟨.noRows 0, Table.empty⟩
    (uploadPuts Env.slugging lib b rowContexts (.ordinary 5) .archive [[0]]).map Prod.snd = [4] ∧
      WithinCeilings Env.slugging.settings b
        (importController Env.slugging lib b rowContexts (.ordinary 5) .archive [[0]]).1
        (uploadPuts Env.slugging lib b rowContexts (.ordinary 5) .archive [[0]]) :=
  ⟨by decide +kernel, (importController_withinCeilings slugifyLaws_slugging _ _ _ _ _ _).2⟩

end MediaService
