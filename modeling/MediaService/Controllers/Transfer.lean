import MediaService.Controllers.CategoryTree
import MediaService.Controllers.Objects
import MediaService.Storage.Keys

/-! Exports: the manifest, the archive job with the immutable payload
commissioned for it, and the worker's callbacks. A manifest describes all the
filtered objects of a caller; a payload carries one, and lists the objects whose
bytes may be handed out, where they are. The archive's target is fixed by the
job. -/

namespace MediaService

open Foundation

/-! ### Manifests -/

structure ManifestObjectEntry where
  id : UUID
  filename : Option String
  category : MediaCategory
  categoryPaths : List String
  visibility : MediaVisibility
  sizeBytes : ℕ
  sha256 : Option String
  mimeType : String
  status : MediaObjectStatus
  scanStatus : ScanStatus
  createdAt : Timestamp
  updatedAt : Timestamp
  deriving DecidableEq

def manifestEntry (o : MediaObject) (categoryPaths : List String) : ManifestObjectEntry where
  id := o.id
  filename := o.originalFilename
  category := o.category
  categoryPaths := categoryPaths
  visibility := o.visibility
  sizeBytes := o.sizeBytes
  sha256 := o.sha256
  mimeType := o.mimeType
  status := o.status
  scanStatus := o.scanStatus
  createdAt := o.createdAt
  updatedAt := o.updatedAt

structure ExportManifest where
  categoryTree : List CategoryNode
  objects : List ManifestObjectEntry
  deriving DecidableEq

/-- Objects in id order. -/
def orderById (os : List MediaObject) : List MediaObject :=
  os.insertionSort fun o o' => o.id.val ≤ o'.id.val

/-- `_manifest_objects`: the whole filtered collection, in id order. -/
def manifestObjects (db : Database) (user : UserModel) (params : ObjectListParams) :
    Except Failure (List MediaObject) :=
  match queryObjects db (some user) params with
  | .error e => .error e
  | .ok selected => .ok (orderById selected)

/-- `build_manifest_stream`, as the document it spells: always the whole tree,
with the filtered objects. -/
def buildManifest (env : Env) (db : Database) (user : UserModel) (params : ObjectListParams) :
    Except Failure ExportManifest :=
  match manifestObjects db user params with
  | .error e => .error e
  | .ok objects =>
    let refs := categoryRefsByObject db (some user) (objects.map MediaObject.id)
    .ok ⟨getCategoryTree env db user,
      objects.map fun o => manifestEntry o ((refs o.id).map MediaObjectCategoryRef.path)⟩

/-! ### Archive entries -/

/-- `with_bytes_only`: rows whose bytes the download surface would hand out. -/
def carriesBytes (o : MediaObject) : Bool :=
  o.scanStatus = .clean ∧ o.status = .ready ∧ o.deletedAt = none

/-- `archive_entry_name`: an empty or missing name is `file`. -/
def archiveEntryName (o : MediaObject) : String :=
  let name := o.originalFilename.getD "file"
  "files/" ++ o.id.str ++ "/" ++ safeFilename (if name = "" then "file" else name)

structure ExportArchiveEntry where
  objectId : UUID
  source : Location
  archivePath : String
  sizeBytes : ℕ
  deriving DecidableEq

def archiveEntry (o : MediaObject) : ExportArchiveEntry :=
  ⟨o.id, o.location, archiveEntryName o, o.sizeBytes⟩

/-- The commissioned target of an export job. -/
def exportTarget (settings : Settings) (ownerUserId jobId : UUID) (tenantId : Option UUID) :
    Location :=
  ⟨bucketForStorageClass settings .temp, buildExportArchiveKey ownerUserId jobId tenantId⟩

def ExportJob.target (settings : Settings) (j : ExportJob) : Location :=
  exportTarget settings j.ownerUserId j.id j.tenantId

/-- The manifest and the storage references an archive is assembled from, and its
target. -/
structure ExportArchiveJobPayload where
  jobId : UUID
  manifest : ExportManifest
  objects : List ExportArchiveEntry
  target : Location
  deriving DecidableEq

/-! ### Starting an export -/

def isActiveExport (j : ExportJob) : Bool := j.status = .queued ∨ j.status = .processing

def assertWithinExportCeilings (settings : Settings) (matched totalBytes : ℕ) :
    Except Failure Unit :=
  if matched > settings.mediaExportMaxObjects then
    refuse 422 ("Archive export matches " ++ toString matched ++ " objects, above the " ++
      toString settings.mediaExportMaxObjects ++ " ceiling; narrow the filters.")
  else if totalBytes > settings.mediaExportMaxTotalBytes then
    refuse 422 ("Archive export would carry " ++ toString totalBytes ++ " bytes, above the " ++
      toString settings.mediaExportMaxTotalBytes ++ " ceiling; narrow the filters.")
  else .ok ()

/-- The job row of an export as it is queued. -/
def queuedExport (user : UserModel) (now : Timestamp) (jobId : UUID) (params : ObjectListParams)
    (matched totalBytes : ℕ) : ExportJob where
  id := jobId
  ownerUserId := user.id
  tenantId := user.tenantId
  isSuperuser := user.isSuperuser
  status := .queued
  filters := params
  objectCount := matched
  totalSizeBytes := totalBytes
  storageBucket := none
  objectKey := none
  sizeBytes := none
  expiresAt := none
  error := none
  createdAt := now
  updatedAt := now

/-- `_export_totals`: the objects matched, and the bytes the archive would carry. -/
def exportTotals (selected : List MediaObject) : ℕ × ℕ :=
  (selected.length, ((selected.filter carriesBytes).map MediaObject.sizeBytes).sum)

/-- `_archive_payload`. -/
def archivePayload (env : Env) (db : Database) (user : UserModel) (params : ObjectListParams)
    (job : ExportJob) : Except Failure ExportArchiveJobPayload :=
  match queryObjects db (some user) params with
  | .error e => .error e
  | .ok selected =>
    match buildManifest env db user params with
    | .error e => .error e
    | .ok manifest =>
      .ok ⟨job.id, manifest, (orderById (selected.filter carriesBytes)).map archiveEntry,
        job.target env.settings⟩

/-- `start_archive_export`: one unfinished export for each caller, within the
ceilings. -/
def startArchiveExport (env : Env) (db : Database) (now : Timestamp) (jobId : UUID)
    (user : UserModel) (filters : Option ObjectListParams) :
    Except Failure (Database × ExportArchiveJobPayload) :=
  let params := filters.getD .default
  if db.exportJobs.rows.any fun j => j.ownerUserId = user.id ∧ isActiveExport j then
    refuse 409 ("An archive export is already in progress; collect or wait " ++
      "for it before starting another.")
  else
    match queryObjects db (some user) params with
    | .error e => .error e
    | .ok selected =>
      let (matched, totalBytes) := exportTotals selected
      match assertWithinExportCeilings env.settings matched totalBytes with
      | .error e => .error e
      | .ok () =>
        let job := queuedExport user now jobId params matched totalBytes
        match archivePayload env db user params job with
        | .error e => .error e
        | .ok payload =>
          match db.exportJobs.insert job with
          | none => .error .integrityError
          | some t => .ok ({ db with exportJobs := t }, payload)

/-- `fail_unqueued_export`: free the caller's slot when the enqueue failed. -/
def failUnqueuedExport (db : Database) (now : Timestamp) (jobId : UUID) : Database :=
  match db.exportJobs.find jobId with
  | none => db
  | some j =>
    if j.status ≠ .queued then db
    else { db with exportJobs := db.exportJobs.update { j with
      status := .failed
      error := some "Export could not be queued."
      updatedAt := now } }

/-! ### Worker callbacks -/

inductive ExportCallbackStatus where
  | processing | completed | failed
  deriving DecidableEq

/-- A completed callback carries the full result, a failed one an error. -/
structure ExportJobUpdate where
  status : ExportCallbackStatus
  storageBucket : Option String
  objectKey : Option String
  sizeBytes : Option ℕ
  downloadUrl : Option String
  error : Option String
  completed_full : status = .completed →
    storageBucket.isSome ∧ objectKey.isSome ∧ sizeBytes.isSome ∧ downloadUrl.isSome
  failed_error : status = .failed → error.isSome

/-- The job after a callback, before `updated_at`. -/
def applyExportCallback (settings : Settings) (now : Timestamp) (j : ExportJob)
    (body : ExportJobUpdate) : Except Failure ExportJob :=
  match body.status with
  | .processing =>
    if j.status = .queued then .ok { j with status := .processing }
    else if j.status ≠ .processing then refuse 409 "Export job is already terminal."
    else .ok j
  | .failed =>
    if isActiveExport j then .ok { j with status := .failed, error := body.error }
    else if j.status ≠ .failed then refuse 409 "Export job is already terminal."
    else .ok j
  | .completed =>
    let expected := j.target settings
    if body.storageBucket ≠ some expected.bucket ∨ body.objectKey ≠ some expected.objectKey then
      refuse 422 "Export result location does not match the commissioned job."
    else if isActiveExport j then
      .ok { j with
        status := .completed
        storageBucket := body.storageBucket
        objectKey := body.objectKey
        sizeBytes := body.sizeBytes
        expiresAt := some (now + seconds settings.mediaExportArchiveTtlSeconds) }
    else if j.status ≠ .completed then refuse 409 "Export job is already terminal."
    else .ok j

def updateExportJob (settings : Settings) (db : Database) (now : Timestamp) (jobId : UUID)
    (body : ExportJobUpdate) : Except Failure Database :=
  match db.exportJobs.find jobId with
  | none => refuse 404 "Export job not found."
  | some j =>
    match applyExportCallback settings now j body with
    | .error e => .error e
    | .ok j => .ok { db with exportJobs := db.exportJobs.update { j with updatedAt := now } }

/-! ### Reading a job -/

/-- What a caller sees of a job: its progress, never its location. -/
structure ExportJobPublic where
  id : UUID
  status : ExportJobStatus
  objectCount : ℕ
  totalSizeBytes : ℕ
  sizeBytes : Option ℕ
  expiresAt : Option Timestamp
  error : Option String
  createdAt : Timestamp
  updatedAt : Timestamp
  downloadUrl : Option DownloadUrl
  deriving DecidableEq

def ExportJob.toPublic (j : ExportJob) : ExportJobPublic where
  id := j.id
  status := j.status
  objectCount := j.objectCount
  totalSizeBytes := j.totalSizeBytes
  sizeBytes := j.sizeBytes
  expiresAt := j.expiresAt
  error := j.error
  createdAt := j.createdAt
  updatedAt := j.updatedAt
  downloadUrl := none

/-- `_load_export_job`: the owner's, or anyone's for a superuser. -/
def loadExportJob (db : Database) (user : UserModel) (jobId : UUID) : Except Failure ExportJob :=
  match db.exportJobs.find jobId with
  | none => refuse 404 "Export job not found."
  | some j =>
    if !user.isSuperuser ∧ j.ownerUserId ≠ user.id then refuse 403 "Not enough permissions."
    else .ok j

/-- `_archive_is_expired`. -/
def archiveIsExpired (j : ExportJob) (now : Timestamp) : Bool := j.expiresAt.any (· ≤ now)

/-- `get_export_job`: the URL is minted for each read, while the window is open. -/
def getExportJob (settings : Settings) (db : Database) (now : Timestamp) (user : UserModel)
    (jobId : UUID) : Except Failure ExportJobPublic :=
  match loadExportJob db user jobId with
  | .error e => .error e
  | .ok j =>
    match j.status, j.storageBucket with
    | .completed, some bucket =>
      if archiveIsExpired j now then
        refuse 410 "The exported archive has expired; start a new export."
      else .ok { j.toPublic with
        downloadUrl := some ⟨⟨bucket, j.objectKey.getD "None"⟩,
          now + seconds settings.s3PresignedUrlExpireSeconds,
          some ("export-" ++ j.id.str ++ ".zip")⟩ }
    | _, _ => .ok j.toPublic

end MediaService
