import MediaService.Controllers.Category
import MediaService.Core.Quotas
import MediaService.Core.Validation
import MediaService.Storage.Keys
import MediaService.Storage.ObjectStorage

/-! The presigned upload flow: initiate, complete, abort. A completion checks
the stored bytes (size, sniffed type, digest), pins their content type, reserves
quota and promotes the session to a media object; content that fails leaves a
rejected row and an aborted session behind, and its bytes are removed. -/

namespace MediaService

open Foundation

/-! ### Requests -/

structure UploadInitiateRequest where
  category : MediaCategory
  visibility : MediaVisibility
  originalFilename : String
  mimeType : String
  expectedSizeBytes : ℕ
  categoryIds : List ℤ

/-- What the schema makes of a body: a portable filename, a size between one
byte and the category cap, and a bounded filing. -/
def UploadInitiateRequest.validated (env : Env) (req : UploadInitiateRequest) :
    Option UploadInitiateRequest :=
  match validateFilename env req.originalFilename with
  | none => none
  | some name =>
    if req.expectedSizeBytes < 1 ∨ maxCategoryAssignments < req.categoryIds.length ∨
        maxSizeForCategory env.settings req.category.str < req.expectedSizeBytes then none
    else some { req with originalFilename := name }

structure UploadCompleteRequest where
  sha256 : Option String
  categoryIds : Option (List ℤ)

/-! ### Sessions -/

def loadOwnedSession (db : Database) (user : UserModel) (sessionId : UUID) :
    Except Failure UploadSession :=
  match db.sessions.find sessionId with
  | none => refuse 404 "Upload session not found."
  | some s =>
    if !user.isSuperuser ∧ s.ownerUserId ≠ user.id then refuse 403 "Not enough permissions."
    else .ok s

/-- `_ensure_completable`; an expired session is marked so on the way out. -/
def ensureCompletable (db : Database) (s : UploadSession) (now : Timestamp) :
    Database × Except Failure Unit :=
  if s.status ≠ .initiated then
    (db, refuse 409 ("Upload session is already " ++ s.status.str ++ "."))
  else if now > s.expiresAt then
    (db.updateSession { s with status := .expired }, refuse 409 "Upload session has expired.")
  else (db, .ok ())

/-! ### Staging -/

structure StagedUpload where
  mediaId : UUID
  ownerId : UUID
  tenantId : Option UUID
  bucket : String
  objectKey : String
  categoryIds : List ℤ

def StagedUpload.location (staged : StagedUpload) : Location := ⟨staged.bucket, staged.objectKey⟩

/-- `stage_upload`: every check an upload must pass before its bytes exist. -/
def stageUpload (env : Env) (db : Database) (user : UserModel) (req : UploadInitiateRequest)
    (mediaId : UUID) : Except Failure StagedUpload := do
  if !isAllowedDeclaredMime req.mimeType then
    refuse 422 ("Unsupported content type: " ++ req.mimeType)
  checkQuota env.settings db.usage ⟨user.id, user.tenantId⟩ req.expectedSizeBytes
  let categories ← resolveCategoryIds db user req.categoryIds
  return {
    mediaId := mediaId
    ownerId := user.id
    tenantId := user.tenantId
    bucket := bucketForVisibility env.settings req.visibility
    objectKey :=
      buildObjectKey env user.id mediaId req.category req.originalFilename user.tenantId
    categoryIds := categories.map Category.id }

def stagedSession (staged : StagedUpload) (req : UploadInitiateRequest)
    (now expiresAt : Timestamp) : UploadSession where
  id := staged.mediaId
  tenantId := staged.tenantId
  ownerUserId := staged.ownerId
  category := req.category
  visibility := req.visibility
  storageBucket := staged.bucket
  objectKey := staged.objectKey
  originalFilename := some req.originalFilename
  expectedMimeType := req.mimeType
  expectedSizeBytes := req.expectedSizeBytes
  status := .initiated
  createdAt := now
  expiresAt := expiresAt
  completedAt := none
  categoryIds := some staged.categoryIds

def recordUploadSession (db : Database) (staged : StagedUpload) (req : UploadInitiateRequest)
    (now expiresAt : Timestamp) : Except Failure Database :=
  db.insertSession (stagedSession staged req now expiresAt)

/-- Sign a form for the lower of the declared size and the category cap, then
record the session; `mediaId` is the id minted for it. -/
def initiateUpload (env : Env) (db : Database) (faults : Faults) (now : Timestamp)
    (mediaId : UUID) (user : UserModel) (body : UploadInitiateRequest) :
    Except Failure (Database × UploadForm) :=
  match body.validated env with
  | none => .error .invalidRequest
  | some req => do
    let staged ← stageUpload env db user req mediaId
    let expires := env.settings.s3PresignedUrlExpireSeconds
    match createUploadUrl faults staged.location req.mimeType
        (min req.expectedSizeBytes (maxSizeForCategory env.settings req.category.str))
        expires now with
    | none => .error (.valueError "presign failed")
    | some form =>
      let db ← recordUploadSession db staged req now (now + seconds expires)
      return (db, form)

/-! ### Completion -/

/-- The media object a session becomes. -/
def sessionObject (s : UploadSession) (mimeType : String) (sizeBytes : ℕ)
    (sha256 : Option String) (status : MediaObjectStatus) (now : Timestamp) : MediaObject where
  id := s.id
  tenantId := s.tenantId
  ownerUserId := s.ownerUserId
  category := s.category
  visibility := s.visibility
  storageBucket := s.storageBucket
  objectKey := s.objectKey
  originalFilename := s.originalFilename
  mimeType := mimeType
  sizeBytes := sizeBytes
  sha256 := sha256
  status := status
  scanStatus := .pending
  createdAt := now
  updatedAt := now
  deletedAt := none

def uploadRejected (reason : UploadRejectReason) : HTTPException :=
  ⟨422, .uploadRejected reason ("Upload rejected: " ++ reason.str ++ ".")⟩

/-- `_reject_upload`: persist a rejected row and the aborted session together
with the pending usage rows, then remove the bytes best-effort. -/
def rejectUpload (b : Backend) (usage : UsageTable) (faults : Faults) (now : Timestamp)
    (s : UploadSession) (reason : UploadRejectReason) (sizeBytes : ℕ) :
    Backend × Except Failure MediaObject :=
  match ({ b.db with usage := usage } : Database).insertObject
      (sessionObject s s.expectedMimeType sizeBytes none .rejected now) with
  | .error e => (b, .error e)
  | .ok db =>
    (⟨db.updateSession { s with status := .aborted }, b.storage.bestEffortRemove faults s.location⟩,
      .error (.http (uploadRejected reason)))

/-- `MediaObjectPublic.model_validate` of a row whose bytes storage has just found. -/
def MediaObject.validated (o : MediaObject) : Except Failure MediaObject :=
  if o.validFields then .ok o else .error (.validationError "MediaObjectPublic")

theorem MediaObject.validated_eq_ok {o q : MediaObject} :
    o.validated = .ok q ↔ o.validFields = true ∧ q = o := by
  unfold validated
  by_cases h : o.validFields = true
  · rw [if_pos h, Except.ok.injEq]
    exact ⟨fun hq => ⟨h, hq.symm⟩, fun hq => hq.2.symm⟩
  · rw [if_neg h]
    exact iff_of_false (by simp) fun hq => h hq.1

/-- Insert the object, file it, complete the session and keep the credit, in
one transaction; the answer is validated after it. -/
def promoteUpload (b : Backend) (usage : UsageTable) (now : Timestamp) (s : UploadSession)
    (sizeBytes : ℕ) (sha256 : Option String) (categories : List Category) :
    Backend × Except Failure MediaObject :=
  let object := sessionObject s s.expectedMimeType sizeBytes sha256 .uploaded now
  match ({ b.db with usage := usage } : Database).insertObject object with
  | .error e => (b, .error e)
  | .ok db =>
    let db := db.setFiling object.id (categories.map Category.id)
    let db := db.updateSession { s with status := .completed, completedAt := some now }
    ({ b with db := db }, object.validated)

/-- A body's filing is resolved strictly, the declared one leniently. -/
def completionCategories (db : Database) (user : UserModel) (s : UploadSession)
    (req : UploadCompleteRequest) : Except Failure (List Category) :=
  match req.categoryIds with
  | some ids => resolveCategoryIds db user ids
  | none => .ok (categoriesInScope db user (s.categoryIds.getD []))

/-- The digest check: `none` if the object cannot be read, and nothing to check
without an expected digest. -/
def digestOk (env : Env) (st : Storage) (faults : Faults) (l : Location)
    (sha256 : Option String) : Option Bool :=
  match sha256 with
  | none => some true
  | some expected =>
    if expected = "" then some true
    else (st.streamObject faults l).map fun content => verifySha256 env content expected

/-- The content checks and what follows them, on a session that may complete. -/
def completeSession (env : Env) (b : Backend) (faults : Faults) (now : Timestamp)
    (s : UploadSession) (sha256 : Option String) (categories : List Category) :
    Backend × Except Failure MediaObject :=
  match b.storage.statObject faults s.location with
  | none =>
    (b, refuse 422 "Object not found in storage. Upload the file before completing.")
  | some size =>
    if size > min s.expectedSizeBytes (maxSizeForCategory env.settings s.category.str) then
      rejectUpload b b.db.usage faults now s .sizeExceeded size
    else
      let head := (b.storage.getObjectHead faults env s.location).getD []
      if !mimeConsistent s.expectedMimeType (env.sniffMime head) then
        rejectUpload b b.db.usage faults now s .mimeMismatch size
      else
        match digestOk env b.storage faults s.location sha256 with
        | none => (b, refuse 422 "Failed to read object for SHA-256 verification.")
        | some false => rejectUpload b b.db.usage faults now s .sha256Mismatch size
        | some true =>
          match b.storage.setObjectContentType faults s.location s.expectedMimeType with
          | none => (b, refuse 422 "Failed to finalize object content type.")
          | some storage =>
            match reserveStorageForObject env.settings b.db.usage s.scope size now with
            | (usage, some reason) =>
              rejectUpload { b with storage := storage } usage faults now s reason size
            | (usage, none) =>
              promoteUpload { b with storage := storage } usage now s size sha256 categories

def completeUpload (env : Env) (b : Backend) (faults : Faults) (now : Timestamp)
    (user : UserModel) (sessionId : UUID) (req : UploadCompleteRequest) :
    Backend × Except Failure MediaObject :=
  match loadOwnedSession b.db user sessionId with
  | .error e => (b, .error e)
  | .ok s =>
    match ensureCompletable b.db s now with
    | (db, .error e) => ({ b with db := db }, .error e)
    | (_, .ok ()) =>
      match completionCategories b.db user s req with
      | .error e => (b, .error e)
      | .ok categories => completeSession env b faults now s req.sha256 categories

/-! ### Abort -/

def abortUpload (b : Backend) (faults : Faults) (user : UserModel) (sessionId : UUID) :
    Backend × Except Failure Unit :=
  match loadOwnedSession b.db user sessionId with
  | .error e => (b, .error e)
  | .ok s =>
    if s.status = .completed then (b, refuse 409 "Cannot abort a completed upload.")
    else
      let storage :=
        if s.status = .initiated then b.storage.bestEffortRemove faults s.location else b.storage
      (⟨b.db.updateSession { s with status := .aborted }, storage⟩, .ok ())

end MediaService
