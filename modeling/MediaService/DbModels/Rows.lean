import MediaService.Core.Identifiers

/-! The rows of the database: media objects, upload sessions, usage totals,
variants, jobs, share links, categories, presets and outbox events. A row
keeps the columns the modelled code reads or writes; a value outside an
enumeration, or a null in a column that forbids it, cannot be built. -/

namespace MediaService

/-! ### Enumerations -/

inductive MediaCategory where
  | avatar | document | asset | chatAttachment | «export» | receipt
  deriving DecidableEq

def MediaCategory.str : MediaCategory → String
  | .avatar => "avatar"
  | .document => "document"
  | .asset => "asset"
  | .chatAttachment => "chat_attachment"
  | .export => "export"
  | .receipt => "receipt"

inductive MediaVisibility where
  | «public» | «private» | tenant | sensitive
  deriving DecidableEq

def MediaVisibility.str : MediaVisibility → String
  | .public => "public"
  | .private => "private"
  | .tenant => "tenant"
  | .sensitive => "sensitive"

inductive MediaObjectStatus where
  | pendingUpload | uploaded | processing | ready | failed | deleted | rejected
  deriving DecidableEq

def MediaObjectStatus.str : MediaObjectStatus → String
  | .pendingUpload => "pending_upload"
  | .uploaded => "uploaded"
  | .processing => "processing"
  | .ready => "ready"
  | .failed => "failed"
  | .deleted => "deleted"
  | .rejected => "rejected"

inductive ScanStatus where
  | pending | clean | infected | quarantined | skipped
  deriving DecidableEq

def ScanStatus.str : ScanStatus → String
  | .pending => "pending"
  | .clean => "clean"
  | .infected => "infected"
  | .quarantined => "quarantined"
  | .skipped => "skipped"

inductive UploadSessionStatus where
  | initiated | completed | aborted | expired
  deriving DecidableEq

def UploadSessionStatus.str : UploadSessionStatus → String
  | .initiated => "initiated"
  | .completed => "completed"
  | .aborted => "aborted"
  | .expired => "expired"

inductive VariantJobStatus where
  | queued | processing | completed | failed
  deriving DecidableEq

inductive ExportJobStatus where
  | queued | processing | completed | failed
  deriving DecidableEq

inductive OutboxStatus where
  | pending | delivered | failed
  deriving DecidableEq

/-! ### Rows -/

/-- An `(owner_user_id, tenant_id)` accounting scope. -/
structure Scope where
  ownerUserId : UUID
  tenantId : Option UUID
  deriving DecidableEq

/-- A `(storage_bucket, object_key)` pair. -/
structure Location where
  bucket : String
  objectKey : String
  deriving DecidableEq

structure MediaObject where
  id : UUID
  tenantId : Option UUID
  ownerUserId : UUID
  category : MediaCategory
  visibility : MediaVisibility
  storageBucket : String
  objectKey : String
  originalFilename : Option String
  mimeType : String
  sizeBytes : ℕ
  sha256 : Option String
  status : MediaObjectStatus
  scanStatus : ScanStatus
  createdAt : Timestamp
  updatedAt : Timestamp
  deletedAt : Option Timestamp
  deriving DecidableEq

namespace MediaObject

def location (o : MediaObject) : Location := ⟨o.storageBucket, o.objectKey⟩

def scope (o : MediaObject) : Scope := ⟨o.ownerUserId, o.tenantId⟩

/-- The bounds of `MediaObjectBase` on where the bytes are. An object store has no bucket
and no key outside them. -/
def validAddress (o : MediaObject) : Bool :=
  (3 ≤ o.storageBucket.length ∧ o.storageBucket.length ≤ 63) ∧
    1 ≤ o.objectKey.length ∧ o.objectKey.length ≤ 1024

/-- Its bounds on what the uploader gave. -/
def validFields (o : MediaObject) : Bool :=
  o.originalFilename.all (fun name => name.length ≤ 255) ∧
    (1 ≤ o.mimeType.length ∧ o.mimeType.length ≤ 255) ∧ o.sha256.all fun sha => sha.length = 64

/-- The row fits `MediaObjectPublic`. -/
def Presentable (o : MediaObject) : Prop := o.validAddress ∧ o.validFields

instance (o : MediaObject) : Decidable o.Presentable := by
  unfold Presentable
  infer_instance

end MediaObject

structure UploadSession where
  id : UUID
  tenantId : Option UUID
  ownerUserId : UUID
  category : MediaCategory
  visibility : MediaVisibility
  storageBucket : String
  objectKey : String
  originalFilename : Option String
  expectedMimeType : String
  expectedSizeBytes : ℕ
  status : UploadSessionStatus
  createdAt : Timestamp
  expiresAt : Timestamp
  completedAt : Option Timestamp
  categoryIds : Option (List ℤ)
  deriving DecidableEq

namespace UploadSession

def location (s : UploadSession) : Location := ⟨s.storageBucket, s.objectKey⟩

def scope (s : UploadSession) : Scope := ⟨s.ownerUserId, s.tenantId⟩

end UploadSession

structure StorageUsage where
  ownerUserId : UUID
  tenantId : Option UUID
  totalBytes : ℤ
  objectCount : ℤ
  quotaBytes : Option ℤ
  quotaObjects : Option ℤ
  updatedAt : Timestamp
  deriving DecidableEq

def StorageUsage.scope (u : StorageUsage) : Scope := ⟨u.ownerUserId, u.tenantId⟩

structure MediaVariant where
  id : UUID
  mediaObjectId : UUID
  variantName : String
  storageBucket : String
  objectKey : String
  width : Option ℕ
  height : Option ℕ
  sizeBytes : ℕ
  format : String
  createdAt : Timestamp
  deriving DecidableEq

def MediaVariant.location (v : MediaVariant) : Location := ⟨v.storageBucket, v.objectKey⟩

structure VariantJob where
  id : UUID
  mediaObjectId : UUID
  ownerUserId : UUID
  tenantId : Option UUID
  status : VariantJobStatus
  requestedPresets : List String
  variantsExpected : ℕ
  variantsCreated : ℕ
  error : Option String
  updatedAt : Timestamp
  deriving DecidableEq

inductive SortField where
  | originalFilename | category | status | sizeBytes | createdAt
  deriving DecidableEq

inductive SortOrder where
  | asc | desc
  deriving DecidableEq

/-- Filters and paging of the objects list; the unfiled filter excludes a branch
filter, and a page has between 1 and 100 rows. -/
structure ObjectListParams where
  category : Option MediaCategory
  visibility : Option MediaVisibility
  status : Option MediaObjectStatus
  mimePrefix : Option String
  createdFrom : Option Timestamp
  createdTo : Option Timestamp
  q : Option String
  sortBy : SortField
  order : SortOrder
  limit : ℕ
  cursor : Option String
  ownerUserId : Option UUID
  includeDeleted : Bool
  categoryId : Option ℤ
  includeDescendants : Bool
  uncategorized : Bool
  one_le_limit : 1 ≤ limit
  limit_le : limit ≤ 100
  one_le_categoryId : ∀ c, categoryId = some c → 1 ≤ c
  unfiled_xor_branch : uncategorized = true → categoryId = none
  deriving DecidableEq

/-- The parameters of a request that sends none. -/
def ObjectListParams.default : ObjectListParams where
  category := none
  visibility := none
  status := none
  mimePrefix := none
  createdFrom := none
  createdTo := none
  q := none
  sortBy := .originalFilename
  order := .asc
  limit := 50
  cursor := none
  ownerUserId := none
  includeDeleted := false
  categoryId := none
  includeDescendants := true
  uncategorized := false
  one_le_limit := by decide
  limit_le := by decide
  one_le_categoryId := by simp
  unfiled_xor_branch := by simp

structure ExportJob where
  id : UUID
  ownerUserId : UUID
  tenantId : Option UUID
  isSuperuser : Bool
  status : ExportJobStatus
  filters : ObjectListParams
  objectCount : ℕ
  totalSizeBytes : ℕ
  storageBucket : Option String
  objectKey : Option String
  sizeBytes : Option ℕ
  expiresAt : Option Timestamp
  error : Option String
  createdAt : Timestamp
  updatedAt : Timestamp
  deriving DecidableEq

structure ShareToken where
  id : UUID
  mediaObjectId : UUID
  ownerUserId : UUID
  tenantId : Option UUID
  expiresAt : Timestamp
  maxUses : Option ℕ
  uses : ℕ
  revoked : Bool
  createdAt : Timestamp
  deriving DecidableEq

structure Category where
  id : ℤ
  name : String
  slug : String
  parentId : Option ℤ
  ownerId : UUID
  tenantId : Option UUID
  deriving DecidableEq

inductive ImageFormat where
  | webp | jpeg | png | gif | avif
  deriving DecidableEq

def ImageFormat.str : ImageFormat → String
  | .webp => "WEBP"
  | .jpeg => "JPEG"
  | .png => "PNG"
  | .gif => "GIF"
  | .avif => "AVIF"

structure FormatSpec where
  ext : ImageFormat
  quality : ℕ
  one_le_quality : 1 ≤ quality
  quality_le : quality ≤ 100
  deriving DecidableEq

/-- Target geometry; a dimension left out is free. -/
structure ImageSizeSpec where
  fixedWidth : Option ℕ
  fixedHeight : Option ℕ
  fixedSize : Option ℕ
  deriving DecidableEq

def maxPresetDimension : ℕ := 8192

def maxPresetPixelArea : ℕ := 33554432

def maxPresetMaxByteSize : ℕ := 26214400

def maxFormatsPerPreset : ℕ := 5

/-- The ceilings every recipe meets, a stored one included. -/
structure PresetSpec where
  imageSize : ImageSizeSpec
  formats : List FormatSpec
  allowUpscale : Bool
  maxByteSize : Option ℕ
  formats_ne_nil : formats ≠ []
  formats_length : formats.length ≤ maxFormatsPerPreset
  formats_nodup : (formats.map FormatSpec.ext).Nodup
  dimension_le : ∀ d, imageSize.fixedWidth = some d ∨ imageSize.fixedHeight = some d ∨
    imageSize.fixedSize = some d → 1 ≤ d ∧ d ≤ maxPresetDimension
  area_le : ∀ w h, imageSize.fixedWidth = some w → imageSize.fixedHeight = some h →
    w * h ≤ maxPresetPixelArea
  byteSize_le : ∀ n, maxByteSize = some n → 1 ≤ n ∧ n ≤ maxPresetMaxByteSize
  deriving DecidableEq

structure ImagePreset where
  id : UUID
  ownerUserId : UUID
  tenantId : Option UUID
  name : String
  spec : PresetSpec
  deriving DecidableEq

/-- Staged pending and due at once, by `record_event`. -/
structure OutboxEvent where
  eventType : String
  objectId : UUID
  payload : List (String × String)
  status : OutboxStatus
  attempts : ℕ
  nextAttemptAt : Timestamp
  deliveredAt : Option Timestamp
  deriving DecidableEq

/-! ### Callers and refusals -/

/-- The authenticated principal: id, superuser flag and tenant claim. -/
structure UserModel where
  id : UUID
  isSuperuser : Bool
  tenantId : Option UUID
  deriving DecidableEq

inductive UploadRejectReason where
  | sizeExceeded | mimeMismatch | sha256Mismatch | quotaBytesExceeded | quotaObjectsExceeded
  deriving DecidableEq

def UploadRejectReason.str : UploadRejectReason → String
  | .sizeExceeded => "size_exceeded"
  | .mimeMismatch => "mime_mismatch"
  | .sha256Mismatch => "sha256_mismatch"
  | .quotaBytesExceeded => "quota_bytes_exceeded"
  | .quotaObjectsExceeded => "quota_objects_exceeded"

/-- A refusal's detail: plain text, or one of the two structured objects, whose
codes are `upload_rejected` and `scan_not_clean`. -/
inductive Detail where
  | text (message : String)
  | uploadRejected (reason : UploadRejectReason) (message : String)
  | scanNotClean (scanStatus : ScanStatus) (message : String)
  deriving DecidableEq

structure HTTPException where
  statusCode : ℕ
  detail : Detail
  deriving DecidableEq

/-- How a request ends when it does not answer: a refusal, a body its schema
does not admit, a constraint of the database violated at a flush, an answer its
own model does not admit, or an exception nothing turns into either. -/
inductive Failure where
  | http (e : HTTPException)
  | invalidRequest
  | integrityError
  | validationError (model : String)
  | valueError (message : String)
  | keyError (key : String)
  | overflowError
  | recursionError
  deriving DecidableEq

/-- Raise an `HTTPException` with a plain text detail. -/
def refuse {α : Type} (statusCode : ℕ) (message : String) : Except Failure α :=
  .error (.http ⟨statusCode, .text message⟩)

@[simp] theorem refuse_ne_ok {α : Type} {n : ℕ} {m : String} {a : α} : refuse n m ≠ .ok a := by
  simp [refuse]

end MediaService
