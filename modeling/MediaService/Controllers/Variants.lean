import MediaService.Controllers.Objects
import MediaService.Core.Presets

/-! Image variants: the producer side of a generation job, and the worker's
callbacks that register what it wrote. A job's targets are fixed when it is
created; registration takes the location the worker reports. -/

namespace MediaService

open Foundation

def processableImageMimes : List String :=
  ["image/jpeg", "image/png", "image/gif", "image/webp", "image/bmp", "image/tiff", "image/heic",
    "image/avif"]

def isProcessableImage (mime : String) : Bool := mime ∈ processableImageMimes

/-- Preset names, de-duplicated in order. -/
structure VariantGenerateRequest where
  presets : List String
  one_le_length : 1 ≤ presets.length
  length_le : presets.length ≤ maxPresetsPerRequest

def VariantGenerateRequest.names (req : VariantGenerateRequest) : List String :=
  req.presets.eraseDups

/-- The job handed to the worker. -/
structure VariantJobPayload where
  jobId : UUID
  mediaObjectId : UUID
  source : Location
  specs : List VariantSpec
  deriving DecidableEq

/-- `VariantsController.generate`; `jobId` is the id minted for the job. -/
def generateVariants (env : Env) (db : Database) (now : Timestamp) (jobId : UUID)
    (user : UserModel) (objectId : UUID) (req : VariantGenerateRequest) :
    Except Failure (Database × VariantJobPayload) :=
  match loadObject db user objectId false with
  | .error e => .error e
  | .ok o =>
    if o.status ≠ .ready ∨ o.scanStatus ≠ .clean then
      refuse 409 "Object must be scanned and READY before generating variants."
    else if !isProcessableImage o.mimeType then refuse 422 "Object is not a processable image."
    else
      match resolvePresets env db user req.names o with
      | .error e => .error e
      | .ok specs =>
        match db.variantJobs.insert {
            id := jobId
            mediaObjectId := o.id
            ownerUserId := o.ownerUserId
            tenantId := o.tenantId
            status := .queued
            requestedPresets := req.names
            variantsExpected := specs.length
            variantsCreated := 0
            error := none
            updatedAt := now } with
        | none => .error .integrityError
        | some t => .ok ({ db with variantJobs := t }, ⟨jobId, o.id, o.location, specs⟩)

/-- `list_variants`: readable with the object itself. -/
def listVariants (db : Database) (user : Option UserModel) (objectId : UUID) :
    Except Failure (List MediaVariant) :=
  match loadObjectForRead db user objectId with
  | .error e => .error e
  | .ok _ => .ok (db.variantsOf objectId)

/-! ### Worker callbacks -/

structure VariantRegisterRequest where
  variantName : String
  storageBucket : String
  objectKey : String
  width : Option ℕ
  height : Option ℕ
  sizeBytes : ℕ
  format : String
  variantName_length : 1 ≤ variantName.length ∧ variantName.length ≤ 64
  storageBucket_length : 3 ≤ storageBucket.length ∧ storageBucket.length ≤ 63
  objectKey_length : 1 ≤ objectKey.length ∧ objectKey.length ≤ 1024
  one_le_width : ∀ w, width = some w → 1 ≤ w
  one_le_height : ∀ h, height = some h → 1 ≤ h
  format_length : 1 ≤ format.length ∧ format.length ≤ 32

def VariantRegisterRequest.location (req : VariantRegisterRequest) : Location :=
  ⟨req.storageBucket, req.objectKey⟩

/-- The row a registration writes under an id; an old row keeps its creation time. -/
def registeredVariant (req : VariantRegisterRequest) (objectId id : UUID)
    (createdAt : Timestamp) : MediaVariant where
  id := id
  mediaObjectId := objectId
  variantName := req.variantName
  storageBucket := req.storageBucket
  objectKey := req.objectKey
  width := req.width
  height := req.height
  sizeBytes := req.sizeBytes
  format := req.format
  createdAt := createdAt

/-- `register_variant`: upsert on the object and the variant name; `freshId` is
the id minted for a new row. Deleted objects are accepted. -/
def registerVariant (db : Database) (now : Timestamp) (freshId objectId : UUID)
    (req : VariantRegisterRequest) : Except Failure (Database × MediaVariant) :=
  match fetchObject db objectId true with
  | .error e => .error e
  | .ok _ =>
    let existing := db.variants.rows.find? fun v =>
      v.mediaObjectId = objectId ∧ v.variantName = req.variantName
    let written :=
      match existing with
      | some v => (db.updateVariant (registeredVariant req objectId v.id v.createdAt)).map fun db =>
          (db, registeredVariant req objectId v.id v.createdAt)
      | none => (db.insertVariant (registeredVariant req objectId freshId now)).map fun db =>
          (db, registeredVariant req objectId freshId now)
    match written with
    | .error e => .error e
    | .ok (db, v) =>
      .ok (db.recordEvent now eventVariantReady objectId
        [("variant_name", v.variantName), ("format", v.format)], v)

structure VariantJobUpdate where
  status : VariantJobStatus
  variantsCreated : Option ℕ
  error : Option String

def updateVariantJob (db : Database) (now : Timestamp) (jobId : UUID) (req : VariantJobUpdate) :
    Except Failure Database :=
  match db.variantJobs.find jobId with
  | none => refuse 404 "Variant job not found."
  | some j =>
    .ok { db with variantJobs := db.variantJobs.update { j with
      status := req.status
      variantsCreated := req.variantsCreated.getD j.variantsCreated
      error := req.error.or j.error
      updatedAt := now } }

/-- `delete_variant`: the row, then its bytes best-effort. -/
def deleteVariant (b : Backend) (faults : Faults) (user : UserModel) (objectId variantId : UUID) :
    Backend × Except Failure Unit :=
  match loadObject b.db user objectId false with
  | .error e => (b, .error e)
  | .ok _ =>
    match b.db.variants.find variantId with
    | none => (b, refuse 404 "Variant not found.")
    | some v =>
      if v.mediaObjectId ≠ objectId then (b, refuse 404 "Variant not found.")
      else
        (⟨{ b.db with variants := b.db.variants.erase variantId },
          b.storage.bestEffortRemove faults v.location⟩, .ok ())

end MediaService
