import MediaService.Controllers.Maintenance
import MediaService.Controllers.Presets
import MediaService.Controllers.Shares
import MediaService.Controllers.Transfer
import MediaService.Controllers.TransferImport
import MediaService.Controllers.Variants
import MediaService.Foundation.Run

/-! The service as one state machine. A world is the backend together with what
has been handed out: the signed upload forms, the jobs given to workers. Every
request of a client, an administrator or a worker is a step from one world to
the next, and a request that is refused or not entitled leaves the world to what
its controller wrote. Two histories are kept beside it for the statements about
bytes, and no step reads them. -/

namespace MediaService

open Foundation

/-! ### Worlds -/

structure World where
  backend : Backend
  /-- Signed upload forms, usable by whoever holds one. -/
  forms : List UploadForm
  /-- Variant jobs handed to the worker. -/
  variantJobs : List VariantJobPayload
  /-- Archive jobs handed to the worker. -/
  exportJobs : List ExportArchiveJobPayload
  /-- The bytes an object was promoted with. -/
  verified : UUID → Option Bytes
  /-- The bytes an object had when it was last found clean. -/
  cleared : UUID → Option Bytes

def World.initial : World where
  backend := Backend.empty
  forms := []
  variantJobs := []
  exportJobs := []
  verified _ := none
  cleared _ := none

namespace Backend

variable (b : Backend)

/-- The bytes stored where an object's row points. -/
def bytesOf (id : UUID) : Option Bytes :=
  (b.db.objects.find id).bind fun o => b.storage.content o.location

/-- An object's completion went through: its session is completed, which a
rejected or aborted one never becomes again. -/
def isPromoted (id : UUID) : Bool :=
  ((b.db.sessions.find id).map UploadSession.status) = some .completed

end Backend

/-- The histories after a step to `b'`: newly promoted objects are entered with
the bytes they have. -/
def World.advance (w : World) (b' : Backend) : World :=
  { w with
    backend := b'
    verified := fun id =>
      if b'.isPromoted id ∧ !w.backend.isPromoted id then b'.bytesOf id else w.verified id }

/-! ### Requests -/

inductive Request where
  | initiate (faults : Faults) (now : Timestamp) (mediaId : UUID) (user : UserModel)
      (body : UploadInitiateRequest)
  | post (now : Timestamp) (form : UploadForm) (content : Bytes)
  | complete (faults : Faults) (now : Timestamp) (user : UserModel) (sessionId : UUID)
      (body : UploadCompleteRequest)
  | abort (faults : Faults) (user : UserModel) (sessionId : UUID)
  | update (faults : Faults) (commitFails : Bool) (now : Timestamp) (user : UserModel)
      (objectId : UUID) (body : MediaObjectUpdate)
  | delete (faults : Faults) (commitFails : Bool) (now : Timestamp) (user : UserModel)
      (objectId : UUID)
  | scanResult (now : Timestamp) (objectId : UUID) (scanStatus : ScanStatus)
  | getQuota (now : Timestamp) (scope : Scope)
  | setQuota (now : Timestamp) (scope : Scope) (body : QuotaUpdateRequest)
  | purgeStale (faults : Faults) (now : Timestamp)
  | hardPurge (faults : Faults) (now olderThan : ℤ) (limit : ℕ)
  | reconcile (faults : Faults) (now : Timestamp) (buckets : List String) (grace : ℤ)
      (limit : ℕ) (repair : Bool)
  | category (request : CategoryRequest)
  | createShare (now : Timestamp) (tokenId : UUID) (user : UserModel) (objectId : UUID)
      (body : ShareTokenCreate)
  | revokeShare (user : UserModel) (tokenId : UUID)
  | resolveShare (now : Timestamp) (tokenId : UUID)
  | createPreset (presetId : UUID) (user : UserModel) (body : ImagePresetCreate)
  | updatePreset (user : UserModel) (presetId : UUID) (spec : PresetSpec)
  | deletePreset (user : UserModel) (presetId : UUID)
  | generate (now : Timestamp) (jobId : UUID) (user : UserModel) (objectId : UUID)
      (body : VariantGenerateRequest)
  | writeVariant (spec : VariantSpec) (content : Bytes) (contentType : String)
  | registerVariant (now : Timestamp) (freshId objectId : UUID) (body : VariantRegisterRequest)
  | updateVariantJob (now : Timestamp) (jobId : UUID) (body : VariantJobUpdate)
  | deleteVariant (faults : Faults) (user : UserModel) (objectId variantId : UUID)
  | startExport (now : Timestamp) (jobId : UUID) (user : UserModel)
      (filters : Option ObjectListParams)
  | failUnqueuedExport (now : Timestamp) (jobId : UUID)
  | writeArchive (payload : ExportArchiveJobPayload) (content : Bytes) (contentType : String)
  | updateExportJob (now : Timestamp) (jobId : UUID) (body : ExportJobUpdate)
  | importCollection (ctx : ℕ → RowContext) (user : UserModel) (source : ImportSource)

/-- Storage accepts a post through a signed form until it expires, within its cap. -/
def World.acceptsPost (w : World) (now : Timestamp) (form : UploadForm) (content : Bytes) : Bool :=
  form ∈ w.forms ∧ now ≤ form.expiresAt ∧ content.length ≤ form.maxSizeBytes

/-- The worker registers a spec under its own name, at its own target. -/
def World.maySend (w : World) (objectId : UUID) (body : VariantRegisterRequest) : Bool :=
  w.variantJobs.any fun job => job.mediaObjectId = objectId ∧ job.specs.any fun spec =>
    spec.variantName = body.variantName ∧ spec.target = body.location

/-- Put bytes at a location, whatever was there. -/
def Backend.store (b : Backend) (l : Location) (content : Bytes) (contentType : String) : Backend :=
  { b with storage := b.storage.put ⟨l, content, contentType⟩ }

/-- The database a request leaves that reads and writes nothing else. -/
def Backend.withDb (b : Backend) (db : Except Failure Database) : Backend :=
  match db with
  | .ok db => { b with db := db }
  | .error _ => b

section Step

variable (env : Env) (w : World)

/-- The backend after a request. -/
def answer : Request → Backend
  | .initiate faults now mediaId user body =>
    w.backend.withDb
      ((initiateUpload env w.backend.db faults now mediaId user body).map Prod.fst)
  | .post now form content =>
    if w.acceptsPost now form content then
      w.backend.store form.location content form.contentType
    else w.backend
  | .complete faults now user sessionId body =>
    (completeUpload env w.backend faults now user sessionId body).1
  | .abort faults user sessionId => (abortUpload w.backend faults user sessionId).1
  | .update faults commitFails now user objectId body =>
    (updateObject env w.backend faults commitFails now user objectId body).1
  | .delete faults commitFails now user objectId =>
    (deleteObject env w.backend faults commitFails now user objectId).1
  | .scanResult now objectId scanStatus =>
    w.backend.withDb ((applyScanResult w.backend.db now objectId scanStatus).map Prod.fst)
  | .getQuota now scope => { w.backend with db := (getQuota w.backend.db scope now).1 }
  | .setQuota now scope body => { w.backend with db := (setQuota w.backend.db scope now body).1 }
  | .purgeStale faults now => (purgeStaleUploads w.backend faults now).1
  | .hardPurge faults now olderThan limit =>
    (hardPurgeExpired w.backend faults now olderThan limit).1
  | .reconcile faults now buckets grace limit repair =>
    (reconcileOrphans env w.backend faults now buckets grace limit repair).1
  | .category request => { w.backend with db := request.step env.settings w.backend.db }
  | .createShare now tokenId user objectId body =>
    w.backend.withDb
      ((createShare env.settings w.backend.db now tokenId user objectId body).map Prod.fst)
  | .revokeShare user tokenId => w.backend.withDb (revokeShare w.backend.db user tokenId)
  | .resolveShare now tokenId =>
    w.backend.withDb ((resolveShare env.settings w.backend.db now tokenId).map Prod.fst)
  | .createPreset presetId user body =>
    w.backend.withDb (createPreset w.backend.db presetId user body)
  | .updatePreset user presetId spec =>
    w.backend.withDb (updatePreset w.backend.db user presetId spec)
  | .deletePreset user presetId => w.backend.withDb (deletePreset w.backend.db user presetId)
  | .generate now jobId user objectId body =>
    w.backend.withDb
      ((generateVariants env w.backend.db now jobId user objectId body).map Prod.fst)
  | .writeVariant spec content contentType =>
    if w.variantJobs.any fun job => spec ∈ job.specs then
      w.backend.store spec.target content contentType
    else w.backend
  | .registerVariant now freshId objectId body =>
    if w.maySend objectId body then
      w.backend.withDb ((registerVariant w.backend.db now freshId objectId body).map Prod.fst)
    else w.backend
  | .updateVariantJob now jobId body =>
    w.backend.withDb (updateVariantJob w.backend.db now jobId body)
  | .deleteVariant faults user objectId variantId =>
    (deleteVariant w.backend faults user objectId variantId).1
  | .startExport now jobId user filters =>
    w.backend.withDb
      ((startArchiveExport env w.backend.db now jobId user filters).map Prod.fst)
  | .failUnqueuedExport now jobId =>
    { w.backend with db := failUnqueuedExport w.backend.db now jobId }
  | .writeArchive payload content contentType =>
    if payload ∈ w.exportJobs then w.backend.store payload.target content contentType
    else w.backend
  | .updateExportJob now jobId body =>
    w.backend.withDb (updateExportJob env.settings w.backend.db now jobId body)
  | .importCollection ctx user source => (runImport env w.backend ctx user source).1

/-- What a request hands out: forms to clients, jobs to workers. -/
def handOut (w' : World) : Request → World
  | .initiate faults now mediaId user body =>
    match initiateUpload env w.backend.db faults now mediaId user body with
    | .ok (_, form) => { w' with forms := w.forms ++ [form] }
    | .error _ => w'
  | .generate now jobId user objectId body =>
    match generateVariants env w.backend.db now jobId user objectId body with
    | .ok (_, job) => { w' with variantJobs := w.variantJobs ++ [job] }
    | .error _ => w'
  | .startExport now jobId user filters =>
    match startArchiveExport env w.backend.db now jobId user filters with
    | .ok (_, job) => { w' with exportJobs := w.exportJobs ++ [job] }
    | .error _ => w'
  | .scanResult _ objectId .clean =>
    { w' with cleared := fun id =>
      if id = objectId then w.backend.bytesOf id else w.cleared id }
  | _ => w'

/-- One request served. -/
def serve (r : Request) : World := handOut env w (w.advance (answer env w r)) r

end Step

end MediaService
