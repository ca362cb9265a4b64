import MediaService.Foundation.Handover
import MediaService.Service

/-! The routes around the controllers. A request commits first and enqueues afterwards, in
a call that may raise: the upload and the variant routes then answer with an error, an
archive import marks the row of its report, and the export fails its job row again. What
the broker took is all a worker ever calls back about. -/

namespace MediaService

open Foundation

/-! ### The job queue -/

structure ScanJobPayload where
  objectId : UUID
  bucket : String
  objectKey : String
  ownerUserId : UUID
  deriving DecidableEq

/-- The scan job of an object, as its route builds it. -/
def scanPayload (o : MediaObject) : ScanJobPayload where
  objectId := o.id
  bucket := o.storageBucket
  objectKey := o.objectKey
  ownerUserId := o.ownerUserId

/-- How an `enqueue_job` call ends. -/
inductive EnqueueOutcome where
  | queued
  /-- It raised, and the broker has nothing. -/
  | lost
  /-- It raised after the broker had taken the job. -/
  | unanswered
  deriving DecidableEq

def EnqueueOutcome.delivers (outcome : EnqueueOutcome) : Bool := outcome ≠ .lost

def EnqueueOutcome.raises (outcome : EnqueueOutcome) : Bool := outcome ≠ .queued

/-- `enqueue_scan`: every call is a job of its own. -/
def enqueueScan (scans : Handover ScanJobPayload) (payload : ScanJobPayload)
    (outcome : EnqueueOutcome) : Handover ScanJobPayload :=
  scans.hand (fun _ _ => false) payload outcome.delivers

/-- `enqueue_variants`: the job id is pinned, and the broker drops a second job of an id. -/
def enqueueVariants (variants : Handover VariantJobPayload) (payload : VariantJobPayload)
    (outcome : EnqueueOutcome) : Handover VariantJobPayload :=
  variants.hand (fun p q => p.jobId = q.jobId) payload outcome.delivers

def enqueueExportArchive (exports : Handover ExportArchiveJobPayload)
    (payload : ExportArchiveJobPayload) (outcome : EnqueueOutcome) :
    Handover ExportArchiveJobPayload :=
  exports.hand (fun p q => p.jobId = q.jobId) payload outcome.delivers

/-! ### The scans of an import -/

/-- `rows[media_object_id].scan_queued = True`, over the created rows by their object: of two
rows of one object the dictionary has the later. -/
def markScanQueued (objectId : UUID) : List ImportObjectResult → Option (List ImportObjectResult)
  | [] => none
  | row :: rows =>
    match markScanQueued objectId rows with
    | some rows => some (row :: rows)
    | none =>
      if row.status = .created ∧ row.mediaObjectId = some objectId then
        some ({ row with scanQueued := true } :: rows)
      else none

/-- `_enqueue_import_scans`: one call for each created object, and a call that raises leaves
its row unmarked. -/
def enqueueImportScans (outcomes : ℕ → EnqueueOutcome) :
    ℕ → Handover ScanJobPayload → List ImportObjectResult → List MediaObject →
      Handover ScanJobPayload × Except Failure (List ImportObjectResult)
  | _, scans, rows, [] => (scans, .ok rows)
  | i, scans, rows, o :: os =>
    let scans := enqueueScan scans (scanPayload o) (outcomes i)
    if (outcomes i).raises then enqueueImportScans outcomes (i + 1) scans rows os
    else
      match markScanQueued o.id rows with
      | none => (scans, .error (.keyError o.id.str))
      | some rows => enqueueImportScans outcomes (i + 1) scans rows os

/-! ### The application -/

/-- The service with its queue. What is due belongs to requests that have committed and
not yet made their call. -/
structure App where
  world : World
  scans : Handover ScanJobPayload
  variants : Handover VariantJobPayload
  exports : Handover ExportArchiveJobPayload
  /-- Export requests whose call raised, before they fail the row. -/
  unqueued : List UUID

def App.initial : App := ⟨World.initial, .empty, .empty, .empty, []⟩

inductive AppEvent where
  | request (r : Request)
  | enqueueScan (payload : ScanJobPayload) (outcome : EnqueueOutcome)
  | enqueueVariants (payload : VariantJobPayload) (outcome : EnqueueOutcome)
  | enqueueExportArchive (payload : ExportArchiveJobPayload) (outcome : EnqueueOutcome)
  | failUnqueued (now : Timestamp) (jobId : UUID)

/-- Whose request it is: a worker's is about a job the broker gave it, and no client asks for
an export to be failed. That the workers keep to their jobs is assumed; the service checks
their token. -/
def App.permits (a : App) : Request → Bool
  | .scanResult _ objectId _ => a.scans.held.any fun p => p.objectId = objectId
  | .writeVariant spec _ _ => a.variants.held.any fun p => spec ∈ p.specs
  | .registerVariant _ _ objectId body => a.variants.held.any fun p =>
    p.mediaObjectId = objectId ∧ p.specs.any fun spec =>
      spec.variantName = body.variantName ∧ spec.target = body.location
  | .updateVariantJob _ jobId _ => a.variants.held.any fun p => p.jobId = jobId
  | .writeArchive payload _ _ => payload ∈ a.exports.held
  | .updateExportJob _ jobId _ => a.exports.held.any fun p => p.jobId = jobId
  | .failUnqueuedExport _ _ => false
  | _ => true

section Step

variable (env : Env) (w : World)

/-- The scans a route enqueues once its controller has answered. -/
def scansOf : Request → List ScanJobPayload
  | .complete faults now user sessionId body =>
    match (completeUpload env w.backend faults now user sessionId body).2 with
    | .ok o => [scanPayload o]
    | .error _ => []
  | .importCollection ctx user source =>
    match (runImport env w.backend ctx user source).2 with
    | .ok outcome => outcome.createdObjects.map scanPayload
    | .error _ => []
  | _ => []

def variantsOf : Request → List VariantJobPayload
  | .generate now jobId user objectId body =>
    match generateVariants env w.backend.db now jobId user objectId body with
    | .ok (_, payload) => [payload]
    | .error _ => []
  | _ => []

def exportsOf : Request → List ExportArchiveJobPayload
  | .startExport now jobId user filters =>
    match startArchiveExport env w.backend.db now jobId user filters with
    | .ok (_, payload) => [payload]
    | .error _ => []
  | _ => []

end Step

/-- One event. A request is served and leaves its jobs due; a call is made for a job that
is due; an export whose call raised fails its row. -/
def appStep (env : Env) (a : App) : AppEvent → App
  | .request r =>
    if a.permits r then
      { a with
        world := serve env a.world r
        scans := a.scans.commit (scansOf env a.world r)
        variants := a.variants.commit (variantsOf env a.world r)
        exports := a.exports.commit (exportsOf env a.world r) }
    else a
  | .enqueueScan payload outcome =>
    { a with scans := MediaService.enqueueScan a.scans payload outcome }
  | .enqueueVariants payload outcome =>
    { a with variants := MediaService.enqueueVariants a.variants payload outcome }
  | .enqueueExportArchive payload outcome =>
    { a with
      exports := MediaService.enqueueExportArchive a.exports payload outcome
      unqueued :=
        if payload ∈ a.exports.due ∧ outcome.raises then a.unqueued ++ [payload.jobId]
        else a.unqueued }
  | .failUnqueued now jobId =>
    if jobId ∈ a.unqueued then
      { a with
        world := serve env a.world (.failUnqueuedExport now jobId)
        unqueued := a.unqueued.erase jobId }
    else a

section Steps

variable {env : Env} {a : App} {r : Request} {now : Timestamp} {jobId : UUID}

theorem appStep_request (h : a.permits r = true) : appStep env a (.request r) = { a with
    world := serve env a.world r
    scans := a.scans.commit (scansOf env a.world r)
    variants := a.variants.commit (variantsOf env a.world r)
    exports := a.exports.commit (exportsOf env a.world r) } :=
  if_pos h

theorem appStep_refused (h : ¬ a.permits r = true) : appStep env a (.request r) = a := if_neg h

theorem appStep_failUnqueued (h : jobId ∈ a.unqueued) :
    appStep env a (.failUnqueued now jobId) = { a with
      world := serve env a.world (.failUnqueuedExport now jobId)
      unqueued := a.unqueued.erase jobId } :=
  if_pos h

theorem appStep_settled (h : jobId ∉ a.unqueued) :
    appStep env a (.failUnqueued now jobId) = a :=
  if_neg h

end Steps

end MediaService
