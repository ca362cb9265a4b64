import MediaService.Controllers.Category
import MediaService.Core.Quotas
import MediaService.Core.Validation
import MediaService.Storage.ObjectStorage

/-! Media objects: who may read or change one, the listing query, downloads, and
the writes (metadata patch with relocation, scan verdict, soft delete with the
move into the archive tier). A relocation copies before the commit and removes
the source after it; a copy that no commit followed is removed best-effort. -/

namespace MediaService

open Foundation

/-! ### Events -/

def eventObjectReady : String := "object.ready"

def eventObjectDeleted : String := "object.deleted"

def eventScanFailed : String := "scan.failed"

def eventVariantReady : String := "variant.ready"

/-! ### Access -/

def fetchObject (db : Database) (objectId : UUID) (includeDeleted : Bool) :
    Except Failure MediaObject :=
  match db.objects.find objectId with
  | none => refuse 404 "Media object not found."
  | some o =>
    if !includeDeleted ∧ o.deletedAt.isSome then refuse 404 "Media object not found."
    else .ok o

/-- Superuser and owner always; the public for `PUBLIC`, the same tenant for
`TENANT`. An anonymous caller cannot tell a denial from a missing row. -/
def requireVisibilityAccess (o : MediaObject) (user : Option UserModel) : Except Failure Unit :=
  match user with
  | none =>
    if o.visibility = .public then .ok () else refuse 404 "Media object not found."
  | some user =>
    if user.isSuperuser ∨ o.ownerUserId = user.id then .ok ()
    else if o.visibility = .public then .ok ()
    else if o.visibility = .tenant ∧ user.tenantId.isSome ∧ o.tenantId = user.tenantId then .ok ()
    else refuse 403 "Not enough permissions."

/-- `_load_object`: owner or superuser, for the mutating paths. -/
def loadObject (db : Database) (user : UserModel) (objectId : UUID) (includeDeleted : Bool) :
    Except Failure MediaObject :=
  match fetchObject db objectId includeDeleted with
  | .error e => .error e
  | .ok o =>
    if !user.isSuperuser ∧ o.ownerUserId ≠ user.id then refuse 403 "Not enough permissions."
    else .ok o

def loadObjectForRead (db : Database) (user : Option UserModel) (objectId : UUID) :
    Except Failure MediaObject := do
  let o ← fetchObject db objectId false
  requireVisibilityAccess o user
  return o

/-! ### The listing query -/

/-- SQL `LIKE` with `%` and `_` and no escape. -/
def sqlLike : List Char → List Char → Bool
  | [], text => text.isEmpty
  | '%' :: pattern, text => text.tails.any (sqlLike pattern)
  | '_' :: pattern, text =>
    match text with
    | [] => false
    | _ :: text => sqlLike pattern text
  | c :: pattern, text =>
    match text with
    | [] => false
    | d :: text => c = d && sqlLike pattern text

/-- `_scoped_query`: the rows a caller is entitled to list. -/
def inListScope (user : Option UserModel) (params : ObjectListParams) (o : MediaObject) : Bool :=
  match user with
  | none => o.visibility = .public ∧ o.deletedAt = none
  | some user =>
    if user.isSuperuser then
      (params.ownerUserId = none ∨ params.ownerUserId = some o.ownerUserId) ∧
        (params.includeDeleted ∨ o.deletedAt = none)
    else
      (o.ownerUserId = user.id ∨ o.visibility = .public ∨
          (user.tenantId.isSome ∧ o.visibility = .tenant ∧ o.tenantId = user.tenantId)) ∧
        o.deletedAt = none

/-- `_apply_filters`. -/
def passesFilters (params : ObjectListParams) (o : MediaObject) : Bool :=
  params.category.all (o.category = ·) ∧ params.visibility.all (o.visibility = ·) ∧
    params.status.all (o.status = ·) ∧
    params.mimePrefix.all (fun p => sqlLike (p.toList ++ ['%']) o.mimeType.toList) ∧
    params.createdFrom.all (· ≤ o.createdAt) ∧ params.createdTo.all (o.createdAt ≤ ·) ∧
    params.q.all fun q => o.originalFilename.any fun name => q.toList <:+: name.toList

/-- `_apply_category_filter`: the filings a row needs, resolved in the caller's
scope; `none` asks for no filing filter. -/
def categoryFilter (db : Database) (user : Option UserModel) (params : ObjectListParams) :
    Except Failure (MediaObject → Bool) :=
  if params.uncategorized then .ok fun o => (db.links.filter (·.1 = o.id)) = ∅
  else
    match params.categoryId with
    | none => .ok fun _ => true
    | some c => do
      let branch ← branchCategoryIds db user c params.includeDescendants
      return fun o => branch.any fun i => (o.id, i) ∈ db.links

/-- The scoped, filtered rows the listing and both exports select from. -/
def queryObjects (db : Database) (user : Option UserModel) (params : ObjectListParams) :
    Except Failure (List MediaObject) := do
  let filed ← categoryFilter db user params
  return db.objects.rows.filter fun o =>
    inListScope user params o ∧ passesFilters params o ∧ filed o

/-! ### Downloads -/

def downloadNotAvailableMessage (scanStatus : ScanStatus) : String :=
  if scanStatus = .infected ∨ scanStatus = .quarantined then
    "Object is not available for download: it failed the virus scan."
  else "Object is not available for download until it passes scanning."

/-- `create_download_url` for an object's bytes, where they are now. -/
def objectUrl (settings : Settings) (o : MediaObject) (now : Timestamp) : DownloadUrl where
  location := o.location
  expiresAt := now + seconds settings.s3PresignedUrlExpireSeconds
  filename := o.originalFilename

def downloadUrl (settings : Settings) (db : Database) (now : Timestamp)
    (user : Option UserModel) (objectId : UUID) : Except Failure DownloadUrl :=
  match loadObjectForRead db user objectId with
  | .error e => .error e
  | .ok o =>
    if o.scanStatus ≠ .clean then
      .error (.http ⟨409, .scanNotClean o.scanStatus (downloadNotAvailableMessage o.scanStatus)⟩)
    else .ok (objectUrl settings o now)

/-! ### Relocation -/

/-- `_relocate_for_visibility`: the storage after the copy, and the new bucket
when the object moves. -/
def relocateForVisibility (settings : Settings) (st : Storage) (faults : Faults)
    (o : MediaObject) (newVisibility : Option MediaVisibility) :
    Except Failure (Storage × Option String) :=
  match newVisibility with
  | none => .ok (st, none)
  | some v =>
    let newBucket := bucketForVisibility settings v
    if v = o.visibility ∨ newBucket = o.storageBucket then .ok (st, none)
    else
      match st.copyObject faults o.location ⟨newBucket, o.objectKey⟩ with
      | none => refuse 502 "Failed to relocate object for the new visibility."
      | some st => .ok (st, some newBucket)

/-- `_archive_deleted_bytes`: a copy that fails leaves the object where it is. -/
def archiveDeletedBytes (settings : Settings) (st : Storage) (faults : Faults)
    (o : MediaObject) : Storage × Option String :=
  let archive := bucketForStorageClass settings .archive
  if o.storageBucket = archive then (st, none)
  else
    match st.copyObject faults o.location ⟨archive, o.objectKey⟩ with
    | none => (st, none)
    | some st => (st, some archive)

/-! ### Metadata patch -/

/-- The fields a body sets, an explicit null among them. -/
structure MediaObjectUpdate where
  visibility : Option (Option MediaVisibility)
  originalFilename : Option (Option String)
  category : Option (Option MediaCategory)
  categoryIds : Option (List ℤ)

/-- The schema's check of a body: a portable filename and a bounded filing. -/
def MediaObjectUpdate.validated (env : Env) (u : MediaObjectUpdate) : Option MediaObjectUpdate :=
  if maxCategoryAssignments < (u.categoryIds.getD []).length then none
  else
    match u.originalFilename with
    | some (some name) =>
      (validateFilename env name).map fun name => { u with originalFilename := some (some name) }
    | _ => some u

/-- The row with the set fields applied; `none` where a null meets a column that
forbids it, which the commit refuses. -/
def MediaObjectUpdate.apply (u : MediaObjectUpdate) (o : MediaObject) : Option MediaObject :=
  match u.visibility.getD (some o.visibility), u.category.getD (some o.category) with
  | some v, some c =>
    some { o with
      visibility := v
      category := c
      originalFilename := u.originalFilename.getD o.originalFilename }
  | _, _ => none

/-- The filing a patch asks for, resolved in the caller's scope. -/
def updateCategories (db : Database) (user : UserModel) (u : MediaObjectUpdate) :
    Except Failure (Option (List Category)) :=
  match u.categoryIds with
  | none => .ok none
  | some ids =>
    match resolveCategoryIds db user ids with
    | .error e => .error e
    | .ok categories => .ok (some categories)

/-- What the patch commits, if the commit goes through. -/
def patchedDatabase (db : Database) (now : Timestamp) (u : MediaObjectUpdate) (o : MediaObject)
    (bucket : Option String) (categories : Option (List Category)) :
    Except Failure (Database × MediaObject) :=
  match u.apply { o with storageBucket := bucket.getD o.storageBucket, updatedAt := now } with
  | none => .error .integrityError
  | some o' =>
    match db.updateObject o' with
    | .error e => .error e
    | .ok db =>
      match categories with
      | none => .ok (db, o')
      | some cs => .ok (db.setFiling o.id (cs.map Category.id), o')

/-- `update_object`; `commitFails` is a commit the database refuses for reasons
of its own. -/
def updateObject (env : Env) (b : Backend) (faults : Faults) (commitFails : Bool)
    (now : Timestamp) (user : UserModel) (objectId : UUID) (body : MediaObjectUpdate) :
    Backend × Except Failure MediaObject :=
  match body.validated env with
  | none => (b, .error .invalidRequest)
  | some u =>
    match loadObject b.db user objectId false with
    | .error e => (b, .error e)
    | .ok o =>
      match updateCategories b.db user u with
      | .error e => (b, .error e)
      | .ok categories =>
        match relocateForVisibility env.settings b.storage faults o u.visibility.join with
        | .error e => (b, .error e)
        | .ok (st, bucket) =>
          match (if commitFails then .error .integrityError
            else patchedDatabase b.db now u o bucket categories) with
          | .error e =>
            match bucket with
            | none => (⟨b.db, st⟩, .error e)
            | some newBucket =>
              (⟨b.db, st.bestEffortRemove faults ⟨newBucket, o.objectKey⟩⟩, .error e)
          | .ok (db, o') =>
            match bucket with
            | none => (⟨db, st⟩, .ok o')
            | some _ => (⟨db, st.bestEffortRemove faults o.location⟩, .ok o')

/-! ### Scan verdicts -/

/-- `apply_scan_result`: a clean verdict promotes the row to `READY`, any other
quarantines it; the outbox event is staged with the change. -/
def applyScanResult (db : Database) (now : Timestamp) (objectId : UUID)
    (scanStatus : ScanStatus) : Except Failure (Database × MediaObject) :=
  match fetchObject db objectId true with
  | .error e => .error e
  | .ok o =>
    if scanStatus = .clean then
      let o' := { o with scanStatus := .clean, status := .ready, updatedAt := now }
      match db.updateObject o' with
      | .error e => .error e
      | .ok db =>
        .ok (db.recordEvent now eventObjectReady o.id
          [("status", o'.status.str), ("scan_status", o'.scanStatus.str)], o')
    else
      let o' := { o with scanStatus := .quarantined, updatedAt := now }
      match db.updateObject o' with
      | .error e => .error e
      | .ok db =>
        .ok (db.recordEvent now eventScanFailed o.id [("scan_status", o'.scanStatus.str)], o')

/-! ### Soft delete -/

/-- The row and the totals a delete commits. -/
def softDeletedDatabase (db : Database) (now : Timestamp) (o : MediaObject)
    (bucket : Option String) : Except Failure Database :=
  match db.updateObject { o with
      storageBucket := bucket.getD o.storageBucket
      deletedAt := some now
      status := .deleted
      updatedAt := now } with
  | .error e => .error e
  | .ok db =>
    .ok (({ db with usage := recordObjectRemoved db.usage o.scope o.sizeBytes now } :
      Database).recordEvent now eventObjectDeleted o.id [("visibility", o.visibility.str)])

/-- `delete_object`. -/
def deleteObject (env : Env) (b : Backend) (faults : Faults) (commitFails : Bool)
    (now : Timestamp) (user : UserModel) (objectId : UUID) : Backend × Except Failure Unit :=
  match loadObject b.db user objectId true with
  | .error e => (b, .error e)
  | .ok o =>
    if o.deletedAt.isSome then (b, .ok ())
    else
      match archiveDeletedBytes env.settings b.storage faults o with
      | (st, bucket) =>
        match (if commitFails then .error .integrityError
          else softDeletedDatabase b.db now o bucket) with
        | .error e => (⟨b.db, st⟩, .error e)
        | .ok db =>
          match bucket with
          | some _ => (⟨db, st.bestEffortRemove faults o.location⟩, .ok ())
          | none =>
            if o.visibility = .public then
              (⟨db, st.bestEffortRemove faults o.location⟩, .ok ())
            else (⟨db, st⟩, .ok ())

end MediaService
