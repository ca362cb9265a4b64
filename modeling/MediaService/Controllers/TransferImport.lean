import Mathlib.Data.List.Sort
import MediaService.Controllers.Uploads

/-! Importing a collection from a parsed manifest, alone or with the archive it
came in. The tree is recreated first; then each manifest row is matched, linked
or driven through the upload pipeline, and reported. A refusal of the pipeline
is the row's; anything else it raises ends the batch. -/

namespace MediaService

open Foundation

/-! ### The document -/

inductive ImportCategoryNode where
  | mk (name slug : String) (children : List ImportCategoryNode)

structure ImportObjectEntry where
  id : UUID
  filename : Option String
  category : MediaCategory
  categoryPaths : List String
  visibility : MediaVisibility
  sizeBytes : ℕ
  sha256 : Option String
  mimeType : String
  filename_length : ∀ f, filename = some f → f.length ≤ 255
  categoryPaths_length : categoryPaths.length ≤ maxCategoryAssignments
  sha256_length : ∀ s, sha256 = some s → s.length = 64
  mimeType_length : 1 ≤ mimeType.length ∧ mimeType.length ≤ 255

structure ImportManifest where
  categoryTree : List ImportCategoryNode
  objects : List ImportObjectEntry

inductive ImportFormat where
  | manifest | archive
  deriving DecidableEq

inductive ImportRowStatus where
  | created | linked | skipped | failed
  deriving DecidableEq

inductive ImportRowReason where
  | rejected (reason : UploadRejectReason)
  | missingBytes | alreadyExists | idConflict | unsupportedMime | invalidMetadata | storageError
  deriving DecidableEq

structure ImportObjectResult where
  sourceId : UUID
  filename : Option String
  status : ImportRowStatus
  reason : Option ImportRowReason
  message : Option String
  mediaObjectId : Option UUID
  categoryPaths : List String
  scanQueued : Bool
  deriving DecidableEq

structure ImportReport where
  format : ImportFormat
  categoriesCreated : ℕ
  categoriesReused : ℕ
  created : ℕ
  linked : ℕ
  skipped : ℕ
  failed : ℕ
  objects : List ImportObjectResult
  deriving DecidableEq

/-- One entry of the zip: its declared size, and what reading it yields unless
that raises. -/
structure ZipInfo where
  filename : String
  isDir : Bool
  fileSize : ℕ
  data : Option Bytes

/-! ### The tree -/

abbrev CategoryChain := List (String × String)

/-- `_slug_of`: the first candidate that slugifies to something usable. -/
def slugOf (env : Env) : List String → Except Failure String
  | [] => refuse 422 "A category has no usable name or slug."
  | candidate :: candidates =>
    let slug := String.ofList ((env.slugify candidate).toList.take 50)
    if slug = "" then slugOf env candidates else .ok slug

mutual

/-- `tree_chains` of one node: its root-down chain, then its children's. -/
def nodeChains (env : Env) (above : CategoryChain) :
    ImportCategoryNode → Except Failure (List CategoryChain)
  | .mk name slug children =>
    match slugOf env [slug, name] with
    | .error e => .error e
    | .ok s =>
      match forestChains env (above ++ [(name, s)]) children with
      | .error e => .error e
      | .ok chains => .ok ((above ++ [(name, s)]) :: chains)

def forestChains (env : Env) (above : CategoryChain) :
    List ImportCategoryNode → Except Failure (List CategoryChain)
  | [] => .ok []
  | node :: nodes =>
    match nodeChains env above node with
    | .error e => .error e
    | .ok chains =>
      match forestChains env above nodes with
      | .error e => .error e
      | .ok chains' => .ok (chains ++ chains')

end

/-- `path_chain`: a path's slugs double as names. -/
def pathChain (env : Env) (path : String) : Except Failure CategoryChain := do
  let segments := ((path.toList.splitOn '/').map String.ofList).filter fun s => strip s ≠ ""
  if segments = [] then refuse 422 "A category path is empty."
  if segments.length > env.settings.mediaImportMaxCategoryDepth then
    refuse 422 ("A category path nests deeper than the " ++
      toString env.settings.mediaImportMaxCategoryDepth ++ "-level import ceiling.")
  segments.mapM fun s => do
    let slug ← slugOf env [s]
    return (slug, slug)

/-- `_chain_key`: the slug path a chain resolves to. -/
def chainKey (chain : CategoryChain) : String := "/".intercalate (chain.map Prod.snd)

/-- `dict.setdefault` on an ordered dictionary. -/
def setDefault (chains : List (String × CategoryChain)) (chain : CategoryChain) :
    List (String × CategoryChain) :=
  if (chains.lookup (chainKey chain)).isSome then chains
  else chains ++ [(chainKey chain, chain)]

/-- `_collect_chain`: the chain and every ancestor of it, first spelling winning. -/
def collectChain (chains : List (String × CategoryChain)) (chain : CategoryChain) :
    List (String × CategoryChain) :=
  (List.range chain.length).foldl (fun chains d => setDefault chains (chain.take (d + 1))) chains

/-- Every category path the document names. -/
def manifestChains (env : Env) (manifest : ImportManifest) :
    Except Failure (List (String × CategoryChain)) := do
  let tree ← forestChains env [] manifest.categoryTree
  let paths ← (manifest.objects.flatMap ImportObjectEntry.categoryPaths).mapM (pathChain env)
  return (tree ++ paths).foldl collectChain []

structure RecreatedTree where
  byPath : List (String × Category)
  created : ℕ
  reused : ℕ

/-- The order the paths are resolved in: shallowest first, then by key. -/
def shallowestFirst (a b : String × CategoryChain) : Bool :=
  a.1.toList.count '/' < b.1.toList.count '/' ∨
    (a.1.toList.count '/' = b.1.toList.count '/' ∧ a.1 ≤ b.1)

/-- Resolve the chains one after another. -/
def ensureChains (user : UserModel) :
    Database → RecreatedTree → List (String × CategoryChain) →
      Database × Except Failure RecreatedTree
  | db, tree, [] => (db, .ok tree)
  | db, tree, (key, chain) :: chains =>
    match ensureCategoryPath db user chain with
    | (db, .error e) => (db, .error e)
    | (db, .ok (row, created)) =>
      ensureChains user db
        ⟨tree.byPath ++ [(key, row)], tree.created + created, tree.reused + (1 - created)⟩ chains

/-- `recreate_tree`. -/
def recreateTree (env : Env) (db : Database) (user : UserModel) (manifest : ImportManifest) :
    Database × Except Failure RecreatedTree :=
  match manifestChains env manifest with
  | .error e => (db, .error e)
  | .ok chains =>
    if chains.length > env.settings.mediaImportMaxCategories then
      (db, refuse 422 ("Import names " ++ toString chains.length ++ " category paths, above the " ++
        toString env.settings.mediaImportMaxCategories ++ " ceiling."))
    else
      ensureChains user db ⟨[], 0, 0⟩ (chains.insertionSort fun a b => shallowestFirst a b = true)

/-- The slug path of each of an entry's filings. -/
def entryPaths (env : Env) (entry : ImportObjectEntry) : Except Failure (List String) :=
  entry.categoryPaths.mapM fun path => do
    let chain ← pathChain env path
    return chainKey chain

/-- `_categories_for`: an entry's recreated rows, each once. -/
def categoriesFor (env : Env) (tree : RecreatedTree) (entry : ImportObjectEntry) :
    Except Failure (List Category) := do
  let keys ← entryPaths env entry
  let rows ← keys.mapM fun key =>
    match tree.byPath.lookup key with
    | some row => .ok row
    | none => .error (.keyError key)
  return rows.eraseDupsBy fun c d => c.id = d.id

/-! ### One row -/

/-- The states in which a local row is an object of the collection. -/
def isImportable (status : MediaObjectStatus) : Bool :=
  status = .pendingUpload ∨ status = .uploaded ∨ status = .processing ∨ status = .ready

/-- `_importable_match`: the local row, and whether it may be filed. -/
def importableMatch (db : Database) (user : UserModel) (sourceId : UUID) :
    Option (MediaObject × Bool) :=
  (db.objects.find sourceId).map fun o =>
    (o, o.ownerUserId = user.id ∧ o.deletedAt = none ∧ isImportable o.status)

/-- `_file_into`: add filings, keeping what is there. -/
def fileInto (db : Database) (now : Timestamp) (o : MediaObject) (categories : List Category) :
    Database :=
  let added := categories.filter fun c => (o.id, c.id) ∉ db.links
  if added = [] then db
  else { db with
    links := db.links ∪ (added.map fun c => (o.id, c.id)).toFinset
    objects := db.objects.update { o with updatedAt := now } }

/-- `_reason_for`: a pipeline refusal in the report's vocabulary. -/
def reasonFor (e : HTTPException) : ImportRowReason × String :=
  match e.detail with
  | .uploadRejected reason message => (.rejected reason, message)
  | .text message | .scanNotClean _ message =>
    if e.statusCode = 413 then (.rejected .quotaBytesExceeded, message)
    else if e.statusCode = 409 then (.rejected .quotaObjectsExceeded, message)
    else (.storageError, message)

/-- `_result`. -/
def rowResult (entry : ImportObjectEntry) (paths : List String) (status : ImportRowStatus)
    (reason : Option ImportRowReason) (message : Option String) (mediaObjectId : Option UUID) :
    ImportObjectResult where
  sourceId := entry.id
  filename := entry.filename
  status := status
  reason := reason
  message := message
  mediaObjectId := mediaObjectId
  categoryPaths := paths
  scanQueued := false

def rowFailed (entry : ImportObjectEntry) (paths : List String) (reason : ImportRowReason)
    (message : String) : ImportObjectResult :=
  rowResult entry paths .failed (some reason) (some message) none

def idConflictMessage : String :=
  "This id is already held by a record that is not an importable object of " ++
    "this collection — another owner's, or one already deleted or rejected."

/-- `_link_existing`, as it reports. -/
def rowLinked (entry : ImportObjectEntry) (paths : List String) (o : MediaObject) :
    ImportObjectResult :=
  rowResult entry paths .linked (some .alreadyExists)
    (some "Already in this collection; filed into the imported categories.") (some o.id)

/-- What the surroundings decide while a row runs: the storage faults, and when
its session is recorded and its completion runs. -/
structure RowContext where
  faults : Faults
  recordedAt : Timestamp
  completedAt : Timestamp

/-- The bytes a put of an entry stores: exactly the declared length. -/
def ZipInfo.read (info : ZipInfo) : Option Bytes :=
  match info.data with
  | none => none
  | some data => if data.length < info.fileSize then none else some (data.take info.fileSize)

/-- The upload request an entry amounts to. -/
def entryRequest (env : Env) (entry : ImportObjectEntry) (sizeBytes : ℕ)
    (categories : List Category) : UploadInitiateRequest where
  category := entry.category
  visibility := entry.visibility
  originalFilename := sanitizeFilename env entry.filename
  mimeType := entry.mimeType
  expectedSizeBytes := sizeBytes
  categoryIds := categories.map Category.id

/-- A staged row whose bytes are stored: record its session and complete it. An
exception that is no refusal escapes. -/
def recordAndComplete (env : Env) (b : Backend) (ctx : RowContext) (user : UserModel)
    (entry : ImportObjectEntry) (staged : StagedUpload) (req : UploadInitiateRequest)
    (categories : List Category) (paths : List String) :
    Backend × Except Failure (ImportObjectResult × Option MediaObject) :=
  let expiresAt := ctx.recordedAt + seconds env.settings.s3PresignedUrlExpireSeconds
  match recordUploadSession b.db staged req ctx.recordedAt expiresAt with
  | .error e => (b, .error e)
  | .ok db =>
    match completeUpload env { b with db := db } ctx.faults ctx.completedAt user staged.mediaId
        ⟨entry.sha256, some (categories.map Category.id)⟩ with
    | (b, .ok o) => (b, .ok (rowResult entry paths .created none none (some o.id), some o))
    | (b, .error (.http e)) =>
      (b, .ok (rowFailed entry paths (reasonFor e).1 (reasonFor e).2, none))
    | (b, .error e) => (b, .error e)

/-- A row with bytes and no local counterpart, from its checks to its put. -/
def importNewFile (env : Env) (b : Backend) (ctx : RowContext) (user : UserModel)
    (info : ZipInfo) (entry : ImportObjectEntry) (categories : List Category)
    (paths : List String) :
    Backend × Except Failure (ImportObjectResult × Option MediaObject) :=
  if !isAllowedDeclaredMime entry.mimeType then
    (b, .ok (rowFailed entry paths .unsupportedMime
      ("Unsupported content type: " ++ entry.mimeType), none))
  else if info.fileSize > maxSizeForCategory env.settings entry.category.str then
    (b, .ok (rowFailed entry paths (.rejected .sizeExceeded)
      "Object is larger than its category allows.", none))
  else
    match (entryRequest env entry info.fileSize categories).validated env with
    | none =>
      (b, .ok (rowFailed entry paths .invalidMetadata
        "Manifest metadata does not describe an uploadable object.", none))
    | some req =>
      match stageUpload env b.db user req entry.id with
      | .error (.http e) =>
        (b, .ok (rowFailed entry paths (reasonFor e).1 (reasonFor e).2, none))
      | .error e => (b, .error e)
      | .ok staged =>
        match info.read.bind fun data =>
            b.storage.putObjectStream ctx.faults staged.location data entry.mimeType with
        | none =>
          ({ b with storage := b.storage.bestEffortRemove ctx.faults staged.location },
            .ok (rowFailed entry paths .storageError "The imported bytes could not be stored.",
              none))
        | some st =>
          recordAndComplete env { b with storage := st } ctx user entry staged req categories paths

/-- `_import_one_file`. -/
def importOneFile (env : Env) (b : Backend) (ctx : RowContext) (user : UserModel)
    (info : Option ZipInfo) (entry : ImportObjectEntry) (categories : List Category)
    (paths : List String) :
    Backend × Except Failure (ImportObjectResult × Option MediaObject) :=
  match importableMatch b.db user entry.id with
  | some (_, false) => (b, .ok (rowFailed entry paths .idConflict idConflictMessage, none))
  | some (o, true) =>
    ({ b with db := fileInto b.db ctx.recordedAt o categories },
      .ok (rowLinked entry paths o, none))
  | none =>
    match info with
    | none =>
      (b, .ok (rowResult entry paths .skipped (some .missingBytes)
        (some ("The archive carries no bytes for this object; it was " ++
          "listed in the manifest but excluded from the export.")) none, none))
    | some info => importNewFile env b ctx user info entry categories paths

/-- The row loop of `_import_manifest`, for one entry. -/
def importManifestEntry (b : Backend) (ctx : RowContext) (user : UserModel)
    (entry : ImportObjectEntry) (categories : List Category) (paths : List String) :
    Backend × Except Failure (ImportObjectResult × Option MediaObject) :=
  match importableMatch b.db user entry.id with
  | none =>
    (b, .ok (rowResult entry paths .skipped (some .missingBytes)
      (some "Manifest carries metadata only; no bytes to import.") none, none))
  | some (_, false) => (b, .ok (rowFailed entry paths .idConflict idConflictMessage, none))
  | some (o, true) =>
    ({ b with db := fileInto b.db ctx.recordedAt o categories },
      .ok (rowLinked entry paths o, none))

/-! ### The batch -/

/-- Drive the rows in manifest order; `row` imports one, in the context of its
position. -/
def importRows (env : Env) (tree : RecreatedTree) (ctx : ℕ → RowContext)
    (row : Backend → RowContext → ImportObjectEntry → List Category → List String →
      Backend × Except Failure (ImportObjectResult × Option MediaObject)) :
    ℕ → Backend → List ImportObjectEntry →
      Backend × Except Failure (List (ImportObjectResult × Option MediaObject))
  | _, b, [] => (b, .ok [])
  | i, b, entry :: entries =>
    match categoriesFor env tree entry, entryPaths env entry with
    | .ok categories, .ok paths =>
      match row b (ctx i) entry categories paths with
      | (b, .error e) => (b, .error e)
      | (b, .ok result) =>
        match importRows env tree ctx row (i + 1) b entries with
        | (b, .error e) => (b, .error e)
        | (b, .ok results) => (b, .ok (result :: results))
    | .error e, _ => (b, .error e)
    | _, .error e => (b, .error e)

/-- The report and the objects the route queues scans for. -/
structure ImportOutcome where
  report : ImportReport
  createdObjects : List MediaObject

/-- `_tallied`: the counters, from the rows. -/
def tallied (format : ImportFormat) (tree : RecreatedTree)
    (results : List (ImportObjectResult × Option MediaObject)) : ImportOutcome :=
  let rows := results.map Prod.fst
  let count := fun status => (rows.filter fun r => r.status = status).length
  { report := {
      format := format
      categoriesCreated := tree.created
      categoriesReused := tree.reused
      created := count .created
      linked := count .linked
      skipped := count .skipped
      failed := count .failed
      objects := rows }
    createdObjects := results.filterMap Prod.snd }

/-- The object id an entry's name files it under: `files/{object_id}/{filename}`. -/
def ZipInfo.objectId (env : Env) (info : ZipInfo) : Option UUID :=
  if info.isDir then none
  else
    match (info.filename.toList.splitOn '/').map String.ofList with
    | [top, id, _] => if top = "files" then parseUuid env id else none
    | _ => none

/-- `_file_entries`, looked up: of several entries for one id the last counts. -/
def fileEntry (env : Env) (infolist : List ZipInfo) (id : UUID) : Option ZipInfo :=
  (infolist.filter fun info => info.objectId env = some id).getLast?

/-- The keys of `_file_entries`. -/
def fileEntryIds (env : Env) (infolist : List ZipInfo) : List UUID :=
  (infolist.filterMap (ZipInfo.objectId env)).dedup

def assertArchiveWithinCeilings (env : Env) (manifest : ImportManifest)
    (infolist : List ZipInfo) : Except Failure Unit :=
  let files := (fileEntryIds env infolist).length
  let total := (manifest.objects.map fun e =>
    ((fileEntry env infolist e.id).map ZipInfo.fileSize).getD 0).sum
  if files > env.settings.mediaImportMaxObjects then
    refuse 422 ("Archive carries " ++ toString files ++ " files, above the " ++
      toString env.settings.mediaImportMaxObjects ++ " import ceiling.")
  else if total > env.settings.mediaImportMaxTotalBytes then
    refuse 422 ("Archive would import " ++ toString total ++ " bytes, above the " ++
      toString env.settings.mediaImportMaxTotalBytes ++ " ceiling.")
  else .ok ()

/-- The tree, then the rows, then the report. -/
def importDocument (env : Env) (b : Backend) (ctx : ℕ → RowContext) (user : UserModel)
    (format : ImportFormat) (manifest : ImportManifest)
    (row : Backend → RowContext → ImportObjectEntry → List Category → List String →
      Backend × Except Failure (ImportObjectResult × Option MediaObject)) :
    Backend × Except Failure ImportOutcome :=
  match recreateTree env b.db user manifest with
  | (db, .error e) => ({ b with db := db }, .error e)
  | (db, .ok tree) =>
    match importRows env tree ctx row 0 { b with db := db } manifest.objects with
    | (b, .error e) => (b, .error e)
    | (b, .ok results) => (b, .ok (tallied format tree results))

/-- What was uploaded, once read: a manifest, and for an archive its entries. -/
inductive ImportSource where
  | manifest (manifest : ImportManifest)
  | archive (manifest : ImportManifest) (infolist : List ZipInfo)

def ImportSource.document : ImportSource → ImportManifest
  | .manifest m => m
  | .archive m _ => m

/-- `ImportController.run`, on a document that parsed. -/
def runImport (env : Env) (b : Backend) (ctx : ℕ → RowContext) (user : UserModel)
    (source : ImportSource) : Backend × Except Failure ImportOutcome :=
  match source with
  | .manifest manifest =>
    importDocument env b ctx user .manifest manifest fun b ctx entry categories paths =>
      importManifestEntry b ctx user entry categories paths
  | .archive manifest infolist =>
    match assertArchiveWithinCeilings env manifest infolist with
    | .error e => (b, .error e)
    | .ok () =>
      importDocument env b ctx user .archive manifest fun b ctx entry categories paths =>
        importOneFile env b ctx user (fileEntry env infolist entry.id) entry categories paths

end MediaService
