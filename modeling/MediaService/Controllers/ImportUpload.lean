import MediaService.Controllers.ManifestDocument

/-! An uploaded document on its way to an import. It is copied up to the ceiling of its
format, an archive is opened as a zip and its manifest taken out of it, and the manifest
is read as JSON. Only then does the import run. -/

namespace MediaService

open Foundation

/-- `zipfile.ZipFile(handle)`: its entries, one of the three errors that are refused, or
some other error. -/
inductive ZipOpening where
  | infolist (infos : List ZipInfo)
  | unreadable
  | raises

/-- The libraries an upload is read with. -/
structure DocumentLibrary extends ModelLibrary where
  /-- `json.loads(raw.decode("utf-8"))`, unless that raises an error that is refused. -/
  json : Bytes → Option Json
  zipFile : Bytes → ZipOpening

/-- How an import ends when it does not report: a failure of the service's own, or an
error of the zip library that nothing turns into one. -/
inductive ImportFailure where
  | failure (e : Failure)
  | zipError
  deriving DecidableEq

/-- The loop of `drain_to_tempfile`, given what each read of the source yields. -/
def drainToTempfile (limit : ℕ) : ℕ → List Bytes → Except Failure Bytes
  | _, [] => .ok []
  | copied, chunk :: chunks =>
    if chunk = [] then .ok []
    else if copied + chunk.length > limit then
      refuse 422 ("Uploaded file exceeds the " ++ toString limit ++ "-byte import ceiling.")
    else
      match drainToTempfile limit (copied + chunk.length) chunks with
      | .error e => .error e
      | .ok rest => .ok (chunk ++ rest)

section Read

variable (settings : Settings) (lib : DocumentLibrary)

/-- `parse_manifest_document`. -/
def parseManifestBytes (raw : Bytes) : Except ImportFailure ImportManifest :=
  match lib.json raw with
  | none => (refuse 422 "Manifest is not readable JSON.").mapError .failure
  | some document => (parseManifestDocument settings lib.toModelLibrary document).mapError .failure

def manifestEntryName : String := "manifest.json"

/-- `_archive_manifest`; of several entries of one name the zip library hands out the last. -/
def archiveManifest (infolist : List ZipInfo) : Except ImportFailure ImportManifest :=
  match (infolist.filter fun info => info.filename = manifestEntryName).getLast? with
  | none => (refuse 422 ("Archive has no " ++ manifestEntryName ++ ".")).mapError .failure
  | some info =>
    if info.fileSize > settings.mediaImportMaxManifestBytes then
      (refuse 422 (manifestEntryName ++ " exceeds the " ++
        toString settings.mediaImportMaxManifestBytes ++ "-byte ceiling.")).mapError .failure
    else
      match info.data with
      | none => .error .zipError
      | some data => parseManifestBytes settings lib (data.take info.fileSize)

/-- What `_import_manifest` and `_import_archive` do before the import proper. -/
def readUpload (format : ImportFormat) (source : List Bytes) :
    Except ImportFailure ImportSource :=
  match format with
  | .manifest =>
    match drainToTempfile settings.mediaImportMaxManifestBytes 0 source with
    | .error e => .error (.failure e)
    | .ok raw =>
      match parseManifestBytes settings lib raw with
      | .error e => .error e
      | .ok manifest => .ok (.manifest manifest)
  | .archive =>
    match drainToTempfile settings.mediaImportMaxArchiveBytes 0 source with
    | .error e => .error (.failure e)
    | .ok raw =>
      match lib.zipFile raw with
      | .unreadable =>
        (refuse 422 "Uploaded file is not a readable zip archive.").mapError .failure
      | .raises => .error .zipError
      | .infolist infolist =>
        match archiveManifest settings lib infolist with
        | .error e => .error e
        | .ok manifest => .ok (.archive manifest infolist)

end Read

/-- `ImportController.run`. -/
def importController (env : Env) (lib : DocumentLibrary) (b : Backend) (ctx : ℕ → RowContext)
    (user : UserModel) (format : ImportFormat) (source : List Bytes) :
    Backend × Except ImportFailure ImportOutcome :=
  match readUpload env.settings lib format source with
  | .error e => (b, .error e)
  | .ok document =>
    match runImport env b ctx user document with
    | (b, r) => (b, r.mapError .failure)

/-- What drains is what was read, and within the ceiling. -/
theorem drainToTempfile_ok {limit copied : ℕ} {chunks : List Bytes} {raw : Bytes}
    (hcopied : copied ≤ limit) (h : drainToTempfile limit copied chunks = .ok raw) :
    raw = (chunks.takeWhile (· ≠ [])).flatten ∧ copied + raw.length ≤ limit := by
  induction chunks generalizing copied raw with
  | nil =>
    cases h
    exact ⟨rfl, hcopied⟩
  | cons chunk chunks ih =>
    rw [drainToTempfile] at h
    split at h
    · rename_i hempty
      cases h
      simp [hempty, hcopied]
    · rename_i hne
      split at h
      · cases h
      · rename_i hle
        split at h
        · cases h
        · rename_i rest hrest
          cases h
          obtain ⟨hread, hlength⟩ := ih (by omega) hrest
          rw [List.takeWhile_cons_of_pos (by simpa using hne), List.flatten_cons, ← hread,
            List.length_append]
          exact ⟨rfl, by omega⟩

end MediaService
