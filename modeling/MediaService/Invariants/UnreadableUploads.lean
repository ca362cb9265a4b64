import MediaService.Controllers.ImportUpload
import MediaService.Invariants.ManifestCeilings
import MediaService.Invariants.ManifestRoundTrip

/-! Uploads that cannot be read. Whatever the bytes are, what JSON and the schema make of a
manifest is a document or a refusal. An archive has two more places where its library may
raise: the opening of the archive, and that of its manifest. Only some of what is raised
there is refused. -/

namespace MediaService

open Foundation

variable {settings : Settings}

/-- It succeeds, or refuses with the 422 of an unusable upload. -/
def Handled {α : Type} (x : Except Failure α) : Prop :=
  (∃ a, x = .ok a) ∨ ∃ message, x = refuse 422 message

theorem handled_ok {α : Type} (a : α) : Handled (.ok a) := .inl ⟨a, rfl⟩

theorem handled_refuse {α : Type} (message : String) :
    Handled (refuse 422 message : Except Failure α) :=
  .inr ⟨message, rfl⟩

theorem Handled.error {α β : Type} {e : Failure} (h : Handled (.error e : Except Failure α)) :
    Handled (.error e : Except Failure β) := by
  obtain ⟨a, h⟩ | ⟨message, h⟩ := h
  · cases h
  · cases h
    exact handled_refuse message

/-! ### The document -/

theorem handled_assertNodesWithinCeilings (lib : ModelLibrary) (room : ℕ)
    (pending : List (Json × ℕ)) :
    Handled (assertNodesWithinCeilings settings lib room pending) := by
  fun_induction assertNodesWithinCeilings settings lib room pending with
  | case1 => exact handled_ok ()
  | case2 => exact handled_refuse _
  | case3 => exact handled_refuse _
  | case4 => exact handled_refuse _
  | case5 _ _ _ _ _ _ _ ih => exact ih
  | case6 => exact handled_refuse _

theorem handled_assertDocumentWithinCeilings (lib : ModelLibrary) (document : Json) :
    Handled (assertDocumentWithinCeilings settings lib document) := by
  unfold assertDocumentWithinCeilings
  split
  · split
    · split
      · exact handled_refuse _
      · exact handled_assertNodesWithinCeilings lib _ _
    · exact handled_refuse _
  · exact handled_refuse _

theorem handled_parseManifestDocument (lib : ModelLibrary) (document : Json) :
    Handled (parseManifestDocument settings lib document) := by
  unfold parseManifestDocument
  split
  · rename_i e hceilings
    exact (hceilings ▸ handled_assertDocumentWithinCeilings lib document :
      Handled (.error e : Except Failure Unit)).error
  · split
    · exact handled_refuse _
    · exact handled_ok _

theorem handled_drainToTempfile (limit copied : ℕ) (source : List Bytes) :
    Handled (drainToTempfile limit copied source) := by
  induction source generalizing copied with
  | nil => exact handled_ok []
  | cons chunk source ih =>
    rw [drainToTempfile]
    split
    · exact handled_ok []
    · split
      · exact handled_refuse _
      · have hrest := ih (copied + chunk.length)
        split <;> rename_i heq
        · rw [heq] at hrest
          exact hrest.error
        · exact handled_ok _

/-! ### The upload -/

/-- Reading an upload yields it, or refuses with the 422 of an unusable one. -/
def ReadsOrRefuses {α : Type} (x : Except ImportFailure α) : Prop :=
  (∃ a, x = .ok a) ∨ ∃ message, x = .error (.failure (.http ⟨422, .text message⟩))

theorem readsOrRefuses_ok {α : Type} (a : α) : ReadsOrRefuses (.ok a) := .inl ⟨a, rfl⟩

theorem Handled.readsOrRefuses {α β : Type} {e : Failure}
    (h : Handled (.error e : Except Failure α)) :
    ReadsOrRefuses (.error (.failure e) : Except ImportFailure β) := by
  obtain ⟨a, h⟩ | ⟨message, h⟩ := h
  · cases h
  · cases h
    exact .inr ⟨message, rfl⟩

theorem ReadsOrRefuses.error {α β : Type} {e : ImportFailure}
    (h : ReadsOrRefuses (.error e : Except ImportFailure α)) :
    ReadsOrRefuses (.error e : Except ImportFailure β) := by
  obtain ⟨a, h⟩ | ⟨message, h⟩ := h
  · cases h
  · cases h
    exact .inr ⟨message, rfl⟩

theorem readsOrRefuses_refuse {α : Type} (message : String) :
    ReadsOrRefuses ((refuse 422 message : Except Failure α).mapError .failure) :=
  .inr ⟨message, rfl⟩

theorem not_readsOrRefuses_zipError {α : Type} :
    ¬ ReadsOrRefuses (.error .zipError : Except ImportFailure α) := by
  rintro (⟨a, h⟩ | ⟨message, h⟩) <;> cases h

/-- Whatever a manifest's bytes are. -/
theorem readsOrRefuses_parseManifestBytes (lib : DocumentLibrary) (raw : Bytes) :
    ReadsOrRefuses (parseManifestBytes settings lib raw) := by
  unfold parseManifestBytes
  split
  · exact readsOrRefuses_refuse _
  · rename_i document _
    have hparse := @handled_parseManifestDocument settings lib.toModelLibrary document
    generalize parseManifestDocument settings lib.toModelLibrary document = r at hparse
    cases r with
    | error e => exact hparse.readsOrRefuses
    | ok manifest => exact readsOrRefuses_ok manifest

/-- The entry an archive's manifest is taken from. -/
def manifestInfo (infolist : List ZipInfo) : Option ZipInfo :=
  (infolist.filter fun info => info.filename = manifestEntryName).getLast?

/-- An archive is read or refused unless its manifest is there, is not too large and cannot
be read. -/
theorem readsOrRefuses_archiveManifest_iff (lib : DocumentLibrary) (infolist : List ZipInfo) :
    ReadsOrRefuses (archiveManifest settings lib infolist) ↔
      ∀ info, manifestInfo infolist = some info →
        info.fileSize ≤ settings.mediaImportMaxManifestBytes → info.data ≠ none := by
  unfold archiveManifest manifestInfo
  cases (infolist.filter fun info => info.filename = manifestEntryName).getLast? with
  | none => exact iff_of_true (readsOrRefuses_refuse _) nofun
  | some info =>
    dsimp only
    by_cases hsize : info.fileSize > settings.mediaImportMaxManifestBytes
    · refine iff_of_true ?_ fun info' hinfo hle => ?_
      · rw [if_pos hsize]
        exact readsOrRefuses_refuse _
      · cases hinfo
        omega
    · rw [if_neg hsize]
      cases hdata : info.data with
      | none =>
        refine iff_of_false not_readsOrRefuses_zipError fun h => ?_
        exact h info rfl (not_lt.mp hsize) hdata
      | some data =>
        refine iff_of_true (readsOrRefuses_parseManifestBytes lib _) fun info' hinfo _ => ?_
        cases hinfo
        rw [hdata]
        exact Option.some_ne_none data

/-- The zip library gets through what it is asked of an upload that is not too large:
opening it raises nothing but what is refused, and its manifest, if there is one within the
ceiling, can be opened and read. -/
def Readable (settings : Settings) (lib : DocumentLibrary) (source : List Bytes) : Prop :=
  ∀ raw, drainToTempfile settings.mediaImportMaxArchiveBytes 0 source = .ok raw →
    lib.zipFile raw ≠ .raises ∧ ∀ infolist, lib.zipFile raw = .infolist infolist →
      ∀ info, manifestInfo infolist = some info →
        info.fileSize ≤ settings.mediaImportMaxManifestBytes → info.data ≠ none

/-- A manifest that is uploaded alone is always read or refused. -/
theorem readsOrRefuses_readUpload_manifest (lib : DocumentLibrary) (source : List Bytes) :
    ReadsOrRefuses (readUpload settings lib .manifest source) := by
  unfold readUpload
  dsimp only
  split <;> rename_i hdrain
  · exact (hdrain ▸ handled_drainToTempfile _ _ _ :
      Handled (.error _ : Except _ Bytes)).readsOrRefuses
  · split <;> rename_i hparse
    · exact (hparse ▸ readsOrRefuses_parseManifestBytes lib _ :
        ReadsOrRefuses (.error _ : Except _ ImportManifest)).error
    · exact readsOrRefuses_ok _

/-- An upload is read or refused exactly if the zip library gets through it. -/
theorem readsOrRefuses_readUpload_iff (settings : Settings) (lib : DocumentLibrary)
    (source : List Bytes) :
    ReadsOrRefuses (readUpload settings lib .archive source) ↔ Readable settings lib source := by
  unfold readUpload Readable
  dsimp only
  cases hdrain : drainToTempfile settings.mediaImportMaxArchiveBytes 0 source with
  | error e =>
    exact iff_of_true (hdrain ▸ handled_drainToTempfile _ _ _ :
      Handled (.error e : Except _ Bytes)).readsOrRefuses fun raw hraw => by cases hraw
  | ok raw =>
    dsimp only
    cases hzip : lib.zipFile raw with
    | unreadable =>
      refine iff_of_true (readsOrRefuses_refuse _) fun raw' hraw => ?_
      cases hraw
      rw [hzip]
      exact ⟨nofun, nofun⟩
    | raises => exact iff_of_false not_readsOrRefuses_zipError fun h => (h raw rfl).1 hzip
    | infolist infolist =>
      have hmanifest := @readsOrRefuses_archiveManifest_iff settings lib infolist
      have hreadable : (∀ raw', (.ok raw : Except Failure Bytes) = .ok raw' →
          lib.zipFile raw' ≠ .raises ∧ ∀ infolist, lib.zipFile raw' = .infolist infolist →
            ∀ info, manifestInfo infolist = some info →
              info.fileSize ≤ settings.mediaImportMaxManifestBytes → info.data ≠ none) ↔
          ReadsOrRefuses (archiveManifest settings lib infolist) := by
        rw [hmanifest]
        constructor
        · exact fun h => (h raw rfl).2 infolist hzip
        · rintro h raw' hraw
          cases hraw
          rw [hzip]
          exact ⟨nofun, fun infolist' hinfolist => ZipOpening.infolist.inj hinfolist ▸ h⟩
      rw [hreadable]
      dsimp only
      generalize archiveManifest settings lib infolist = r
      cases r with
      | error e => exact ⟨ReadsOrRefuses.error, ReadsOrRefuses.error⟩
      | ok manifest => exact iff_of_true (readsOrRefuses_ok _) (readsOrRefuses_ok _)

/-- A zip archive with one entry, an encrypted `manifest.json` of two bytes. -/
def encryptedArchive : Bytes :=
  [0x50, 0x4b, 0x03, 0x04, 0x14, 0x00, 0x01, 0x00, 0x00, 0x00, 0x00, 0x00, 0x21, 0x00,
   0x43, 0xbf, 0xa6, 0xa3, 0x0e, 0x00, 0x00, 0x00, 0x02, 0x00, 0x00, 0x00, 0x0d, 0x00,
   0x00, 0x00, 0x6d, 0x61, 0x6e, 0x69, 0x66, 0x65, 0x73, 0x74, 0x2e, 0x6a, 0x73, 0x6f,
   0x6e, 0xbb, 0x62, 0xe6, 0x05, 0x2d, 0x27, 0x66, 0x7e, 0x70, 0xd1, 0xc0, 0x3e, 0x5a,
   0xfd, 0x50, 0x4b, 0x01, 0x02, 0x14, 0x00, 0x14, 0x00, 0x01, 0x00, 0x00, 0x00, 0x00,
   0x00, 0x21, 0x00, 0x43, 0xbf, 0xa6, 0xa3, 0x0e, 0x00, 0x00, 0x00, 0x02, 0x00, 0x00,
   0x00, 0x0d, 0x00, 0x00, 0x00, 0x00, 0x00, 0x00, 0x00, 0x00, 0x00, 0x00, 0x00, 0x00,
   0x00, 0x00, 0x00, 0x00, 0x00, 0x6d, 0x61, 0x6e, 0x69, 0x66, 0x65, 0x73, 0x74, 0x2e,
   0x6a, 0x73, 0x6f, 0x6e, 0x50, 0x4b, 0x05, 0x06, 0x00, 0x00, 0x00, 0x00, 0x01, 0x00,
   0x01, 0x00, 0x3b, 0x00, 0x00, 0x00, 0x39, 0x00, 0x00, 0x00, 0x00, 0x00]

/-- Lists the entry of the encrypted archive, whose data cannot be read without a password,
and opens nothing else. -/
def DocumentLibrary.encrypted : DocumentLibrary where
  toModelLibrary := ModelLibrary.plain
  json _ := none
  zipFile raw :=
    if raw = encryptedArchive then .infolist [⟨manifestEntryName, false, 2, none⟩]
    else .unreadable

/-- The error of the zip library escapes. -/
theorem not_readsOrRefuses_readUpload :
    ¬ ReadsOrRefuses
      (readUpload Settings.default .encrypted .archive [encryptedArchive]) := by
  have hnonempty : encryptedArchive ≠ [] := List.cons_ne_nil _ _
  have hlength : encryptedArchive.length = 138 := by
    simp only [encryptedArchive, List.length_cons, List.length_nil]
  have hdrain : drainToTempfile Settings.default.mediaImportMaxArchiveBytes 0
      [encryptedArchive] = .ok encryptedArchive := by
    rw [drainToTempfile, if_neg hnonempty, hlength, if_neg (by decide)]
    exact congrArg _ (List.append_nil encryptedArchive)
  have hzip : DocumentLibrary.encrypted.zipFile encryptedArchive =
      .infolist [⟨manifestEntryName, false, 2, none⟩] := by
    simp only [DocumentLibrary.encrypted, if_true]
  have hmanifest : archiveManifest Settings.default .encrypted
      [⟨manifestEntryName, false, 2, none⟩] = .error .zipError := rfl
  simp only [readUpload, hdrain, hzip, hmanifest]
  exact not_readsOrRefuses_zipError

end MediaService
