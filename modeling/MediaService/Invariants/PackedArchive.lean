import MediaService.Controllers.ImportUpload
import MediaService.Invariants.ManifestRoundTrip

/-! The archive of an export as a worker packs it, and how an import reads it: the
document is the manifest read back, and under the id of each object that was packed,
and of no other, are its stored bytes. -/

namespace MediaService

open Foundation

variable {env : Env} {lib : DocumentLibrary} {st : Storage} {payload : ExportArchiveJobPayload}
  {infolist : List ZipInfo} {document : ImportManifest}

/-! ### Packing -/

def packedManifest (text : Bytes) : ZipInfo :=
  ⟨manifestEntryName, false, text.length, some text⟩

def packedObject (st : Storage) (e : ExportArchiveEntry) : ZipInfo :=
  ⟨e.archivePath, false, ((st.content e.source).getD []).length, st.content e.source⟩

/-- The zip holds the manifest of a payload, as JSON, and under the path of each of its
objects the bytes stored for it. -/
structure Packs (lib : DocumentLibrary) (st : Storage) (payload : ExportArchiveJobPayload)
    (infolist : List ZipInfo) : Prop where
  entries : ∃ text, lib.json text = some (payload.manifest.json lib.toModelLibrary) ∧
    infolist.Perm (packedManifest text :: payload.objects.map (packedObject st))
  stored : ∀ e ∈ payload.objects, (st.content e.source).isSome

/-! ### Names of entries -/

theorem objectId_packedManifest (text : Bytes) : (packedManifest text).objectId env = none := by
  unfold ZipInfo.objectId
  rw [if_neg (by simp [packedManifest]),
    show (packedManifest text).filename = manifestEntryName from rfl,
    List.splitOn_eq_singleton (by decide : '/' ∉ manifestEntryName.toList)]
  rfl

/-- The path of an object leads back to its id. -/
theorem objectId_packedObject (hdecimal : DecimalAscii env) (st : Storage) (o : MediaObject) :
    (packedObject st (archiveEntry o)).objectId env = some o.id := by
  obtain ⟨f, hf⟩ : ∃ f, archiveEntryName o = "files/" ++ o.id.str ++ "/" ++ safeFilename f :=
    ⟨_, rfl⟩
  have hsegments : ((archiveEntryName o).toList.splitOn '/').map String.ofList =
      ["files", o.id.str, safeFilename f] := by
    have htext : (archiveEntryName o).toList =
        "files".toList ++ '/' :: (o.id.str.toList ++ '/' :: (safeFilename f).toList) := by
      rw [hf]
      simp [String.toList_append]
    rw [htext, List.splitOn_append_cons_self, List.splitOn_append_cons_self, splitOn_uuid,
      List.splitOn_eq_singleton (slash_not_mem_safeFilename f),
      List.splitOn_eq_singleton (by decide : '/' ∉ "files".toList)]
    simp
  unfold ZipInfo.objectId
  rw [if_neg (by simp [packedObject]),
    show (packedObject st (archiveEntry o)).filename = archiveEntryName o from rfl, hsegments]
  exact (if_pos rfl).trans (parseUuid_str hdecimal o.id)

/-- No object is packed under the name of the manifest. -/
theorem filename_packedObject (hdecimal : DecimalAscii env) (st : Storage) (o : MediaObject) :
    (packedObject st (archiveEntry o)).filename ≠ manifestEntryName := by
  intro h
  have hid := objectId_packedObject hdecimal st o
  have hnone : (packedManifest []).objectId env = none := objectId_packedManifest []
  unfold ZipInfo.objectId at hid hnone
  rw [h] at hid
  cases hid.symm.trans hnone

/-! ### What an import finds -/

section Read

variable {os : List MediaObject}

theorem filter_id_eq (hids : (os.map MediaObject.id).Nodup) (id : UUID) :
    os.filter (fun o => o.id = id) = (os.find? fun o => o.id = id).toList := by
  induction os with
  | nil => rfl
  | cons o os ih =>
    rw [List.map_cons, List.nodup_cons] at hids
    by_cases ho : o.id = id
    · rw [List.filter_cons_of_pos (by simpa using ho), List.find?_cons_of_pos (by simpa using ho),
        Option.toList_some, List.cons.injEq, List.filter_eq_nil_iff]
      refine ⟨rfl, fun q hq hqid => hids.1 ?_⟩
      rw [ho, ← of_decide_eq_true hqid]
      exact List.mem_map_of_mem hq
    · rw [List.filter_cons_of_neg (by simpa using ho), List.find?_cons_of_neg (by simpa using ho)]
      exact ih hids.2

/-- Under an id the import finds the bytes packed for it, if any were. -/
theorem Packs.fileEntry_eq (h : Packs lib st payload infolist) (hdecimal : DecimalAscii env)
    (hobjects : payload.objects = os.map archiveEntry) (hids : (os.map MediaObject.id).Nodup)
    (id : UUID) : fileEntry env infolist id =
      (os.find? fun o => o.id = id).map fun o => packedObject st (archiveEntry o) := by
  obtain ⟨text, -, hperm⟩ := h.entries
  have hfilter : (infolist.filter fun info => info.objectId env = some id).Perm
      ((os.find? fun o => o.id = id).toList.map fun o => packedObject st (archiveEntry o)) := by
    have hpacked := hperm.filter fun info => info.objectId env = some id
    rw [List.filter_cons_of_neg (by simp [objectId_packedManifest]), hobjects, List.map_map,
      List.filter_map] at hpacked
    have hselect : (fun info : ZipInfo => decide (info.objectId env = some id)) ∘
        (packedObject st ∘ archiveEntry) = fun o => decide (o.id = id) := by
      funext o
      simp [objectId_packedObject hdecimal]
    rw [hselect, filter_id_eq hids] at hpacked
    exact hpacked
  unfold fileEntry
  cases hfind : os.find? fun o => o.id = id with
  | none =>
    rw [hfind] at hfilter
    rw [List.Perm.eq_nil hfilter]
    rfl
  | some o =>
    rw [hfind] at hfilter
    rw [List.perm_singleton.mp hfilter]
    rfl

/-- The document that was read is the manifest read back. -/
theorem Packs.parses (h : Packs lib st payload infolist) (hdecimal : DecimalAscii env)
    (hobjects : payload.objects = os.map archiveEntry) {settings : Settings} {source : List Bytes}
    (hread : readUpload settings lib .archive source = .ok (.archive document infolist)) :
    parseManifestDocument settings lib.toModelLibrary (payload.manifest.json lib.toModelLibrary) =
      .ok document := by
  obtain ⟨text, hjson, hperm⟩ := h.entries
  have hmanifest : archiveManifest settings lib infolist = .ok document := by
    unfold readUpload at hread
    dsimp only at hread
    split at hread
    · cases hread
    · split at hread
      · cases hread
      · cases hread
      · split at hread
        · cases hread
        · rename_i hm
          cases hread
          exact hm
  have hfilter : infolist.filter (fun info => info.filename = manifestEntryName) =
      [packedManifest text] := by
    have hnone : ((os.map archiveEntry).map (packedObject st)).filter
        (fun info => info.filename = manifestEntryName) = [] := by
      rw [List.map_map, List.filter_eq_nil_iff]
      intro info hinfo
      obtain ⟨o, -, rfl⟩ := List.mem_map.mp hinfo
      simpa using filename_packedObject hdecimal st o
    have hpacked := hperm.filter fun info => info.filename = manifestEntryName
    rw [List.filter_cons_of_pos (by simp [packedManifest]), hobjects, hnone] at hpacked
    exact List.perm_singleton.mp hpacked
  unfold archiveManifest at hmanifest
  rw [hfilter] at hmanifest
  dsimp only [List.getLast?_singleton] at hmanifest
  split at hmanifest
  · cases hmanifest
  · have hparse : parseManifestBytes settings lib (text.take text.length) = .ok document :=
      hmanifest
    unfold parseManifestBytes at hparse
    rw [List.take_length, hjson] at hparse
    dsimp only at hparse
    generalize parseManifestDocument settings lib.toModelLibrary
      (payload.manifest.json lib.toModelLibrary) = r at hparse ⊢
    cases r with
    | error e => cases hparse
    | ok m =>
      cases hparse
      rfl

end Read

/-- The entries of the document are what an import keeps of those of the manifest. -/
theorem imported_of_parse {settings : Settings} {lib : ModelLibrary} {manifest : ExportManifest}
    (h : parseManifestDocument settings lib (manifest.json lib) = .ok document) :
    List.Forall₂ (fun m entry => m.imported = some entry) manifest.objects document.objects := by
  unfold parseManifestDocument at h
  split at h
  · cases h
  · split at h
    · exact absurd h refuse_ne_ok
    · rename_i hread
      cases h
      obtain ⟨tree, -, hread⟩ := Option.bind_eq_some_iff.mp hread
      obtain ⟨objects, hobjects, hread⟩ := Option.bind_eq_some_iff.mp hread
      cases hread
      have hmember : (manifest.json lib).member "objects" =
          some (.arr (manifest.objects.map (ManifestObjectEntry.json lib))) := rfl
      rw [hmember, readItems, mapM_eq_some_iff, List.forall₂_map_left_iff] at hobjects
      simpa only [ManifestObjectEntry.read_json] using hobjects

end MediaService
