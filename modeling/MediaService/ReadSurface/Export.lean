import MediaService.Foundation.Fallible
import MediaService.Lifecycle.Transfer
import MediaService.Scenario

/-! An archive export holds no more than its caller may download. The totals, the
entries and the manifest of a job come from three queries over the same scope and
filters; they agree with each other, and the entries agree with the gate of the
download, which is written on its own. -/

namespace MediaService

open Foundation

variable {env : Env} {db : Database} {user : UserModel} {params : ObjectListParams}
  {o : MediaObject}

/-! ### Selection -/

/-- The filters hold of an object: the attributes, the branch as the caller's own
categories resolve it, and the owner, which only a superuser may ask for. -/
structure Matches (db : Database) (user : UserModel) (params : ObjectListParams)
    (o : MediaObject) : Prop where
  attributes : passesFilters params o = true
  filing : ∃ filed, categoryFilter db (some user) params = .ok filed ∧ filed o = true
  owner : user.isSuperuser = true → ∀ owner, params.ownerUserId = some owner →
    o.ownerUserId = owner

/-- The scope of an export: what the caller may view, the deleted only for a
superuser who asks for them. -/
def InExportScope (user : UserModel) (params : ObjectListParams) (o : MediaObject) : Prop :=
  MayView (some user) o ∧
    (o.deletedAt = none ∨ (user.isSuperuser = true ∧ params.includeDeleted = true))

/-- The query behind every part of an export selects the scoped objects on which
the filters hold. -/
theorem mem_queryObjects {selected : List MediaObject}
    (h : queryObjects db (some user) params = .ok selected) :
    o ∈ selected ↔ o ∈ db.objects ∧ InExportScope user params o ∧ Matches db user params o := by
  obtain ⟨filed, hfiled, rfl⟩ := queryObjects_ok h
  have hmatches : Matches db user params o ↔ passesFilters params o = true ∧ filed o = true ∧
      (user.isSuperuser = true → ∀ owner, params.ownerUserId = some owner →
        o.ownerUserId = owner) := by
    constructor
    · rintro ⟨hpass, ⟨filed', hfiled', hin⟩, howner⟩
      rw [hfiled, Except.ok.injEq] at hfiled'
      exact ⟨hpass, hfiled' ▸ hin, howner⟩
    · rintro ⟨hpass, hin, howner⟩
      exact ⟨hpass, ⟨filed, hfiled, hin⟩, howner⟩
  rw [List.mem_filter, decide_eq_true_eq, inListScope_iff, hmatches, InExportScope]
  by_cases hs : user.isSuperuser = true
  · simp only [Option.any_some, hs, if_true, true_and, true_implies, Table.mem_def]
    tauto
  · simp only [Option.any_some, hs, Bool.false_eq_true, if_false, false_and, or_false,
      false_implies, and_true, Table.mem_def]

/-! ### Entries -/

/-- An object carried by an export is one its caller may download. -/
theorem mem_carried_iff {selected : List MediaObject}
    (h : queryObjects db (some user) params = .ok selected) :
    o ∈ selected.filter carriesBytes ↔ o ∈ db.objects ∧ Matches db user params o ∧
      o.status = .ready ∧
      ∀ settings now, downloadUrl settings db now (some user) o.id =
        .ok (objectUrl settings o now) := by
  rw [List.mem_filter, mem_queryObjects h, carriesBytes_iff]
  constructor
  · rintro ⟨⟨ho, hscope, hm⟩, hs, hready⟩
    exact ⟨ho, hm, hready, fun settings now =>
      downloadUrl_eq_ok.mpr ⟨o, ho, rfl, hs, hscope.1, rfl⟩⟩
  · rintro ⟨ho, hm, hready, hdown⟩
    obtain ⟨q, hq, hid, hs, hview, -⟩ := downloadUrl_eq_ok.mp (hdown Settings.default 0)
    obtain rfl := Table.eq_of_key_eq hq ho hid
    exact ⟨⟨ho, ⟨hview, .inl hs.1⟩, hm⟩, hs, hready⟩

/-! ### The export -/

/-- What an archive export promises: its entries are exactly the ready matching
objects its caller may download, each once and where the download would take it
from; its totals are those of the job, within the ceilings; and its manifest
describes exactly the filtered scope, each object once. -/
structure ArchiveWithinDownloads (env : Env) (db db' : Database) (user : UserModel)
    (params : ObjectListParams) (job : ExportArchiveJobPayload) : Prop where
  downloadable : ∀ e ∈ job.objects, ∀ now, ∃ url,
    downloadUrl env.settings db now (some user) e.objectId = .ok url ∧ url.location = e.source
  complete : ∀ o ∈ db.objects, Matches db user params o → o.status = .ready →
    (∃ now url, downloadUrl env.settings db now (some user) o.id = .ok url) →
    (job.objects.map ExportArchiveEntry.objectId).count o.id = 1
  matching : ∀ e ∈ job.objects, ∃ o ∈ db.objects, e = archiveEntry o ∧
    Matches db user params o ∧ o.status = .ready
  totals : ∃ row ∈ db'.exportJobs, row.id = job.jobId ∧
    (job.objects.map ExportArchiveEntry.sizeBytes).sum = row.totalSizeBytes ∧
    job.manifest.objects.length = row.objectCount ∧
    row.objectCount ≤ env.settings.mediaExportMaxObjects ∧
    row.totalSizeBytes ≤ env.settings.mediaExportMaxTotalBytes
  manifest : ∀ m, m ∈ job.manifest.objects ↔ ∃ o ∈ db.objects, InExportScope user params o ∧
    Matches db user params o ∧ ∃ paths, paths =
      (categoryRefsByObject db (some user) [o.id] o.id).map MediaObjectCategoryRef.path ∧
      m = manifestEntry o paths
  manifest_nodup : (job.manifest.objects.map ManifestObjectEntry.id).Nodup

theorem buildManifest_ok {manifest : ExportManifest}
    (h : buildManifest env db user params = .ok manifest) {selected : List MediaObject}
    (hquery : queryObjects db (some user) params = .ok selected) :
    manifest.objects = (orderById selected).map fun o => manifestEntry o
      ((categoryRefsByObject db (some user) [o.id] o.id).map MediaObjectCategoryRef.path) := by
  unfold buildManifest manifestObjects at h
  rw [hquery] at h
  cases h
  refine List.map_congr_left fun o ho => ?_
  have hmem : o.id ∈ (orderById selected).map MediaObject.id := List.mem_map_of_mem ho
  simp only [categoryRefsByObject, hmem, List.mem_singleton, if_true]

/-- An archive export that starts stays inside what its caller may download. -/
theorem archiveExport_withinDownloads {db' : Database} {now : Timestamp} {jobId : UUID}
    {filters : Option ObjectListParams} {job : ExportArchiveJobPayload}
    (h : startArchiveExport env db now jobId user filters = .ok (db', job)) :
    ArchiveWithinDownloads env db db' user (filters.getD .default) job := by
  obtain ⟨selected, manifest, t, hquery, hmanifest, hmatched, hbytes, rfl, ht, rfl⟩ :=
    startArchiveExport_payload h
  have hrows := buildManifest_ok hmanifest hquery
  have hentry : ∀ e, e ∈ (orderById (selected.filter carriesBytes)).map archiveEntry ↔
      ∃ o ∈ selected.filter carriesBytes, archiveEntry o = e := fun e => by
    rw [List.mem_map]
    exact exists_congr fun o => and_congr_left' (orderById_perm _).mem_iff
  have hids : ((orderById (selected.filter carriesBytes)).map archiveEntry).map
      ExportArchiveEntry.objectId = (orderById (selected.filter carriesBytes)).map MediaObject.id :=
    List.map_map
  refine ⟨?_, ?_, ?_, ?_, ?_, ?_⟩
  · intro e he now
    obtain ⟨o, ho, rfl⟩ := (hentry e).mp he
    exact ⟨_, ((mem_carried_iff hquery).mp ho).2.2.2 env.settings now, rfl⟩
  · rintro o ho hm hready ⟨now, url, hurl⟩
    obtain ⟨q, hq, hid, hs, hview, -⟩ := downloadUrl_eq_ok.mp hurl
    obtain rfl := Table.eq_of_key_eq hq ho hid
    have hcarried : q ∈ selected.filter carriesBytes :=
      (mem_carried_iff hquery).mpr ⟨hq, hm, hready, fun settings now =>
        downloadUrl_eq_ok.mpr ⟨q, hq, rfl, hs, hview, rfl⟩⟩
    have hnodup : ((selected.filter carriesBytes).map MediaObject.id).Nodup :=
      (nodup_ids_queryObjects hquery).sublist (List.filter_sublist.map _)
    change (List.map ExportArchiveEntry.objectId _).count q.id = 1
    rw [hids, ((orderById_perm _).map _).count_eq]
    exact List.count_eq_one_of_mem hnodup (List.mem_map_of_mem hcarried)
  · intro e he
    obtain ⟨o, ho, rfl⟩ := (hentry e).mp he
    obtain ⟨hmem, hm, hready, -⟩ := (mem_carried_iff hquery).mp ho
    exact ⟨o, hmem, rfl, hm, hready⟩
  · refine ⟨_, (Table.mem_insert ht).mpr (.inr rfl), rfl, ?_, ?_, hmatched, hbytes⟩
    · change (List.map ExportArchiveEntry.sizeBytes _).sum = (exportTotals selected).2
      rw [List.map_map]
      exact ((orderById_perm _).map _).sum_eq
    · rw [hrows, List.length_map]
      exact (orderById_perm _).length_eq
  · intro m
    rw [hrows, List.mem_map]
    constructor
    · rintro ⟨o, ho, rfl⟩
      obtain ⟨hmem, hscope, hm⟩ := (mem_queryObjects hquery).mp ((orderById_perm _).mem_iff.mp ho)
      exact ⟨o, hmem, hscope, hm, _, rfl, rfl⟩
    · rintro ⟨o, ho, hscope, hm, _, rfl, rfl⟩
      exact ⟨o, (orderById_perm _).mem_iff.mpr ((mem_queryObjects hquery).mpr ⟨ho, hscope, hm⟩),
        rfl⟩
  · rw [hrows, List.map_map]
    exact ((orderById_perm selected).map MediaObject.id).nodup_iff.mpr
      (nodup_ids_queryObjects hquery)

/-- The database after one upload found clean. -/
def cleanDatabase : Database :=
  (run (serve Env.default) World.initial
    (cleanUploadRequests Env.default 0 ⟨2⟩ (.ordinary 1) .private pngSignature)).backend.db

theorem archiveExport_cleanUpload : ∃ db' job,
    startArchiveExport Env.default cleanDatabase 1 ⟨3⟩ (.ordinary 1) none = .ok (db', job) ∧
      job.objects.map ExportArchiveEntry.objectId = [⟨2⟩] ∧
      ArchiveWithinDownloads Env.default cleanDatabase db' (.ordinary 1) .default job := by
  have hstarts : (startArchiveExport Env.default cleanDatabase 1 ⟨3⟩ (.ordinary 1)
      none).toOption.map (fun p => p.2.objects.map ExportArchiveEntry.objectId) = some [⟨2⟩] := by
    decide +kernel
  obtain ⟨⟨db', job⟩, h, hids⟩ := Option.map_eq_some_iff.mp hstarts
  have h := toOption_eq_some.mp h
  exact ⟨db', job, h, hids, archiveExport_withinDownloads h⟩

end MediaService
