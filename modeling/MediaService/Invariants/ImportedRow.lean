import MediaService.Invariants.DeclaredRows
import MediaService.Invariants.ImportScope
import MediaService.Invariants.ImportTwice

/-! A row of an archive whose bytes are there, under an id that is free. Nothing failing,
and room left under the quota, it becomes an object as its entry describes it, filed
into its categories, exactly if its bytes pass what an import asks of them and its
completion is not late. -/

namespace MediaService

open Foundation

variable {env : Env} {user : UserModel}

/-! ### Room under the quota -/

/-- So much more is within the ceilings of a scope. -/
structure RoomFor (settings : Settings) (usage : UsageTable) (scope : Scope)
    (bytes objects : ℕ) : Prop where
  bytes : exceeds (effectiveQuotaBytes settings (usage.find scope))
    ((usageTotals usage scope).1 + bytes) = false
  objects : exceeds (effectiveQuotaObjects settings (usage.find scope))
    ((usageTotals usage scope).2 + objects) = false

section Room

variable {settings : Settings} {usage : UsageTable} {scope : Scope} {bytes objects n : ℕ}

theorem RoomFor.mono (h : RoomFor settings usage scope bytes objects) {bytes' objects' : ℕ}
    (hbytes : bytes' ≤ bytes) (hobjects : objects' ≤ objects) :
    RoomFor settings usage scope bytes' objects' where
  bytes := exceeds_mono (by omega) h.bytes
  objects := exceeds_mono (by omega) h.objects

theorem RoomFor.checkQuota (h : RoomFor settings usage scope bytes (objects + 1))
    (hn : n ≤ bytes) : checkQuota settings usage scope n = .ok () :=
  checkQuota_eq_ok.mpr ⟨exceeds_mono (by omega) h.bytes, exceeds_mono (by omega) h.objects⟩

/-- What there is room for is reserved, and leaves the rest of the room. -/
theorem RoomFor.reserve (h : RoomFor settings usage scope (n + bytes) (objects + 1))
    (now : Timestamp) :
    (reserveStorageForObject settings usage scope n now).2 = none ∧
      RoomFor settings (reserveStorageForObject settings usage scope n now).1 scope bytes
        objects := by
  have hceilings : effectiveQuotaBytes settings (some (getOrCreateUsage usage scope now)) =
        effectiveQuotaBytes settings (usage.find scope) ∧
      effectiveQuotaObjects settings (some (getOrCreateUsage usage scope now)) =
        effectiveQuotaObjects settings (usage.find scope) := by
    unfold getOrCreateUsage
    cases usage.find scope <;> exact ⟨rfl, rfl⟩
  have htotals := totals_getOrCreateUsage usage scope now
  have hbytes : (getOrCreateUsage usage scope now).totalBytes = (usageTotals usage scope).1 :=
    congrArg Prod.fst htotals
  have hobjects : (getOrCreateUsage usage scope now).objectCount = (usageTotals usage scope).2 :=
    congrArg Prod.snd htotals
  have hfits : reserveRefusal settings (getOrCreateUsage usage scope now) n = none := by
    unfold reserveRefusal
    rw [hceilings.1, hceilings.2, hbytes, hobjects,
      exceeds_mono (by omega) h.bytes, exceeds_mono (by omega) h.objects]
    rfl
  have hgranted : (reserveStorageForObject settings usage scope n now).2 = none := by
    unfold reserveStorageForObject
    dsimp only
    rw [hfits]
  obtain ⟨hquota, hquota'⟩ := effectiveQuota_reserve settings usage scope n now
  refine ⟨hgranted, ?_, ?_⟩
  · rw [hquota, usageTotals_reserve_granted hgranted, if_pos rfl]
    exact exceeds_mono (by rw [Prod.fst_add]; omega) h.bytes
  · rw [hquota', usageTotals_reserve_granted hgranted, if_pos rfl]
    exact exceeds_mono (by rw [Prod.snd_add]; omega) h.objects

end Room

/-! ### Completion -/

/-- An object as described is there, with its filings and its charge, or none is in
service under the id and nothing is charged. -/
inductive Creates (passes : Prop) (id : UUID) (describes : MediaObject → Prop) (ids : List ℤ)
    (before after : UsageTable) (db : Database) : Prop
  | refused : ¬ passes → db.usage = before →
      (∀ o, db.objects.find id = some o → o.status ≠ .uploaded) →
      Creates passes id describes ids before after db
  | created {o : MediaObject} : passes → db.usage = after → db.objects.find id = some o →
      describes o → (∀ i, (id, i) ∈ db.links ↔ i ∈ ids) →
      Creates passes id describes ids before after db

theorem Creates.imp {passes passes' : Prop} {describes describes' : MediaObject → Prop}
    (hiff : passes ↔ passes') (himp : ∀ o, describes o → describes' o) {id : UUID} {ids : List ℤ}
    {before after : UsageTable} {db : Database}
    (h : Creates passes id describes ids before after db) :
    Creates passes' id describes' ids before after db := by
  cases h with
  | refused hnot husage hobjects => exact .refused (mt hiff.mpr hnot) husage hobjects
  | created hpasses husage hfind ho hlinks =>
    exact .created (hiff.mp hpasses) husage hfind (himp _ ho) hlinks

/-- What a completion asks of the bytes it finds. -/
structure ContentPasses (env : Env) (s : UploadSession) (sha256 : Option String)
    (content : Bytes) : Prop where
  size : content.length ≤ s.expectedSizeBytes ∧
    content.length ≤ maxSizeForCategory env.settings s.category.str
  mime : mimeConsistent s.expectedMimeType
    (env.sniffMime (content.take env.headLength)) = true
  digest : ∀ expected, sha256 = some expected → expected ≠ "" →
    verifySha256 env content expected = true

section Completion

variable {b : Backend} {s : UploadSession} {stored : StoredObject} {now : Timestamp}
  {sha256 : Option String} {categories : List Category}

theorem digestOk_eq (env : Env) (sha256 : Option String) {st : Storage} {l : Location}
    (hfind : st.find l = some stored) :
    digestOk env st Faults.none l sha256 = some true ∧
        (∀ expected, sha256 = some expected → expected ≠ "" →
          verifySha256 env stored.content expected = true) ∨
      digestOk env st Faults.none l sha256 = some false ∧
        ¬ ∀ expected, sha256 = some expected → expected ≠ "" →
          verifySha256 env stored.content expected = true := by
  have hread : st.streamObject Faults.none l = some stored.content := by
    simp [Storage.streamObject, Storage.read, Faults.none, Storage.content, hfind]
  unfold digestOk
  cases sha256 with
  | none => exact .inl ⟨rfl, fun _ h => by cases h⟩
  | some expected =>
    dsimp only
    by_cases hempty : expected = ""
    · refine .inl ⟨if_pos hempty, ?_⟩
      rintro _ ⟨⟩ hne
      exact absurd hempty hne
    · rw [if_neg hempty, hread, Option.map_some]
      cases hv : verifySha256 env stored.content expected with
      | true =>
        refine .inl ⟨rfl, ?_⟩
        rintro _ ⟨⟩ -
        exact hv
      | false =>
        refine .inr ⟨rfl, fun h => ?_⟩
        exact absurd (h expected rfl hempty) (by simp [hv])

/-- Nothing failing, bytes that pass are promoted once they are charged for. -/
theorem completeSession_passes (hfind : b.storage.find s.location = some stored)
    (h : ContentPasses env s sha256 stored.content) (hreserve : (reserveStorageForObject
      env.settings b.db.usage s.scope stored.content.length now).2 = none) :
    ∃ st, completeSession env b Faults.none now s sha256 categories =
      promoteUpload { b with storage := st }
        (reserveStorageForObject env.settings b.db.usage s.scope stored.content.length now).1 now s
        stored.content.length sha256 categories := by
  have hread : ∀ op, b.storage.read Faults.none op s.location = some stored.content := by
    simp [Storage.read, Faults.none, Storage.content, hfind]
  have hdigest : digestOk env b.storage Faults.none s.location sha256 = some true := by
    rcases digestOk_eq env sha256 hfind with ⟨hok, -⟩ | ⟨-, hnot⟩
    · exact hok
    · exact absurd h.digest hnot
  have hset : b.storage.setObjectContentType Faults.none s.location s.expectedMimeType =
      some (b.storage.update { stored with contentType := s.expectedMimeType }) := by
    simp [Storage.setObjectContentType, Faults.none, hfind]
  have hmime : mimeConsistent s.expectedMimeType
      (env.sniffMime ((some (stored.content.take env.headLength)).getD [])) = true := h.mime
  unfold completeSession Storage.statObject Storage.getObjectHead
  rw [hread, hread, hdigest, hset]
  dsimp only [Option.map_some]
  rw [if_neg (not_lt.mpr (le_min h.size.1 h.size.2)), hmime, if_neg (by simp)]
  generalize reserveStorageForObject env.settings b.db.usage s.scope stored.content.length now =
    r at hreserve ⊢
  obtain ⟨usage, refusal⟩ := r
  cases hreserve
  exact ⟨_, rfl⟩

/-- Nothing failing, bytes that do not pass are rejected, and nothing is charged. -/
theorem completeSession_fails (now : Timestamp) (categories : List Category)
    (hfind : b.storage.find s.location = some stored)
    (h : ¬ ContentPasses env s sha256 stored.content) :
    ∃ reason, completeSession env b Faults.none now s sha256 categories =
      rejectUpload b b.db.usage Faults.none now s reason stored.content.length := by
  have hread : ∀ op, b.storage.read Faults.none op s.location = some stored.content := by
    simp [Storage.read, Faults.none, Storage.content, hfind]
  unfold completeSession Storage.statObject Storage.getObjectHead
  rw [hread, hread]
  dsimp only [Option.map_some, Option.getD_some]
  split
  · exact ⟨_, rfl⟩
  · rename_i hsize
    split
    · exact ⟨_, rfl⟩
    · rename_i hmime
      rcases digestOk_eq env sha256 hfind with ⟨-, hdigest⟩ | ⟨hok, -⟩
      · refine absurd ⟨le_min_iff.mp (not_lt.mp hsize), by simpa using hmime, hdigest⟩ h
      · rw [hok]
        exact ⟨_, rfl⟩

/-- Nothing failing, a completion of the caller's open session promotes its object
exactly if the bytes pass and the session has not expired. -/
theorem creates_completeUpload (hk : WellKept env b.holdings)
    (hs : b.db.sessions.find s.id = some s) (howner : s.ownerUserId = user.id)
    (hinitiated : s.status = .initiated) (hnone : b.db.objects.find s.id = none)
    (hfind : b.storage.find s.location = some stored) {ids : List ℤ}
    (hcat : resolveCategoryIds b.db user ids = .ok categories)
    (hreserve : (reserveStorageForObject env.settings b.db.usage s.scope stored.content.length
      now).2 = none) (sha256 : Option String) :
    Creates (ContentPasses env s sha256 stored.content ∧ now ≤ s.expiresAt) s.id
      (· = sessionObject s s.expectedMimeType stored.content.length sha256 .uploaded now) ids
      b.db.usage
      (reserveStorageForObject env.settings b.db.usage s.scope stored.content.length now).1
      (completeUpload env b Faults.none now user s.id ⟨sha256, some ids⟩).1.db := by
  have hload := loadOwnedSession_eq_ok hs (.inr howner)
  have hinsert : ∀ (o : MediaObject) (usage : UsageTable), o.id = s.id →
      o.location = s.location → ∃ t, b.db.objects.insert o = some t ∧
        ({ b.db with usage := usage } : Database).insertObject o =
          .ok { b.db with usage := usage, objects := t } := by
    intro o usage hid hloc
    obtain ⟨db', hok⟩ := insertObject_eq_ok hk hs hinitiated hid hloc usage
    obtain ⟨-, t, ht, rfl⟩ := Database.insertObject_ok hok
    exact ⟨t, ht, hok⟩
  unfold completeUpload ensureCompletable
  rw [hload]
  dsimp only
  rw [if_neg (not_not.mpr hinitiated)]
  by_cases hlate : now > s.expiresAt
  · rw [if_pos hlate]
    refine .refused (fun h => not_le.mpr hlate h.2) rfl fun q hq => ?_
    cases hnone.symm.trans hq
  · rw [if_neg hlate]
    dsimp only [completionCategories]
    rw [hcat]
    by_cases hpasses : ContentPasses env s sha256 stored.content
    · obtain ⟨st, he⟩ := completeSession_passes hfind hpasses hreserve
      dsimp only
      rw [he]
      unfold promoteUpload
      obtain ⟨t, ht, hok⟩ := hinsert
        (sessionObject s s.expectedMimeType stored.content.length sha256 .uploaded now)
        (reserveStorageForObject env.settings b.db.usage s.scope stored.content.length now).1 rfl
        rfl
      dsimp only
      rw [hok]
      refine .created ⟨hpasses, not_lt.mp hlate⟩ rfl (Table.find_insert_self ht) rfl fun i => ?_
      have hids : i ∈ categories.map Category.id ↔ i ∈ ids := by
        refine ⟨fun hi => ?_, mem_of_resolveCategoryIds hcat⟩
        obtain ⟨c, hc, rfl⟩ := List.mem_map.mp hi
        exact (resolveCategoryIds_ok hcat hc).2.1
      rw [← hids]
      simp only [Database.setFiling, Database.updateSession, sessionObject, Finset.mem_union,
        List.mem_toFinset, List.mem_map]
      constructor
      · rintro (hold | ⟨_, hc, ⟨⟩⟩)
        · exact absurd rfl (Finset.mem_filter.mp hold).2
        · exact hc
      · exact fun hc => .inr ⟨i, hc, rfl⟩
    · obtain ⟨reason, he⟩ := completeSession_fails now categories hfind hpasses
      dsimp only
      rw [he]
      unfold rejectUpload
      obtain ⟨t, ht, hok⟩ := hinsert
        (sessionObject s s.expectedMimeType stored.content.length none .rejected now) b.db.usage
        rfl rfl
      rw [hok]
      refine .refused (fun h => hpasses h.1) rfl fun q hq => ?_
      obtain rfl := Option.some.inj ((Table.find_insert_self ht).symm.trans hq)
      simp [sessionObject]

end Completion

/-! ### The row -/

/-- What an import asks of the bytes of an entry. -/
structure BytesPass (env : Env) (entry : ImportObjectEntry) (data : Bytes) : Prop where
  nonempty : 1 ≤ data.length
  size : data.length ≤ maxSizeForCategory env.settings entry.category.str
  mime : mimeConsistent entry.mimeType (env.sniffMime (data.take env.headLength)) = true
  digest : ∀ s, entry.sha256 = some s → verifySha256 env data s = true

/-- An object in service as an entry describes it, of so many bytes. -/
structure ImportObjectEntry.Describes (entry : ImportObjectEntry) (size : ℕ) (o : MediaObject) :
    Prop where
  id : o.id = entry.id
  status : o.status = .uploaded
  filename : o.originalFilename = some (importedName entry.filename)
  category : o.category = entry.category
  visibility : o.visibility = entry.visibility
  mimeType : o.mimeType = entry.mimeType
  sizeBytes : o.sizeBytes = size
  sha256 : o.sha256 = entry.sha256

/-- A name an upload would have, and a type it may declare. -/
def ImportObjectEntry.Declared (env : Env) (entry : ImportObjectEntry) : Prop :=
  (∀ f, entry.filename = some f → PortableName env f) ∧
    isAllowedDeclaredMime entry.mimeType = true

/-- The id of the row is free, and its categories are the caller's. -/
structure RowReady (env : Env) (user : UserModel) (b : Backend) (id : UUID)
    (categories : List Category) : Prop where
  kept : WellKept env b.holdings
  object : b.db.objects.find id = none
  session : b.db.sessions.find id = none
  resolved : ∃ cs, resolveCategoryIds b.db user (categories.map Category.id) = .ok cs
  assigned : categories.length ≤ maxCategoryAssignments

section Row

variable {b : Backend} {ctx : RowContext} {entry : ImportObjectEntry} {categories : List Category}
  {paths : List String} {data : Bytes} {info : ZipInfo} {n : ℕ}

theorem validated_entryRequest (hnames : NameLaws env) (hentry : entry.Declared env) {size : ℕ}
    (hassigned : categories.length ≤ maxCategoryAssignments)
    (hcap : size ≤ maxSizeForCategory env.settings entry.category.str) :
    (entryRequest env entry size categories).validated env =
      if 1 ≤ size then some { entryRequest env entry size categories with
        originalFilename := importedName entry.filename } else none := by
  unfold UploadInitiateRequest.validated
  simp only [entryRequest, validate_sanitize hnames hentry.1, List.length_map]
  by_cases hpos : 1 ≤ size
  · rw [if_neg (by omega), if_pos hpos]
  · rw [if_pos (by omega), if_neg hpos]

theorem recordAndComplete_fst {staged : StagedUpload} {req : UploadInitiateRequest} {db : Database}
    (hrec : recordUploadSession b.db staged req ctx.recordedAt
      (ctx.recordedAt + seconds env.settings.s3PresignedUrlExpireSeconds) = .ok db) :
    (recordAndComplete env b ctx user entry staged req categories paths).1 =
      (completeUpload env { b with db := db } ctx.faults ctx.completedAt user staged.mediaId
        ⟨entry.sha256, some (categories.map Category.id)⟩).1 := by
  unfold recordAndComplete
  dsimp only
  rw [hrec]
  dsimp only
  split <;> rename_i he <;> rw [he]

theorem creates_recordAndComplete (hready : RowReady env user b entry.id categories)
    {staged : StagedUpload} {req : UploadInitiateRequest} {stored : StoredObject}
    (hstage : stageUpload env b.db user req entry.id = .ok staged)
    (hfind : b.storage.find staged.location = some stored)
    (hroom : RoomFor env.settings b.db.usage ⟨user.id, user.tenantId⟩ stored.content.length (n + 1))
    (hfaults : ctx.faults = Faults.none) :
    let s := stagedSession staged req ctx.recordedAt
      (ctx.recordedAt + seconds env.settings.s3PresignedUrlExpireSeconds)
    Creates (ContentPasses env s entry.sha256 stored.content ∧ ¬ ctx.Late env) entry.id
      (· = sessionObject s req.mimeType stored.content.length entry.sha256 .uploaded
        ctx.completedAt)
      (categories.map Category.id) b.db.usage
      (reserveStorageForObject env.settings b.db.usage ⟨user.id, user.tenantId⟩
        stored.content.length ctx.completedAt).1
      (recordAndComplete env b ctx user entry staged req categories paths).1.db := by
  intro s
  obtain ⟨hid, howner, htenant, -⟩ := stageUpload_ok hstage
  have hid : s.id = entry.id := hid
  have hscope : s.scope = ⟨user.id, user.tenantId⟩ := by
    show (⟨staged.ownerId, staged.tenantId⟩ : Scope) = _
    rw [howner, htenant]
  cases hrec : recordUploadSession b.db staged req ctx.recordedAt
      (ctx.recordedAt + seconds env.settings.s3PresignedUrlExpireSeconds) with
  | error e =>
    have htaken := (recordUploadSession_error_iff hready.kept hstage ctx.recordedAt
      (ctx.recordedAt + seconds env.settings.s3PresignedUrlExpireSeconds)).mp ⟨e, hrec⟩
    rw [hready.session] at htaken
    cases htaken
  | ok db =>
    have hk := (movesTo_recordUploadSession hstage hrec).wellKept hready.kept
    obtain ⟨-, t, ht, rfl⟩ := Database.insertSession_ok hrec
    obtain ⟨cs, hcs⟩ := hready.resolved
    have hsame : SameCategories b.db { b.db with sessions := t } := ⟨rfl, rfl⟩
    have hcs := (resolveCategoryIds_same hsame _).trans hcs
    have hgranted : (reserveStorageForObject env.settings b.db.usage s.scope stored.content.length
        ctx.completedAt).2 = none := by
      have hroom : RoomFor env.settings b.db.usage ⟨user.id, user.tenantId⟩
        (stored.content.length + 0) (n + 1) := hroom
      rw [hscope]
      exact (hroom.reserve ctx.completedAt).1
    have hcreates := creates_completeUpload hk (Table.find_insert_self ht : t.find s.id = some s)
      howner rfl (by rw [hid]; exact hready.object) hfind hcs hgranted entry.sha256
    rw [recordAndComplete_fst hrec, hfaults, show staged.mediaId = s.id from rfl, ← hscope, ← hid]
    exact hcreates.imp (and_congr_right' not_lt.symm) fun _ => id

/-- The checks of the completion, read over the entry. -/
theorem contentPasses_iff {s : UploadSession} (hexpected : s.expectedSizeBytes = data.length)
    (hcategory : s.category = entry.category) (hmime : s.expectedMimeType = entry.mimeType)
    (hpos : 1 ≤ data.length) :
    ContentPasses env s entry.sha256 data ↔ BytesPass env entry data := by
  constructor
  · rintro ⟨hsize, hconsistent, hdigest⟩
    rw [hcategory] at hsize
    rw [hmime] at hconsistent
    refine ⟨hpos, hsize.2, hconsistent, fun digest hd => hdigest digest hd ?_⟩
    rintro rfl
    simpa using entry.sha256_length "" hd
  · rintro ⟨-, hsize, hconsistent, hdigest⟩
    refine ⟨⟨hexpected.ge, hcategory ▸ hsize⟩, by rwa [hmime], fun digest hd _ => hdigest digest hd⟩

/-- Nothing failing and with room for its bytes, a row whose id is free creates its
object exactly if the bytes pass and the completion is not late. -/
theorem creates_importOneFile (hnames : NameLaws env) (hentry : entry.Declared env)
    (hready : RowReady env user b entry.id categories)
    (hroom : RoomFor env.settings b.db.usage ⟨user.id, user.tenantId⟩ data.length (n + 1))
    (hfaults : ctx.faults = Faults.none) (hdata : info.data = some data)
    (hsize : info.fileSize = data.length) :
    Creates (BytesPass env entry data ∧ ¬ ctx.Late env) entry.id (entry.Describes data.length)
      (categories.map Category.id) b.db.usage
      (reserveStorageForObject env.settings b.db.usage ⟨user.id, user.tenantId⟩ data.length
        ctx.completedAt).1
      (importOneFile env b ctx user (some info) entry categories paths).1.db := by
  have hstopped : ∀ {P : Prop}, ¬ P → Creates P entry.id (entry.Describes data.length)
      (categories.map Category.id) b.db.usage
      (reserveStorageForObject env.settings b.db.usage ⟨user.id, user.tenantId⟩ data.length
        ctx.completedAt).1 b.db := by
    intro P hnot
    refine .refused hnot rfl fun o ho => ?_
    cases hready.object.symm.trans ho
  unfold importOneFile importNewFile
  rw [importableMatch_eq_none.mpr hready.object]
  dsimp only
  rw [if_neg (by simp [hentry.2]), hsize]
  by_cases hcap : data.length > maxSizeForCategory env.settings entry.category.str
  · rw [if_pos hcap]
    exact hstopped fun h => not_le.mpr hcap h.1.size
  · rw [if_neg hcap, validated_entryRequest hnames hentry hready.assigned (not_lt.mp hcap)]
    by_cases hpos : 1 ≤ data.length
    · rw [if_pos hpos]
      dsimp only
      set req : UploadInitiateRequest := { entryRequest env entry data.length categories with
        originalFilename := importedName entry.filename } with hreq
      obtain ⟨cs, hcs⟩ := hready.resolved
      obtain ⟨staged, hstage⟩ : ∃ staged, stageUpload env b.db user req entry.id = .ok staged :=
        ⟨_, stageUpload_eq_ok.mpr ⟨hentry.2, hroom.checkQuota le_rfl, cs, hcs, rfl⟩⟩
      have hput : (info.read.bind fun data =>
          b.storage.putObjectStream ctx.faults staged.location data entry.mimeType) =
            some (b.storage.put ⟨staged.location, data, entry.mimeType⟩) := by
        simp [ZipInfo.read, hdata, hsize, hfaults, Storage.putObjectStream, Faults.none]
      rw [hstage]
      dsimp only
      rw [hput]
      have hkept := (movesTo_put b data entry.mimeType (location_ne_staged hready.kept hstage
        hready.object)).wellKept hready.kept
      have hfind : (b.storage.put ⟨staged.location, data, entry.mimeType⟩).find staged.location =
          some ⟨staged.location, data, entry.mimeType⟩ := by
        simp [Table.find_put]
      have hcreates := @creates_recordAndComplete env user
        ⟨b.db, b.storage.put ⟨staged.location, data, entry.mimeType⟩⟩ ctx entry categories paths n
        ⟨hkept, hready.object, hready.session, hready.resolved, hready.assigned⟩ staged req _ hstage
        hfind hroom hfaults
      refine hcreates.imp (and_congr_left' (contentPasses_iff rfl rfl rfl hpos)) ?_
      rintro _ rfl
      exact ⟨(stageUpload_ok hstage).1, rfl, rfl, rfl, rfl, rfl, rfl, rfl⟩
    · rw [if_neg hpos]
      exact hstopped fun h => hpos h.1.nonempty

theorem importOneFile_absent (hnone : b.db.objects.find entry.id = none) :
    (importOneFile env b ctx user none entry categories paths).1 = b := by
  unfold importOneFile
  rw [importableMatch_eq_none.mpr hnone]

end Row

/-! ### The batch -/

/-- What there is of an object in the end, whether it was created or not. -/
def Stands (passes : Prop) (id : UUID) (describes : MediaObject → Prop) (ids : List ℤ)
    (db : Database) : Prop :=
  passes ∧ (∃ o, db.objects.find id = some o ∧ describes o) ∧
      (∀ i, (id, i) ∈ db.links ↔ i ∈ ids) ∨
    ¬ passes ∧ ∀ o, db.objects.find id = some o → o.status ≠ .uploaded

theorem Creates.stands {passes : Prop} {id : UUID} {describes : MediaObject → Prop} {ids : List ℤ}
    {before after : UsageTable} {db : Database}
    (h : Creates passes id describes ids before after db) : Stands passes id describes ids db := by
  cases h with
  | refused hnot _ hobjects => exact .inr ⟨hnot, hobjects⟩
  | created hpasses _ hfind ho hlinks => exact .inl ⟨hpasses, ⟨_, hfind, ho⟩, hlinks⟩

/-- Rows of other ids leave it standing. -/
theorem Stands.frame {passes : Prop} {id id' : UUID} {describes : MediaObject → Prop}
    {ids : List ℤ} {db db' : Database} (h : Stands passes id describes ids db)
    (hf : RowFrame env user id' db db') (hne : id ≠ id') : Stands passes id describes ids db' := by
  unfold Stands at h ⊢
  simp only [hf.object id hne, hf.links id _ hne]
  exact h

/-- What an entry of the archive takes of the quota: bytes, and whether it counts. -/
def entryBytes (env : Env) (infolist : List ZipInfo) (entry : ImportObjectEntry) : ℕ :=
  ((fileEntry env infolist entry.id).map ZipInfo.fileSize).getD 0

def entryCount (env : Env) (infolist : List ZipInfo) (entry : ImportObjectEntry) : ℕ :=
  if (fileEntry env infolist entry.id).isSome then 1 else 0

/-- No id of the rows to come is taken, and there is room for all of them. -/
structure BatchReady (env : Env) (user : UserModel) (tree : RecreatedTree)
    (infolist : List ZipInfo) (b : Backend) (entries : List ImportObjectEntry) : Prop where
  kept : WellKept env b.holdings
  objects : ∀ entry ∈ entries, b.db.objects.find entry.id = none
  sessions : ∀ entry ∈ entries, b.db.sessions.find entry.id = none
  resolved : ∀ entry ∈ entries, ∀ categories, categoriesFor env tree entry = .ok categories →
    ∃ cs, resolveCategoryIds b.db user (categories.map Category.id) = .ok cs
  room : RoomFor env.settings b.db.usage ⟨user.id, user.tenantId⟩
    (entries.map (entryBytes env infolist)).sum (entries.map (entryCount env infolist)).sum

/-- Every entry of the archive reads as the bytes it declares. -/
def ReadsWhole (env : Env) (infolist : List ZipInfo) (entry : ImportObjectEntry) : Prop :=
  ∀ info, fileEntry env infolist entry.id = some info →
    ∃ data, info.data = some data ∧ info.fileSize = data.length

section Batch

variable {tree : RecreatedTree} {infolist : List ZipInfo} {ctx : ℕ → RowContext}

/-- An entry whose bytes are in the archive stands as its row left it. -/
def RowStands (env : Env) (tree : RecreatedTree) (infolist : List ZipInfo) (ctx : RowContext)
    (entry : ImportObjectEntry) (db : Database) : Prop :=
  ∀ info data, fileEntry env infolist entry.id = some info → info.data = some data →
    ∃ categories, categoriesFor env tree entry = .ok categories ∧
      Stands (BytesPass env entry data ∧ ¬ ctx.Late env) entry.id (entry.Describes data.length)
        (categories.map Category.id) db

/-- One row of a batch that is ready: it is reported, stands, and leaves the rest ready. -/
theorem BatchReady.row {b : Backend} {ctx : RowContext} {entry : ImportObjectEntry}
    {entries : List ImportObjectEntry} {categories : List Category} (paths : List String)
    (h : BatchReady env user tree infolist b (entry :: entries)) (hnames : NameLaws env)
    (hentry : entry.Declared env) (hreads : ReadsWhole env infolist entry)
    (hfresh : entry.id ∉ entries.map ImportObjectEntry.id) (hfaults : ctx.faults = Faults.none)
    (hcat : categoriesFor env tree entry = .ok categories) :
    ∃ b' res, importOneFile env b ctx user (fileEntry env infolist entry.id) entry categories
        paths = (b', .ok res) ∧
      RowStands env tree infolist ctx entry b'.db ∧
      BatchReady env user tree infolist b' entries := by
  have hready : RowReady env user b entry.id categories :=
    ⟨h.kept, h.objects entry List.mem_cons_self, h.sessions entry List.mem_cons_self,
      h.resolved entry List.mem_cons_self categories hcat, length_categoriesFor hcat⟩
  obtain ⟨res, hres⟩ := (@importOneFile_ok_iff env b ctx user entry categories paths h.kept
    (fileEntry env infolist entry.id)).mpr fun _ => hready.session
  have hkept := (movesTo_importOneFile h.kept ctx user (fileEntry env infolist entry.id) entry
    categories paths).wellKept h.kept
  have hroom := h.room
  have houtcome : RowStands env tree infolist ctx entry
        (importOneFile env b ctx user (fileEntry env infolist entry.id) entry categories
          paths).1.db ∧
      RoomFor env.settings (importOneFile env b ctx user (fileEntry env infolist entry.id) entry
        categories paths).1.db.usage ⟨user.id, user.tenantId⟩
        (entries.map (entryBytes env infolist)).sum
        (entries.map (entryCount env infolist)).sum := by
    rw [List.map_cons, List.map_cons, List.sum_cons, List.sum_cons, entryBytes, entryCount] at hroom
    unfold RowStands
    cases hinfo : fileEntry env infolist entry.id with
    | none =>
      rw [importOneFile_absent hready.object]
      exact ⟨nofun, hroom.mono (by omega) (by omega)⟩
    | some info =>
      obtain ⟨data, hdata, hsize⟩ := hreads info hinfo
      rw [hinfo, Option.map_some, Option.getD_some, Option.isSome_some, if_pos rfl, hsize,
        Nat.add_comm 1] at hroom
      have hcreates := @creates_importOneFile env user b ctx entry categories paths data info _
        hnames hentry hready (hroom.mono (Nat.le_add_right _ _) le_rfl) hfaults hdata hsize
      refine ⟨?_, ?_⟩
      · rintro _ _ ⟨⟩ hdata'
        cases hdata.symm.trans hdata'
        exact ⟨categories, hcat, hcreates.stands⟩
      · cases hcreates with
        | refused _ husage _ =>
          rw [husage]
          exact hroom.mono (Nat.le_add_left _ _) (Nat.le_succ _)
        | created _ husage _ _ _ =>
          rw [husage]
          exact (hroom.reserve ctx.completedAt).2
  generalize hrow : importOneFile env b ctx user (fileEntry env infolist entry.id) entry categories
    paths = r at hres hkept houtcome
  obtain ⟨b', answer⟩ := r
  cases hres
  have hframe := (importOneFile_done hfaults hrow).frame
  have hne : ∀ e ∈ entries, e.id ≠ entry.id := by
    rintro e he hid
    exact hfresh (hid ▸ List.mem_map_of_mem he)
  refine ⟨b', res, rfl, houtcome.1, hkept, ?_, ?_, ?_, houtcome.2⟩
  · intro e he
    rw [hframe.object e.id (hne e he)]
    exact h.objects e (List.mem_cons_of_mem entry he)
  · intro e he
    rw [hframe.session e.id (hne e he)]
    exact h.sessions e (List.mem_cons_of_mem entry he)
  · intro e he cs hcs
    rw [resolveCategoryIds_same hframe.categories]
    exact h.resolved e (List.mem_cons_of_mem entry he) cs hcs

theorem RowStands.frame {ctx : RowContext} {entry : ImportObjectEntry} {id : UUID}
    {db db' : Database} (h : RowStands env tree infolist ctx entry db)
    (hf : RowFrame env user id db db') (hne : entry.id ≠ id) :
    RowStands env tree infolist ctx entry db' := by
  intro info data hinfo hdata
  obtain ⟨categories, hcat, hstands⟩ := h info data hinfo hdata
  exact ⟨categories, hcat, hstands.frame hf hne⟩

/-- A batch that is ready is reported, and every entry stands in the end as its row
left it. -/
theorem BatchReady.importRows {b : Backend} {entries : List ImportObjectEntry}
    (h : BatchReady env user tree infolist b entries) (hnames : NameLaws env)
    (hdeclared : ∀ entry ∈ entries, entry.Declared env)
    (hreads : ∀ entry ∈ entries, ReadsWhole env infolist entry)
    (hids : (entries.map ImportObjectEntry.id).Nodup) (hfaults : ∀ i, (ctx i).faults = Faults.none)
    (hfound : ∀ entry ∈ entries, (∃ categories, categoriesFor env tree entry = .ok categories) ∧
      ∃ paths, entryPaths env entry = .ok paths) (i : ℕ) :
    ∃ b' results, MediaService.importRows env tree ctx (fun b ctx entry categories paths =>
        importOneFile env b ctx user (fileEntry env infolist entry.id) entry categories paths)
        i b entries = (b', .ok results) ∧ SameCategories b.db b'.db ∧
      ∀ n entry, entries[n]? = some entry →
        RowStands env tree infolist (ctx (i + n)) entry b'.db := by
  induction entries generalizing b i with
  | nil => exact ⟨b, [], rfl, .refl b.db, nofun⟩
  | cons entry entries ih =>
    rw [List.map_cons, List.nodup_cons] at hids
    obtain ⟨⟨categories, hcat⟩, paths, hpaths⟩ := hfound entry List.mem_cons_self
    obtain ⟨b₁, res, hrow, hstands, hready⟩ := h.row paths hnames
      (hdeclared entry List.mem_cons_self) (hreads entry List.mem_cons_self) hids.1 (hfaults i) hcat
    obtain ⟨b', results, hrest, hsame, hall⟩ := ih hready
      (fun e he => hdeclared e (List.mem_cons_of_mem entry he))
      (fun e he => hreads e (List.mem_cons_of_mem entry he)) hids.2
      (fun e he => hfound e (List.mem_cons_of_mem entry he)) (i + 1)
    have hlast : RowStands env tree infolist (ctx i) entry b'.db := by
      refine importRows_keeps (rowLaw_archive env user infolist) hfaults
        (fun hid hf hs => hs.frame hf ?_) hrest hstands
      rintro rfl
      exact hids.1 hid
    have hfirst := (importOneFile_done (hfaults i) hrow).frame.categories
    refine ⟨b', (res :: results), ?_, hfirst.trans hsame, fun n e hn => ?_⟩
    · rw [MediaService.importRows, hcat, hpaths]
      dsimp only
      rw [hrow]
      dsimp only
      rw [hrest]
    · cases n with
      | zero =>
        cases hn
        exact hlast
      | succ n =>
        rw [← Nat.succ_add_eq_add_succ]
        exact hall n e hn

end Batch

end MediaService
