import MediaService.Lifecycle.Categories

/-! What a request can write. Each request writes the tables of its kind and leaves the
others as they are, refused or not, so an invariant of some tables is checked against
the requests that write them. -/

namespace MediaService

open Foundation

variable {env : Env} {w : World} {r : Request}

/-! ### Tables -/

inductive TableName where
  | objects | sessions | usage | categories | links | variants | variantJobs | exportJobs
  | shares | presets | outbox
  deriving DecidableEq

/-- The table is as it was; the category sequence belongs to its table. -/
def SameTable (db db' : Database) : TableName → Prop
  | .objects => db'.objects = db.objects
  | .sessions => db'.sessions = db.sessions
  | .usage => db'.usage = db.usage
  | .categories => db'.categories = db.categories ∧ db'.categorySeq = db.categorySeq
  | .links => db'.links = db.links
  | .variants => db'.variants = db.variants
  | .variantJobs => db'.variantJobs = db.variantJobs
  | .exportJobs => db'.exportJobs = db.exportJobs
  | .shares => db'.shares = db.shares
  | .presets => db'.presets = db.presets
  | .outbox => db'.outbox = db.outbox

/-- Nothing outside these tables differs. -/
def WritesOnly (tables : List TableName) (db db' : Database) : Prop :=
  ∀ t, t ∉ tables → SameTable db db' t

theorem WritesOnly.refl (tables : List TableName) (db : Database) : WritesOnly tables db db := by
  intro t _
  cases t <;> first | rfl | exact ⟨rfl, rfl⟩

theorem SameTable.trans {db db' db'' : Database} {t : TableName} (h : SameTable db db' t)
    (h' : SameTable db' db'' t) : SameTable db db'' t := by
  cases t with
  | categories => exact ⟨h'.1.trans h.1, h'.2.trans h.2⟩
  | _ => exact Eq.trans h' h

theorem WritesOnly.trans {tables : List TableName} {db db' db'' : Database}
    (h : WritesOnly tables db db') (h' : WritesOnly tables db' db'') :
    WritesOnly tables db db'' :=
  fun t ht => (h t ht).trans (h' t ht)

theorem WritesOnly.mono {tables tables' : List TableName} {db db' : Database}
    (h : WritesOnly tables db db') (hsub : ∀ t ∈ tables, t ∈ tables') :
    WritesOnly tables' db db' :=
  fun t ht => h t fun hmem => ht (hsub t hmem)

theorem writesOnly_withDb {tables : List TableName} {b : Backend} {x : Except Failure Database}
    (hx : ∀ db, x = .ok db → WritesOnly tables b.db db) :
    WritesOnly tables b.db (b.withDb x).db := by
  cases x with
  | error e => exact .refl _ _
  | ok db => exact hx db rfl

/-! ### Writes of one kind -/

section Kinds

variable (db : Database)

/-- Rows of the upload flow, and what goes with an object. -/
theorem writesOnly_uploads (objects : Table MediaObject.id) (sessions : Table UploadSession.id)
    (usage : UsageTable) (links : Finset (UUID × ℤ)) :
    WritesOnly [.objects, .sessions, .usage, .links] db { db with
      objects := objects
      sessions := sessions
      usage := usage
      links := links } := by
  intro t ht
  cases t with
  | objects | sessions | usage | links => exact absurd (by decide) ht
  | categories => exact ⟨rfl, rfl⟩
  | _ => rfl

theorem writesOnly_sessions (sessions : Table UploadSession.id) :
    WritesOnly [.sessions] db { db with sessions := sessions } := by
  intro t ht
  cases t with
  | sessions => exact absurd (by decide) ht
  | categories => exact ⟨rfl, rfl⟩
  | _ => rfl

theorem writesOnly_patched (objects : Table MediaObject.id) (links : Finset (UUID × ℤ)) :
    WritesOnly [.objects, .links] db { db with objects := objects, links := links } := by
  intro t ht
  cases t with
  | objects | links => exact absurd (by decide) ht
  | categories => exact ⟨rfl, rfl⟩
  | _ => rfl

theorem writesOnly_judged (objects : Table MediaObject.id) (outbox : List OutboxEvent) :
    WritesOnly [.objects, .outbox] db { db with objects := objects, outbox := outbox } := by
  intro t ht
  cases t with
  | objects | outbox => exact absurd (by decide) ht
  | categories => exact ⟨rfl, rfl⟩
  | _ => rfl

theorem writesOnly_softDeleted (objects : Table MediaObject.id) (usage : UsageTable)
    (outbox : List OutboxEvent) :
    WritesOnly [.objects, .usage, .outbox] db { db with
      objects := objects
      usage := usage
      outbox := outbox } := by
  intro t ht
  cases t with
  | objects | usage | outbox => exact absurd (by decide) ht
  | categories => exact ⟨rfl, rfl⟩
  | _ => rfl

theorem writesOnly_usage (usage : UsageTable) :
    WritesOnly [.usage] db { db with usage := usage } := by
  intro t ht
  cases t with
  | usage => exact absurd (by decide) ht
  | categories => exact ⟨rfl, rfl⟩
  | _ => rfl

theorem writesOnly_purged (objects : Table MediaObject.id) (links : Finset (UUID × ℤ))
    (variants : Table MediaVariant.id) (variantJobs : Table VariantJob.id)
    (shares : Table ShareToken.id) :
    WritesOnly [.objects, .links, .variants, .variantJobs, .shares] db { db with
      objects := objects
      links := links
      variants := variants
      variantJobs := variantJobs
      shares := shares } := by
  intro t ht
  cases t with
  | objects | links | variants | variantJobs | shares => exact absurd (by decide) ht
  | categories => exact ⟨rfl, rfl⟩
  | _ => rfl

theorem writesOnly_shares (shares : Table ShareToken.id) :
    WritesOnly [.shares] db { db with shares := shares } := by
  intro t ht
  cases t with
  | shares => exact absurd (by decide) ht
  | categories => exact ⟨rfl, rfl⟩
  | _ => rfl

theorem writesOnly_presets (presets : Table ImagePreset.id) :
    WritesOnly [.presets] db { db with presets := presets } := by
  intro t ht
  cases t with
  | presets => exact absurd (by decide) ht
  | categories => exact ⟨rfl, rfl⟩
  | _ => rfl

theorem writesOnly_variantJobs (variantJobs : Table VariantJob.id) :
    WritesOnly [.variantJobs] db { db with variantJobs := variantJobs } := by
  intro t ht
  cases t with
  | variantJobs => exact absurd (by decide) ht
  | categories => exact ⟨rfl, rfl⟩
  | _ => rfl

theorem writesOnly_registered (variants : Table MediaVariant.id) (outbox : List OutboxEvent) :
    WritesOnly [.variants, .outbox] db { db with variants := variants, outbox := outbox } := by
  intro t ht
  cases t with
  | variants | outbox => exact absurd (by decide) ht
  | categories => exact ⟨rfl, rfl⟩
  | _ => rfl

theorem writesOnly_variants (variants : Table MediaVariant.id) :
    WritesOnly [.variants] db { db with variants := variants } := by
  intro t ht
  cases t with
  | variants => exact absurd (by decide) ht
  | categories => exact ⟨rfl, rfl⟩
  | _ => rfl

theorem writesOnly_exportJobs (exportJobs : Table ExportJob.id) :
    WritesOnly [.exportJobs] db { db with exportJobs := exportJobs } := by
  intro t ht
  cases t with
  | exportJobs => exact absurd (by decide) ht
  | categories => exact ⟨rfl, rfl⟩
  | _ => rfl

end Kinds

/-! ### Operations -/

theorem OnlyCategories.writesOnly {db db' : Database} (h : OnlyCategories db db') :
    WritesOnly [.categories, .links] db db' := by
  obtain ⟨categories, categorySeq, links, rfl⟩ := h
  intro t ht
  cases t with
  | categories | links => exact absurd (by decide) ht
  | _ => rfl

theorem writesOnly_completeUpload (b : Backend) (faults : Faults) (now : Timestamp)
    (user : UserModel) (sessionId : UUID) (req : UploadCompleteRequest) :
    WritesOnly [.objects, .sessions, .usage, .links] b.db
      (completeUpload env b faults now user sessionId req).1.db := by
  have hends := ends_completeUpload env b faults now user sessionId req
  generalize completeUpload env b faults now user sessionId req = r at hends ⊢
  cases hends with
  | refused _ _ hdb =>
    rcases hdb with rfl | ⟨s, -, -, -, rfl⟩
    · exact .refl _ _
    · exact writesOnly_uploads b.db _ _ _ _
  | rejected => exact writesOnly_uploads b.db _ _ _ _
  | promoted => exact writesOnly_uploads b.db _ _ _ _

theorem writesOnly_purgeObjects (faults : Faults) (b : Backend) (os : List MediaObject) :
    WritesOnly [.objects, .links, .variants, .variantJobs, .shares] b.db
      (os.foldl (purgeObject faults) b).db := by
  induction os generalizing b with
  | nil => exact .refl _ _
  | cons o os ih =>
    refine WritesOnly.trans ?_ (ih _)
    unfold purgeObject
    split
    · exact .refl _ _
    · exact writesOnly_purged b.db _ _ _ _ _

theorem writesOnly_fileInto (db : Database) (now : Timestamp) (o : MediaObject)
    (categories : List Category) :
    WritesOnly [.objects, .sessions, .usage, .links] db (fileInto db now o categories) := by
  unfold fileInto
  dsimp only
  split
  · exact .refl _ _
  · exact writesOnly_uploads db _ _ _ _

theorem writesOnly_recordAndComplete (b : Backend) (ctx : RowContext) (user : UserModel)
    (entry : ImportObjectEntry) (staged : StagedUpload) (req : UploadInitiateRequest)
    (categories : List Category) (paths : List String) :
    WritesOnly [.objects, .sessions, .usage, .links] b.db
      (recordAndComplete env b ctx user entry staged req categories paths).1.db := by
  unfold recordAndComplete
  dsimp only
  split
  · exact .refl _ _
  · rename_i db hrec
    obtain ⟨-, t, -, rfl⟩ := Database.insertSession_ok hrec
    have hopened : WritesOnly [.objects, .sessions, .usage, .links] b.db
        { b.db with sessions := t } := writesOnly_uploads b.db _ _ _ _
    have hc := @writesOnly_completeUpload env ⟨{ b.db with sessions := t }, b.storage⟩
      ctx.faults ctx.completedAt user staged.mediaId
      ⟨entry.sha256, some (categories.map Category.id)⟩
    split <;> rename_i he <;> rw [he] at hc <;> exact hopened.trans hc

theorem writesOnly_importOneFile (b : Backend) (ctx : RowContext) (user : UserModel)
    (info : Option ZipInfo) (entry : ImportObjectEntry) (categories : List Category)
    (paths : List String) :
    WritesOnly [.objects, .sessions, .usage, .links] b.db
      (importOneFile env b ctx user info entry categories paths).1.db := by
  rcases importOneFile_cases env b ctx user info entry categories paths with
    ⟨_, _, _, he⟩ | ⟨_, _, he⟩ | ⟨o, _, he⟩ | ⟨zip, req, staged, _, _, _, hput⟩
  · rw [he]
    exact .refl _ _
  · rw [he]
    exact .refl _ _
  · rw [he]
    exact writesOnly_fileInto _ _ _ _
  · rcases hput with ⟨_, _, _, he⟩ | ⟨data, st, -, he⟩
    · rw [he]
      exact .refl _ _
    · rw [he]
      exact writesOnly_recordAndComplete ⟨b.db, st⟩ _ _ _ _ _ _ _

theorem writesOnly_importManifestEntry (b : Backend) (ctx : RowContext) (user : UserModel)
    (entry : ImportObjectEntry) (categories : List Category) (paths : List String) :
    WritesOnly [.objects, .sessions, .usage, .links] b.db
      (importManifestEntry b ctx user entry categories paths).1.db := by
  unfold importManifestEntry
  split
  · exact .refl _ _
  · exact .refl _ _
  · exact writesOnly_fileInto _ _ _ _

/-- The tables an import writes. -/
def importTables : List TableName := [.objects, .sessions, .usage, .categories, .links]

theorem writesOnly_runImport (env : Env) (b : Backend) (ctx : ℕ → RowContext) (user : UserModel)
    (source : ImportSource) :
    WritesOnly importTables b.db (runImport env b ctx user source).1.db := by
  refine runImport_inv (I := fun b' : Backend => WritesOnly importTables b.db b'.db) (.refl _ _)
    ?_ fun _ _ i b' entry _ categories paths _ hb => ⟨?_, fun info => ?_⟩
  · exact (onlyCategories_recreateTree env b.db user source.document).writesOnly.mono (by decide)
  · exact hb.trans ((writesOnly_importManifestEntry b' (ctx i) user entry categories paths).mono
      (by decide))
  · exact hb.trans ((writesOnly_importOneFile b' (ctx i) user info entry categories paths).mono
      (by decide))

/-! ### Links and jobs -/

theorem loadActiveShare_ok {db : Database} {now : Timestamp} {tokenId : UUID} {share : ShareToken}
    (h : loadActiveShare db now tokenId = .ok share) :
    db.shares.find tokenId = some share ∧ share.revoked = false ∧ now < share.expiresAt ∧
      share.maxUses.all (share.uses < ·) = true := by
  unfold loadActiveShare at h
  split at h
  · exact absurd h refuse_ne_ok
  · rename_i share' hfind
    split at h
    · exact absurd h refuse_ne_ok
    · rename_i hlive
      split at h
      · exact absurd h refuse_ne_ok
      · rename_i hlater
        split at h
        · exact absurd h refuse_ne_ok
        · rename_i hleft
          cases h
          refine ⟨hfind, by simpa using hlive, lt_of_not_ge hlater, ?_⟩
          cases hmax : share.maxUses with
          | none => rfl
          | some n => simpa [hmax] using hleft

/-- A link that is minted is a new row for the caller's live object. -/
theorem createShare_inserts {settings : Settings} {db db' : Database} {now : Timestamp}
    {tokenId : UUID} {user : UserModel} {objectId : UUID} {body : ShareTokenCreate}
    {share : ShareToken}
    (h : createShare settings db now tokenId user objectId body = .ok (db', share)) :
    ∃ o t, loadObject db user objectId false = .ok o ∧ share.id = tokenId ∧
      share.mediaObjectId = o.id ∧ share.ownerUserId = o.ownerUserId ∧
      share.tenantId = o.tenantId ∧ share.maxUses = body.maxUses ∧ share.uses = 0 ∧
      share.revoked = false ∧ share.createdAt = now ∧
      share.expiresAt =
        now + seconds (body.expiresIn.getD settings.mediaShareDefaultExpiresSeconds) ∧
      (∀ n, body.expiresIn = some n → n ≤ settings.mediaShareMaxExpiresSeconds) ∧
      db.shares.insert share = some t ∧ db' = { db with shares := t } := by
  unfold createShare at h
  split at h
  · cases h
  · rename_i o hload
    dsimp only at h
    split at h
    · exact absurd h refuse_ne_ok
    · rename_i hmax
      split at h
      · cases h
      · rename_i t ht
        cases h
        refine ⟨o, t, hload, rfl, rfl, rfl, rfl, rfl, rfl, rfl, rfl, rfl, fun n hn => ?_, ht, rfl⟩
        rw [hn] at hmax
        simpa using hmax

/-- A revocation writes over one link, which stays itself. -/
theorem revokeShare_updates {db db' : Database} {user : UserModel} {tokenId : UUID}
    (h : revokeShare db user tokenId = .ok db') :
    ∃ share, db.shares.find tokenId = some share ∧
      (user.isSuperuser = true ∨ share.ownerUserId = user.id) ∧
      db' = { db with shares := db.shares.update { share with revoked := true } } := by
  unfold revokeShare loadOwnedShare at h
  split at h
  · cases h
  · rename_i share hload
    split at hload
    · exact absurd hload refuse_ne_ok
    · rename_i share' hfind
      split at hload
      · exact absurd hload refuse_ne_ok
      · rename_i hown
        cases hload
        refine ⟨share, hfind, ?_, ?_⟩
        · by_cases hs : user.isSuperuser = true
          · exact .inl hs
          · exact .inr (by simpa [hs] using hown)
        · split at h
          · rename_i hrevoked
            cases h
            have hsame : ({ share with revoked := true } : ShareToken) = share := by
              rw [← hrevoked]
            rw [hsame, Table.update_self (Table.find_of_mem (Table.mem_of_find hfind))]
          · cases h
            rfl

/-- A resolution counts one use of a live link, and changes nothing else. -/
theorem resolveShare_updates {settings : Settings} {db db' : Database} {now : Timestamp}
    {tokenId : UUID} {url : DownloadUrl}
    (h : resolveShare settings db now tokenId = .ok (db', url)) :
    ∃ share, loadActiveShare db now tokenId = .ok share ∧
      db' = { db with shares := db.shares.update { share with uses := share.uses + 1 } } := by
  unfold resolveShare at h
  split at h
  · cases h
  · rename_i share hload
    split at h
    · exact absurd h refuse_ne_ok
    · split at h
      · exact absurd h refuse_ne_ok
      · split at h
        · exact absurd h refuse_ne_ok
        · split at h
          · exact absurd h refuse_ne_ok
          · rename_i db₁ hconsume
            cases h
            refine ⟨share, hload, ?_⟩
            have hfind := (loadActiveShare_ok hload).1
            unfold consumeUse at hconsume
            rw [Table.key_of_find hfind, hfind] at hconsume
            dsimp only at hconsume
            split at hconsume
            · exact (Option.some.inj hconsume).symm
            · cases hconsume

/-- A job that is queued is a new row for the caller's live object. -/
theorem generateVariants_inserts {db db' : Database} {now : Timestamp} {jobId : UUID}
    {user : UserModel} {objectId : UUID} {req : VariantGenerateRequest} {job : VariantJobPayload}
    (h : generateVariants env db now jobId user objectId req = .ok (db', job)) :
    ∃ o j t, loadObject db user objectId false = .ok o ∧ j.id = jobId ∧
      j.mediaObjectId = o.id ∧ j.ownerUserId = o.ownerUserId ∧ j.tenantId = o.tenantId ∧
      db.variantJobs.insert j = some t ∧ db' = { db with variantJobs := t } := by
  unfold generateVariants at h
  split at h
  · cases h
  · rename_i o hload
    split at h
    · exact absurd h refuse_ne_ok
    · split at h
      · exact absurd h refuse_ne_ok
      · split at h
        · cases h
        · split at h
          · cases h
          · rename_i t ht
            cases h
            exact ⟨o, _, t, hload, rfl, rfl, rfl, rfl, ht, rfl⟩

/-! ### Requests -/

/-- The tables a request writes, if any. -/
def Request.tables : Request → List TableName
  | .initiate .. | .abort .. | .purgeStale .. => [.sessions]
  | .complete .. => [.objects, .sessions, .usage, .links]
  | .update .. => [.objects, .links]
  | .delete .. => [.objects, .usage, .outbox]
  | .scanResult .. => [.objects, .outbox]
  | .getQuota .. | .setQuota .. => [.usage]
  | .hardPurge .. => [.objects, .links, .variants, .variantJobs, .shares]
  | .category .. => [.categories, .links]
  | .createShare .. | .revokeShare .. | .resolveShare .. => [.shares]
  | .createPreset .. | .updatePreset .. | .deletePreset .. => [.presets]
  | .generate .. | .updateVariantJob .. => [.variantJobs]
  | .registerVariant .. => [.variants, .outbox]
  | .deleteVariant .. => [.variants]
  | .startExport .. | .failUnqueuedExport .. | .updateExportJob .. => [.exportJobs]
  | .importCollection .. => importTables
  | .post .. | .reconcile .. | .writeVariant .. | .writeArchive .. => []

theorem writesOnly_createPreset {db db' : Database} {presetId : UUID} {user : UserModel}
    {body : ImagePresetCreate} (h : createPreset db presetId user body = .ok db') :
    WritesOnly [.presets] db db' := by
  unfold createPreset at h
  split at h
  · exact absurd h refuse_ne_ok
  · split at h <;> cases h
    exact writesOnly_presets db _

theorem writesOnly_updatePreset {db db' : Database} {user : UserModel} {presetId : UUID}
    {spec : PresetSpec} (h : updatePreset db user presetId spec = .ok db') :
    WritesOnly [.presets] db db' := by
  unfold updatePreset at h
  split at h <;> cases h
  exact writesOnly_presets db _

theorem writesOnly_deletePreset {db db' : Database} {user : UserModel} {presetId : UUID}
    (h : deletePreset db user presetId = .ok db') : WritesOnly [.presets] db db' := by
  unfold deletePreset at h
  split at h <;> cases h
  exact writesOnly_presets db _

theorem writesOnly_updateVariantJob {db db' : Database} {now : Timestamp} {jobId : UUID}
    {body : VariantJobUpdate} (h : updateVariantJob db now jobId body = .ok db') :
    WritesOnly [.variantJobs] db db' := by
  unfold updateVariantJob at h
  split at h
  · exact absurd h refuse_ne_ok
  · cases h
    exact writesOnly_variantJobs db _

theorem writesOnly_updateExportJob {settings : Settings} {db db' : Database} {now : Timestamp}
    {jobId : UUID} {body : ExportJobUpdate}
    (h : updateExportJob settings db now jobId body = .ok db') :
    WritesOnly [.exportJobs] db db' := by
  unfold updateExportJob at h
  split at h
  · exact absurd h refuse_ne_ok
  · split at h <;> cases h
    exact writesOnly_exportJobs db _

/-- A request writes no other table than those of its kind. -/
theorem writesOnly_answer (env : Env) (w : World) (r : Request) :
    WritesOnly r.tables w.backend.db (answer env w r).db := by
  cases r with
  | initiate faults now mediaId user body =>
    refine writesOnly_withDb fun db' h => ?_
    obtain ⟨form, h⟩ := Except.map_fst_ok h
    obtain ⟨req, staged, -, -, -, hrec⟩ := initiateUpload_ok h
    obtain ⟨-, t, -, rfl⟩ := Database.insertSession_ok hrec
    exact writesOnly_sessions _ t
  | post now form content =>
    simp only [answer]
    split <;> exact .refl _ _
  | complete faults now user sessionId body =>
    exact writesOnly_completeUpload _ faults now user sessionId body
  | abort faults user sessionId =>
    simp only [answer, abortUpload]
    split
    · exact .refl _ _
    · split
      · exact .refl _ _
      · exact writesOnly_sessions w.backend.db _
  | update faults commitFails now user objectId body =>
    simp only [answer]
    rcases updateObject_cases env w.backend faults commitFails now user objectId body with
      ⟨e, st, he, -⟩ | ⟨u, o, st, bucket, categories, db', o', -, -, -, -, hpatch, he⟩
    · rw [he]
      exact .refl _ _
    · rw [he]
      obtain ⟨-, links, rfl⟩ := patchedDatabase_ok hpatch
      exact writesOnly_patched w.backend.db _ _
  | delete faults commitFails now user objectId =>
    simp only [answer]
    rcases deleteObject_cases env w.backend faults commitFails now user objectId with
      he | ⟨o, st, bucket, -, -, -, ⟨e, he⟩ | ⟨db', -, hcommit, he⟩⟩
    · rw [he]
      exact .refl _ _
    · rw [he]
      exact .refl _ _
    · rw [he]
      obtain ⟨outbox, rfl⟩ := softDeletedDatabase_ok hcommit
      exact writesOnly_softDeleted w.backend.db _ _ _
  | scanResult now objectId scanStatus =>
    refine writesOnly_withDb fun db' h => ?_
    obtain ⟨o', h⟩ := Except.map_fst_ok h
    obtain ⟨-, -, -, -, outbox, rfl⟩ := applyScanResult_ok h
    exact writesOnly_judged w.backend.db _ _
  | getQuota now scope => exact writesOnly_usage w.backend.db _
  | setQuota now scope body => exact writesOnly_usage w.backend.db _
  | purgeStale faults now => exact writesOnly_sessions w.backend.db _
  | hardPurge faults now olderThan limit => exact writesOnly_purgeObjects faults _ _
  | reconcile faults now buckets grace limit repair => exact .refl _ _
  | category request => exact (onlyCategories_step env.settings w.backend.db request).writesOnly
  | createShare now tokenId user objectId body =>
    refine writesOnly_withDb fun db' h => ?_
    obtain ⟨share, h⟩ := Except.map_fst_ok h
    obtain ⟨o, t, -, -, -, -, -, -, -, -, -, -, -, -, rfl⟩ := createShare_inserts h
    exact writesOnly_shares w.backend.db t
  | revokeShare user tokenId =>
    refine writesOnly_withDb fun db' h => ?_
    obtain ⟨share, -, -, rfl⟩ := revokeShare_updates h
    exact writesOnly_shares w.backend.db _
  | resolveShare now tokenId =>
    refine writesOnly_withDb fun db' h => ?_
    obtain ⟨url, h⟩ := Except.map_fst_ok h
    obtain ⟨share, -, rfl⟩ := resolveShare_updates h
    exact writesOnly_shares w.backend.db _
  | createPreset presetId user body => exact writesOnly_withDb fun _ h => writesOnly_createPreset h
  | updatePreset user presetId spec => exact writesOnly_withDb fun _ h => writesOnly_updatePreset h
  | deletePreset user presetId => exact writesOnly_withDb fun _ h => writesOnly_deletePreset h
  | generate now jobId user objectId body =>
    refine writesOnly_withDb fun db' h => ?_
    obtain ⟨job, h⟩ := Except.map_fst_ok h
    obtain ⟨⟨t, rfl⟩, -⟩ := generateVariants_ok h
    exact writesOnly_variantJobs w.backend.db _
  | writeVariant spec content contentType =>
    simp only [answer]
    split <;> exact .refl _ _
  | registerVariant now freshId objectId body =>
    simp only [answer]
    split
    · refine writesOnly_withDb fun db' h => ?_
      obtain ⟨v, h⟩ := Except.map_fst_ok h
      obtain ⟨-, -, -, t, outbox, -, rfl⟩ := registerVariant_ok h
      exact writesOnly_registered w.backend.db _ _
    · exact .refl _ _
  | updateVariantJob now jobId body =>
    exact writesOnly_withDb fun _ h => writesOnly_updateVariantJob h
  | deleteVariant faults user objectId variantId =>
    simp only [answer, deleteVariant]
    split
    · exact .refl _ _
    · split
      · exact .refl _ _
      · split
        · exact .refl _ _
        · exact writesOnly_variants w.backend.db _
  | startExport now jobId user filters =>
    refine writesOnly_withDb fun db' h => ?_
    obtain ⟨job, h⟩ := Except.map_fst_ok h
    obtain ⟨-, -, q, t, -, -, rfl⟩ := startArchiveExport_ok h
    exact writesOnly_exportJobs w.backend.db t
  | failUnqueuedExport now jobId =>
    simp only [answer, failUnqueuedExport]
    split
    · exact .refl _ _
    · split
      · exact .refl _ _
      · exact writesOnly_exportJobs w.backend.db _
  | writeArchive payload content contentType =>
    simp only [answer]
    split <;> exact .refl _ _
  | updateExportJob now jobId body =>
    exact writesOnly_withDb fun _ h => writesOnly_updateExportJob h
  | importCollection ctx user source => exact writesOnly_runImport env w.backend ctx user source

/-- A table outside those of the request is as it was. -/
theorem sameTable_serve (env : Env) (w : World) {r : Request} {t : TableName}
    (ht : t ∉ r.tables) : SameTable w.backend.db (serve env w r).backend.db t := by
  rw [serve_backend]
  exact writesOnly_answer env w r t ht

end MediaService
