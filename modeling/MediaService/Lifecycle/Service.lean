import MediaService.Lifecycle.Objects
import MediaService.Lifecycle.Transfer
import MediaService.Service

/-! Every request is a sequence of moves of the lifecycle, and the moves with a
cause are traced to the request that makes them. So what every move keeps holds
in every state of every run: reachable holdings are well kept, and the targets
handed to workers are theirs alone. -/

namespace MediaService

open Foundation

variable {env : Env} {w : World} {r : Request}

/-! ### What a request may move -/

/-- Posts, verdicts, patches, deletions and registrations come from the request
that says so; any request may make the other moves. -/
def Move.CausedBy (env : Env) (w : World) (r : Request) : Move → Prop
  | .posted l c => ∃ now form, r = .post now form c ∧ form.location = l ∧
      w.acceptsPost now form c = true
  | .judged o o' => ∃ now scanStatus, r = .scanResult now o.id scanStatus ∧
      (scanStatus = .clean ∧ o'.status = .ready ∧ o'.scanStatus = .clean ∨
        scanStatus ≠ .clean ∧ o'.status = o.status ∧ o'.scanStatus = .quarantined)
  | .patched o o' => o'.visibility = o.visibility ∨
      ∃ faults commitFails now user body, r = .update faults commitFails now user o.id body ∧
        (updateObject env w.backend faults commitFails now user o.id body).2 = .ok o'
  | .softDeleted o _ => ∃ faults now user, r = .delete faults false now user o.id ∧
      loadObject w.backend.db user o.id true = .ok o
  | .registered v => ∃ now freshId body, r = .registerVariant now freshId v.mediaObjectId body ∧
      w.maySend v.mediaObjectId body = true ∧ v.location = body.location
  | _ => True

theorem Move.Routine.causedBy {m : Move} (hm : m.Routine) : m.CausedBy env w r := by
  cases m <;> trivial

theorem Move.Imports.causedBy {m : Move} (hm : m.Imports) : m.CausedBy env w r := by
  rcases hm with hm | ⟨o, o', rfl, hv⟩
  · exact hm.causedBy
  · exact .inl hv

theorem MovesTo.causedBy {h h' : Holdings} (hm : MovesTo env Move.Routine h h') :
    MovesTo env (Move.CausedBy env w r) h h' :=
  hm.mono fun _ hm => hm.causedBy

/-- What holds of every world the service reaches. -/
structure WorldInv (env : Env) (w : World) : Prop where
  kept : WellKept env w.backend.holdings
  variant_targets : ∀ job ∈ w.variantJobs, ∀ spec ∈ job.specs, IsVariantKey env spec.targetKey
  export_targets : ∀ job ∈ w.exportJobs, ∃ ownerUserId jobId tenantId,
    job.target = exportTarget env.settings ownerUserId jobId tenantId

theorem worldInv_initial (env : Env) : WorldInv env World.initial where
  kept := wellKept_empty env
  variant_targets _ hj := by cases hj
  export_targets _ hj := by cases hj

/-! ### Requests as moves -/

theorem handOut_backend (env : Env) (w w' : World) (r : Request) :
    (handOut env w w' r).backend = w'.backend := by
  unfold handOut
  split
  · split <;> rfl
  · split <;> rfl
  · split <;> rfl
  · rfl
  · rfl

@[simp] theorem serve_backend (env : Env) (w : World) (r : Request) :
    (serve env w r).backend = answer env w r :=
  handOut_backend env w _ r

/-- Nothing but share links, presets and variant jobs differs. -/
def OnlyRecords (db db' : Database) : Prop :=
  ∃ shares presets variantJobs, db' = { db with
    shares := shares
    presets := presets
    variantJobs := variantJobs }

theorem movesTo_withDb {C : Move → Prop} {b : Backend} {x : Except Failure Database}
    (hx : ∀ db', x = .ok db' → OnlyRecords b.db db') :
    MovesTo env C b.holdings (b.withDb x).holdings := by
  cases x with
  | error e => exact .refl _
  | ok db' =>
    obtain ⟨_, _, _, rfl⟩ := hx db' rfl
    exact .refl _

theorem createShare_ok {settings : Settings} {db : Database} {now : Timestamp} {tokenId : UUID}
    {user : UserModel} {objectId : UUID} {body : ShareTokenCreate} {res : Database × ShareToken}
    (h : createShare settings db now tokenId user objectId body = .ok res) :
    OnlyRecords db res.1 := by
  unfold createShare at h
  split at h
  · cases h
  · dsimp only at h
    split at h
    · exact absurd h refuse_ne_ok
    · split at h <;> cases h
      exact ⟨_, _, _, rfl⟩

theorem revokeShare_ok {db db' : Database} {user : UserModel} {tokenId : UUID}
    (h : revokeShare db user tokenId = .ok db') : OnlyRecords db db' := by
  unfold revokeShare at h
  split at h
  · cases h
  · split at h <;> cases h <;> exact ⟨_, _, _, rfl⟩

/-- A link that resolves is stored, and its object in service. -/
theorem resolveShare_ok {settings : Settings} {db db' : Database} {now : Timestamp}
    {tokenId : UUID} {url : DownloadUrl}
    (h : resolveShare settings db now tokenId = .ok (db', url)) :
    OnlyRecords db db' ∧ ∃ share o, db.shares.find tokenId = some share ∧ o ∈ db.objects ∧
      o.id = share.mediaObjectId ∧ o.InService ∧ url = objectUrl settings o now := by
  unfold resolveShare loadActiveShare at h
  cases hs : db.shares.find tokenId with
  | none => simp [hs, refuse] at h
  | some share =>
    simp only [hs] at h
    split at h
    · cases h
    · rename_i share' hload
      have hshare : share' = share := by
        split at hload
        · exact absurd hload refuse_ne_ok
        · split at hload
          · exact absurd hload refuse_ne_ok
          · split at hload
            · exact absurd hload refuse_ne_ok
            · exact (Except.ok.inj hload).symm
      subst hshare
      split at h
      · exact absurd h refuse_ne_ok
      · rename_i o ho
        split at h
        · exact absurd h refuse_ne_ok
        · rename_i hlive
          split at h
          · exact absurd h refuse_ne_ok
          · rename_i hclean
            split at h
            · exact absurd h refuse_ne_ok
            · rename_i db₁ hconsume
              cases h
              refine ⟨?_, share', o, rfl, Table.mem_of_find ho, Table.key_of_find ho,
                ⟨by simpa using hlive, by simpa using hclean⟩, rfl⟩
              unfold consumeUse at hconsume
              split at hconsume
              · cases hconsume
              · split at hconsume <;> cases hconsume
                exact ⟨_, _, _, rfl⟩

theorem createPreset_ok {db db' : Database} {presetId : UUID} {user : UserModel}
    {body : ImagePresetCreate} (h : createPreset db presetId user body = .ok db') :
    OnlyRecords db db' := by
  unfold createPreset at h
  split at h
  · exact absurd h refuse_ne_ok
  · split at h <;> cases h
    exact ⟨_, _, _, rfl⟩

theorem updatePreset_ok {db db' : Database} {user : UserModel} {presetId : UUID} {spec : PresetSpec}
    (h : updatePreset db user presetId spec = .ok db') : OnlyRecords db db' := by
  unfold updatePreset at h
  split at h <;> cases h
  exact ⟨_, _, _, rfl⟩

theorem deletePreset_ok {db db' : Database} {user : UserModel} {presetId : UUID}
    (h : deletePreset db user presetId = .ok db') : OnlyRecords db db' := by
  unfold deletePreset at h
  split at h <;> cases h
  exact ⟨_, _, _, rfl⟩

theorem updateVariantJob_ok {db db' : Database} {now : Timestamp} {jobId : UUID}
    {body : VariantJobUpdate} (h : updateVariantJob db now jobId body = .ok db') :
    OnlyRecords db db' := by
  unfold updateVariantJob at h
  split at h
  · exact absurd h refuse_ne_ok
  · cases h
    exact ⟨_, _, _, rfl⟩

theorem Except.map_fst_ok {α : Type} {x : Except Failure (Database × α)} {db' : Database}
    (h : x.map Prod.fst = .ok db') : ∃ a, x = .ok (db', a) := by
  cases x with
  | error e => cases h
  | ok res =>
    cases h
    exact ⟨res.2, rfl⟩

theorem maySend_location {objectId : UUID} {body : VariantRegisterRequest}
    (hw : WorldInv env w) (h : w.maySend objectId body = true) :
    IsVariantKey env body.objectKey := by
  simp only [World.maySend, List.any_eq_true, decide_eq_true_eq] at h
  obtain ⟨job, hjob, -, spec, hspec, -, htarget⟩ := h
  rw [show body.objectKey = spec.targetKey from (congrArg Location.objectKey htarget).symm]
  exact hw.variant_targets job hjob spec hspec

/-- The service refines the lifecycle. -/
theorem movesTo_answer (hw : WorldInv env w) (r : Request) :
    MovesTo env (Move.CausedBy env w r) w.backend.holdings (answer env w r).holdings := by
  have hk := hw.kept
  cases r with
  | initiate faults now mediaId user body =>
    cases h : initiateUpload env w.backend.db faults now mediaId user body with
    | error e => simp only [answer, h]; exact .refl _
    | ok res => simp only [answer, h]; exact (movesTo_initiateUpload h).causedBy
  | post now form content =>
    simp only [answer]
    split
    · rename_i hacc
      refine .single (m := .posted form.location content) ⟨now, form, rfl, rfl, hacc⟩ ?_
      simp only [Backend.store, Backend.holdings, Storage.content_put]
      exact .posted (h := w.backend.holdings)
    · exact .refl _
  | complete faults now user sessionId body =>
    exact (movesTo_completeUpload hk faults now user sessionId body).causedBy
  | abort faults user sessionId => exact (movesTo_abortUpload hk faults user sessionId).causedBy
  | update faults commitFails now user objectId body =>
    refine (movesTo_updateObject hk faults commitFails now user objectId body).mono ?_
    rintro m (hm | ⟨o, o', rfl, rfl, ho'⟩)
    · exact hm.causedBy
    · exact .inr ⟨faults, commitFails, now, user, body, rfl, ho'⟩
  | delete faults commitFails now user objectId =>
    refine (movesTo_deleteObject hk faults commitFails now user objectId).mono ?_
    rintro m (hm | ⟨o, o', rfl, rfl, hload, rfl⟩)
    · exact hm.causedBy
    · exact ⟨faults, now, user, rfl, hload⟩
  | scanResult now objectId scanStatus =>
    cases h : applyScanResult w.backend.db now objectId scanStatus with
    | error e => simp only [answer, h]; exact .refl _
    | ok res =>
      simp only [answer, h]
      refine (movesTo_applyScanResult h).mono ?_
      rintro m ⟨o, rfl, rfl, hor⟩
      exact ⟨now, scanStatus, rfl, hor⟩
  | getQuota now scope =>
    refine .of_eq ?_
    simp only [answer, getQuota, Database.putUsage, Backend.holdings]
    rw [usageTotals_put_same]
    rw [scope_getOrCreateUsage, totals_getOrCreateUsage]
  | setQuota now scope body =>
    refine .of_eq ?_
    simp only [answer, setQuota, Database.putUsage, Backend.holdings]
    rw [usageTotals_put_same]
    change _ = usageTotals _ (getOrCreateUsage w.backend.db.usage scope now).scope
    rw [scope_getOrCreateUsage, ← totals_getOrCreateUsage _ _ now]
  | purgeStale faults now => exact (movesTo_purgeStaleUploads hk faults now).causedBy
  | hardPurge faults now olderThan limit =>
    exact (movesTo_hardPurgeExpired hk faults now olderThan limit).causedBy
  | reconcile faults now buckets grace limit repair =>
    exact (movesTo_reconcileOrphans _ faults now buckets grace limit repair).causedBy
  | category request =>
    exact .of_eq ((onlyCategories_step env.settings w.backend.db request).holdings _)
  | createShare now tokenId user objectId body =>
    refine movesTo_withDb fun db' h => ?_
    obtain ⟨share, h⟩ := Except.map_fst_ok h
    exact createShare_ok h
  | revokeShare user tokenId => exact movesTo_withDb fun db' h => revokeShare_ok h
  | resolveShare now tokenId =>
    refine movesTo_withDb fun db' h => ?_
    obtain ⟨url, h⟩ := Except.map_fst_ok h
    exact (resolveShare_ok h).1
  | createPreset presetId user body => exact movesTo_withDb fun db' h => createPreset_ok h
  | updatePreset user presetId spec => exact movesTo_withDb fun db' h => updatePreset_ok h
  | deletePreset user presetId => exact movesTo_withDb fun db' h => deletePreset_ok h
  | generate now jobId user objectId body =>
    refine movesTo_withDb fun db' h => ?_
    obtain ⟨job, h⟩ := Except.map_fst_ok h
    obtain ⟨⟨t, rfl⟩, -⟩ := generateVariants_ok h
    exact ⟨_, _, _, rfl⟩
  | writeVariant spec content contentType =>
    simp only [answer]
    split
    · rename_i hjob
      simp only [List.any_eq_true, decide_eq_true_eq] at hjob
      obtain ⟨job, hjob, hspec⟩ := hjob
      exact (movesTo_put _ content contentType (hk.location_ne_of_variantKey
        (hw.variant_targets job hjob spec hspec))).causedBy
    · exact .refl _
  | registerVariant now freshId objectId body =>
    simp only [answer]
    split
    · rename_i hsend
      cases h : registerVariant w.backend.db now freshId objectId body with
      | error e => exact .refl _
      | ok res =>
        refine (movesTo_registerVariant (maySend_location hw hsend) h).mono ?_
        rintro m ⟨rfl, rfl, hloc⟩
        exact ⟨now, freshId, body, rfl, hsend, hloc⟩
    · exact .refl _
  | updateVariantJob now jobId body => exact movesTo_withDb fun db' h => updateVariantJob_ok h
  | deleteVariant faults user objectId variantId =>
    exact (movesTo_deleteVariant hk faults user objectId variantId).causedBy
  | startExport now jobId user filters =>
    cases h : startArchiveExport env w.backend.db now jobId user filters with
    | error e => simp only [answer, h]; exact .refl _
    | ok res => simp only [answer, h]; exact (movesTo_startArchiveExport hk h).causedBy
  | failUnqueuedExport now jobId => exact (movesTo_failUnqueuedExport hk now jobId).causedBy
  | writeArchive payload content contentType =>
    simp only [answer]
    split
    · rename_i hjob
      obtain ⟨o, i, t, htarget⟩ := hw.export_targets payload hjob
      refine (movesTo_put _ content contentType fun q hq hl => ?_).causedBy
      refine (hk.object_key hq).ne_exportTarget env.settings o i t ?_
      rw [← htarget, ← hl]
      rfl
    · exact .refl _
  | updateExportJob now jobId body =>
    cases h : updateExportJob env.settings w.backend.db now jobId body with
    | error e => simp only [answer, h]; exact .refl _
    | ok res => simp only [answer, h]; exact (movesTo_updateExportJob hk h).causedBy
  | importCollection ctx user source =>
    exact (movesTo_runImport hk ctx user source).mono fun _ hm => hm.causedBy

/-! ### Rows of uploads -/

/-- The requests that write sessions or object rows. -/
def Request.writesUploads : Request → Bool
  | .initiate .. | .complete .. | .abort .. | .purgeStale .. | .update .. | .delete .. |
    .scanResult .. | .hardPurge .. | .importCollection .. => true
  | _ => false

/-- The same objects, from the same sessions. -/
def SameUploads (db db' : Database) : Prop :=
  db'.objects = db.objects ∧ db'.sessions = db.sessions

theorem OnlyRecords.sameUploads {db db' : Database} (h : OnlyRecords db db') :
    SameUploads db db' := by
  obtain ⟨_, _, _, rfl⟩ := h
  exact ⟨rfl, rfl⟩

theorem sameUploads_withDb {b : Backend} {x : Except Failure Database}
    (hx : ∀ db, x = .ok db → SameUploads b.db db) : SameUploads b.db (b.withDb x).db := by
  cases x with
  | error e => exact ⟨rfl, rfl⟩
  | ok db => exact hx db rfl

/-- The other requests leave both alone. -/
theorem uploads_answer {r : Request} (hr : r.writesUploads = false) :
    SameUploads w.backend.db (answer env w r).db := by
  cases r with
  | initiate | complete | abort | purgeStale | update | delete | scanResult | hardPurge |
    importCollection => cases hr
  | getQuota | setQuota | reconcile => exact ⟨rfl, rfl⟩
  | post now form content =>
    simp only [answer]
    split <;> exact ⟨rfl, rfl⟩
  | category request =>
    obtain ⟨_, _, _, he⟩ := onlyCategories_step env.settings w.backend.db request
    simp only [answer]
    rw [he]
    exact ⟨rfl, rfl⟩
  | createShare now tokenId user objectId body =>
    refine sameUploads_withDb fun db h => ?_
    obtain ⟨share, h⟩ := Except.map_fst_ok h
    exact (createShare_ok h).sameUploads
  | revokeShare user tokenId => exact sameUploads_withDb fun db h => (revokeShare_ok h).sameUploads
  | resolveShare now tokenId =>
    refine sameUploads_withDb fun db h => ?_
    obtain ⟨url, h⟩ := Except.map_fst_ok h
    exact (resolveShare_ok h).1.sameUploads
  | createPreset presetId user body =>
    exact sameUploads_withDb fun db h => (createPreset_ok h).sameUploads
  | updatePreset user presetId spec =>
    exact sameUploads_withDb fun db h => (updatePreset_ok h).sameUploads
  | deletePreset user presetId =>
    exact sameUploads_withDb fun db h => (deletePreset_ok h).sameUploads
  | generate now jobId user objectId body =>
    refine sameUploads_withDb fun db h => ?_
    obtain ⟨job, h⟩ := Except.map_fst_ok h
    obtain ⟨⟨t, rfl⟩, -⟩ := generateVariants_ok h
    exact ⟨rfl, rfl⟩
  | writeVariant spec content contentType =>
    simp only [answer]
    split <;> exact ⟨rfl, rfl⟩
  | registerVariant now freshId objectId body =>
    simp only [answer]
    split
    · refine sameUploads_withDb fun db h => ?_
      obtain ⟨v, h⟩ := Except.map_fst_ok h
      obtain ⟨-, -, -, t, outbox, -, rfl⟩ := registerVariant_ok h
      exact ⟨rfl, rfl⟩
    · exact ⟨rfl, rfl⟩
  | updateVariantJob now jobId body =>
    exact sameUploads_withDb fun db h => (updateVariantJob_ok h).sameUploads
  | deleteVariant faults user objectId variantId =>
    simp only [answer, deleteVariant]
    split
    · exact ⟨rfl, rfl⟩
    · split
      · exact ⟨rfl, rfl⟩
      · split <;> exact ⟨rfl, rfl⟩
  | startExport now jobId user filters =>
    refine sameUploads_withDb fun db h => ?_
    obtain ⟨job, h⟩ := Except.map_fst_ok h
    obtain ⟨-, -, q, t, -, -, rfl⟩ := startArchiveExport_ok h
    exact ⟨rfl, rfl⟩
  | failUnqueuedExport now jobId =>
    simp only [answer, failUnqueuedExport]
    split
    · exact ⟨rfl, rfl⟩
    · split <;> exact ⟨rfl, rfl⟩
  | writeArchive payload content contentType =>
    simp only [answer]
    split <;> exact ⟨rfl, rfl⟩
  | updateExportJob now jobId body =>
    refine sameUploads_withDb fun db h => ?_
    unfold updateExportJob at h
    split at h
    · exact absurd h refuse_ne_ok
    · split at h <;> cases h
      exact ⟨rfl, rfl⟩

/-! ### Reachable worlds -/

theorem movesTo_serve (hw : WorldInv env w) (r : Request) :
    MovesTo env (Move.CausedBy env w r) w.backend.holdings (serve env w r).backend.holdings := by
  rw [serve_backend]
  exact movesTo_answer hw r

theorem mem_variantJobs_handOut {w' : World} {job : VariantJobPayload}
    (h : job ∈ (handOut env w w' r).variantJobs) :
    job ∈ w'.variantJobs ∨ job ∈ w.variantJobs ∨ ∃ now jobId user objectId body db',
      generateVariants env w.backend.db now jobId user objectId body = .ok (db', job) := by
  unfold handOut at h
  split at h
  · split at h <;> exact .inl h
  · split at h
    · rename_i now jobId user objectId body _ db' job' hg
      rcases List.mem_append.mp h with h | h
      · exact .inr (.inl h)
      · exact .inr (.inr ⟨now, jobId, user, objectId, body, db',
          by rw [List.mem_singleton.mp h, hg]⟩)
    · exact .inl h
  · split at h <;> exact .inl h
  · exact .inl h
  · exact .inl h

theorem mem_exportJobs_handOut {w' : World} {job : ExportArchiveJobPayload}
    (h : job ∈ (handOut env w w' r).exportJobs) :
    job ∈ w'.exportJobs ∨ job ∈ w.exportJobs ∨ ∃ now jobId user filters db',
      startArchiveExport env w.backend.db now jobId user filters = .ok (db', job) := by
  unfold handOut at h
  split at h
  · split at h <;> exact .inl h
  · split at h <;> exact .inl h
  · split at h
    · rename_i now jobId user filters _ db' job' hg
      rcases List.mem_append.mp h with h | h
      · exact .inr (.inl h)
      · exact .inr (.inr ⟨now, jobId, user, filters, db', by rw [List.mem_singleton.mp h, hg]⟩)
    · exact .inl h
  · exact .inl h
  · exact .inl h

theorem variantJobs_advance (w : World) (b : Backend) : (w.advance b).variantJobs = w.variantJobs :=
  rfl

theorem exportJobs_advance (w : World) (b : Backend) : (w.advance b).exportJobs = w.exportJobs :=
  rfl

theorem WorldInv.serve (hw : WorldInv env w) (r : Request) : WorldInv env (serve env w r) where
  kept := (movesTo_serve hw r).wellKept hw.kept
  variant_targets job hj spec hspec := by
    rcases mem_variantJobs_handOut hj with hj | hj | ⟨_, _, _, _, _, _, hg⟩
    · rw [variantJobs_advance] at hj
      exact hw.variant_targets job hj spec hspec
    · exact hw.variant_targets job hj spec hspec
    · obtain ⟨-, o, -, -, -, hspecs⟩ := generateVariants_ok hg
      obtain ⟨name, preset, fmt, rfl⟩ := mem_resolvePresets hspecs hspec
      exact ⟨_, _, _, _, _, _, rfl⟩
  export_targets job hj := by
    rcases mem_exportJobs_handOut hj with hj | hj | ⟨_, _, _, _, _, hg⟩
    · rw [exportJobs_advance] at hj
      exact hw.export_targets job hj
    · exact hw.export_targets job hj
    · exact ⟨_, _, _, (startArchiveExport_ok hg).1⟩

theorem worldInv_run (env : Env) (rs : List Request) :
    WorldInv env (run (serve env) World.initial rs) :=
  (always_of_inv (fun _ r hw => hw.serve r) (worldInv_initial env) rs).last

end MediaService
