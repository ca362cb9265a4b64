import MediaService.Foundation.SameRows
import MediaService.Invariants.ForeignKeys
import MediaService.Storage.KeyScopes

/-! Callers do not reach what others own. A request of a caller without privileges writes
rows the caller owns, and bytes under keys built for the caller, so through any run of
other callers' requests an owner keeps every object, session, total, job, link, preset
and original. Categories, which the members of a tenant share, are not among these. -/

namespace MediaService

open Foundation Table

variable {env : Env} {w : World} {r : Request} {v : UUID}

/-! ### Requests of other callers -/

/-- The caller a request is made by; workers and administrators make the others, and
nobody in particular resolves a link or posts a form. -/
def Request.caller : Request → Option UserModel
  | .initiate _ _ _ user _ | .complete _ _ user _ _ | .abort _ user _
  | .update _ _ _ user _ _ | .delete _ _ _ user _ | .createShare _ _ user _ _
  | .revokeShare user _ | .createPreset _ user _ | .updatePreset user _ _
  | .deletePreset user _ | .generate _ _ user _ _ | .deleteVariant _ user _ _
  | .startExport _ _ user _ | .importCollection _ user _ => some user
  | .category request => some request.caller
  | _ => none

/-- The request is made by somebody else than the owner, without privileges. -/
def Request.Foreign (v : UUID) (r : Request) : Prop :=
  ∃ user, r.caller = some user ∧ user.isSuperuser = false ∧ user.id ≠ v

/-- What the owner has is as it was. -/
structure Undisturbed (env : Env) (v : UUID) (b b' : Backend) : Prop where
  objects : SameRows (fun o => o.ownerUserId = v) b.db.objects b'.db.objects
  sessions : SameRows (fun s => s.ownerUserId = v) b.db.sessions b'.db.sessions
  usage : SameRows (fun u => u.ownerUserId = v) b.db.usage b'.db.usage
  variants : ∀ o ∈ b.db.objects, o.ownerUserId = v →
    SameRows (fun x => x.mediaObjectId = o.id) b.db.variants b'.db.variants
  variantJobs : SameRows (fun j => j.ownerUserId = v) b.db.variantJobs b'.db.variantJobs
  exportJobs : SameRows (fun j => j.ownerUserId = v) b.db.exportJobs b'.db.exportJobs
  shares : SameRows (fun s => s.ownerUserId = v) b.db.shares b'.db.shares
  presets : SameRows (fun p => p.ownerUserId = v) b.db.presets b'.db.presets
  contents : ∀ tenantId id (l : Location), IsOriginalKey env ⟨v, tenantId⟩ id l.objectKey →
    b'.storage.content l = b.storage.content l

theorem Undisturbed.refl (env : Env) (v : UUID) (b : Backend) : Undisturbed env v b b where
  objects := .refl _ _
  sessions := .refl _ _
  usage := .refl _ _
  variants _ _ _ := .refl _ _
  variantJobs := .refl _ _
  exportJobs := .refl _ _
  shares := .refl _ _
  presets := .refl _ _
  contents _ _ _ _ := rfl

theorem Undisturbed.trans {b b' b'' : Backend} (h : Undisturbed env v b b')
    (h' : Undisturbed env v b' b'') : Undisturbed env v b b'' where
  objects := h.objects.trans h'.objects
  sessions := h.sessions.trans h'.sessions
  usage := h.usage.trans h'.usage
  variants o ho hv := (h.variants o ho hv).trans (h'.variants o ((h.objects o hv).mpr ho) hv)
  variantJobs := h.variantJobs.trans h'.variantJobs
  exportJobs := h.exportJobs.trans h'.exportJobs
  shares := h.shares.trans h'.shares
  presets := h.presets.trans h'.presets
  contents tenantId id l hl := (h'.contents tenantId id l hl).trans (h.contents tenantId id l hl)

/-! ### Whose keys are whose -/

theorem IsOriginalKey.owner_eq {scope scope' : Scope} {id id' : UUID} {key : String}
    (h : IsOriginalKey env scope id key) (h' : IsOriginalKey env scope' id' key) :
    scope.ownerUserId = scope'.ownerUserId := by
  obtain ⟨c, f, rfl⟩ := h
  obtain ⟨c', f', he⟩ := h'
  exact (buildObjectKey_inj he).1

/-- A key of one owner's original is nowhere below another's prefix. -/
theorem IsOriginalKey.not_ownsKey {user : UserModel} {scope : Scope} {id : UUID} {key : String}
    (h : IsOriginalKey env scope id key) (hne : user.id ≠ scope.ownerUserId) :
    ¬ user.OwnsKey key := by
  rintro ⟨segments, hkey⟩
  obtain ⟨c, f, hbuilt⟩ := h
  have hunder : ownerPath user.id user.tenantId <+: key.toList := by
    rw [hkey]
    have hprefix : ownerPrefix user.id user.tenantId ≠ [] := by
      cases user.tenantId <;> exact List.cons_ne_nil _ _
    cases segments with
    | nil =>
      rw [List.append_nil]
      exact List.prefix_refl _
    | cons x xs => exact ⟨_, (toList_keyPath_append hprefix (List.cons_ne_nil x xs)).symm⟩
  have hown : BuiltKey env scope.ownerUserId scope.tenantId key := by
    rw [hbuilt]
    exact .original id c f
  exact hne (hown.owner_unique hunder).1

/-! ### One table after another -/

section Tables

variable {user : UserModel}

/-- What a caller without privileges loads is the caller's own. -/
theorem ne_of_loadObject {db : Database} {id : UUID} {includeDeleted : Bool} {o : MediaObject}
    (hsu : user.isSuperuser = false) (hne : user.id ≠ v)
    (h : loadObject db user id includeDeleted = .ok o) : o.ownerUserId ≠ v := by
  obtain ⟨-, -, -, hown⟩ := loadObject_ok h
  rw [hsu] at hown
  exact fun he => hne ((hown.resolve_left Bool.false_ne_true).symm.trans he)

theorem ne_of_loadOwnedSession {db : Database} {id : UUID} {s : UploadSession}
    (hsu : user.isSuperuser = false) (hne : user.id ≠ v)
    (h : loadOwnedSession db user id = .ok s) : s.ownerUserId ≠ v := by
  obtain ⟨-, -, hown⟩ := loadOwnedSession_ok h
  rw [hsu] at hown
  exact fun he => hne ((hown.resolve_left Bool.false_ne_true).symm.trans he)

theorem ne_of_loadOwnedPreset {db : Database} {id : UUID} {p : ImagePreset}
    (hsu : user.isSuperuser = false) (hne : user.id ≠ v)
    (h : loadOwnedPreset db user id = .ok p) :
    db.presets.find p.id = some p ∧ p.ownerUserId ≠ v := by
  unfold loadOwnedPreset at h
  split at h
  · exact absurd h refuse_ne_ok
  · rename_i q hfind
    split at h
    · exact absurd h refuse_ne_ok
    · rename_i hown
      cases h
      obtain rfl := Table.key_of_find hfind
      refine ⟨hfind, fun he => hown ⟨by rw [hsu]; rfl, ?_⟩⟩
      exact fun heq => hne (heq.symm.trans he)

/-- An object's row written over by one of the same owner. -/
theorem sameObjects_update {t : Table MediaObject.id} {o o' : MediaObject} (ho : o ∈ t)
    (hid : o'.id = o.id) (hown : o'.ownerUserId = o.ownerUserId) (hne : o.ownerUserId ≠ v) :
    SameRows (fun o => o.ownerUserId = v) t (t.update o') := by
  refine sameRows_update (s := o) ?_ hne (hown ▸ hne)
  rw [hid, Table.find_of_mem ho]

theorem InOwnScope.sameObjects {b b' : Backend} (h : InOwnScope user b b') (hne : user.id ≠ v) :
    SameRows (fun o => o.ownerUserId = v) b.db.objects b'.db.objects := by
  have hforward : ∀ o : MediaObject, o.ownerUserId = v → o ∈ b.db.objects →
      b'.db.objects.find o.id = some o := by
    intro o hv ho
    rcases h.objects o.id o (Table.find_of_mem ho) with hfind | ⟨hown, -⟩
    · exact hfind
    · exact absurd (hown.symm.trans hv) hne
  intro o hv
  refine ⟨fun ho => ?_, fun ho => Table.mem_of_find (hforward o hv ho)⟩
  have hafter := Table.find_of_mem ho
  cases hbefore : b.db.objects.find o.id with
  | none => exact absurd ((h.newObjects o.id o hbefore hafter).owner.symm.trans hv) hne
  | some q =>
    rcases h.objects o.id q hbefore with hfind | ⟨hown, t, hfind⟩
    · rw [Option.some.inj (hafter.symm.trans hfind)]
      exact Table.mem_of_find hbefore
    · have hmarked := Option.some.inj (hafter.symm.trans hfind)
      rw [hmarked] at hv
      exact absurd (hown.symm.trans hv) hne

theorem InOwnScope.sameSessions {b b' : Backend} (h : InOwnScope user b b') (hne : user.id ≠ v) :
    SameRows (fun s => s.ownerUserId = v) b.db.sessions b'.db.sessions := by
  intro s hv
  refine ⟨fun hs => ?_, fun hs => ?_⟩
  · have hafter := Table.find_of_mem hs
    cases hbefore : b.db.sessions.find s.id with
    | none =>
      have hscope := congrArg Scope.ownerUserId (h.newSessions s.id s hbefore hafter)
      exact absurd (hscope.symm.trans hv) hne
    | some q =>
      rw [Option.some.inj (hafter.symm.trans (h.sessions s.id q hbefore))]
      exact Table.mem_of_find hbefore
  · exact Table.mem_of_find (h.sessions s.id s (Table.find_of_mem hs))

theorem sameObjects_completeUpload (b : Backend) (faults : Faults) (now : Timestamp)
    (sessionId : UUID) (req : UploadCompleteRequest) (hsu : user.isSuperuser = false)
    (hne : user.id ≠ v) :
    SameRows (fun o => o.ownerUserId = v) b.db.objects
      (completeUpload env b faults now user sessionId req).1.db.objects := by
  have hends := ends_completeUpload env b faults now user sessionId req
  generalize completeUpload env b faults now user sessionId req = r at hends ⊢
  cases hends with
  | refused _ _ hdb =>
    rcases hdb with rfl | ⟨s, -, -, -, rfl⟩
    · exact .refl _ _
    · exact .refl _ _
  | rejected hload _ _ ht => exact sameRows_insert ht (ne_of_loadOwnedSession hsu hne hload)
  | promoted hload _ _ _ _ _ ht => exact sameRows_insert ht (ne_of_loadOwnedSession hsu hne hload)

theorem sameSessions_completeUpload (b : Backend) (faults : Faults) (now : Timestamp)
    (sessionId : UUID) (req : UploadCompleteRequest) (hsu : user.isSuperuser = false)
    (hne : user.id ≠ v) :
    SameRows (fun s => s.ownerUserId = v) b.db.sessions
      (completeUpload env b faults now user sessionId req).1.db.sessions := by
  have hupdate : ∀ {s s' : UploadSession}, loadOwnedSession b.db user sessionId = .ok s →
      s'.id = s.id → s'.ownerUserId = s.ownerUserId →
      SameRows (fun s => s.ownerUserId = v) b.db.sessions (b.db.sessions.update s') := by
    intro s s' hload hid hown
    have hown' := ne_of_loadOwnedSession hsu hne hload
    exact sameRows_update (s := s) (hid ▸ (loadOwnedSession_ok hload).1) hown' (hown ▸ hown')
  have hends := ends_completeUpload env b faults now user sessionId req
  generalize completeUpload env b faults now user sessionId req = r at hends ⊢
  cases hends with
  | refused _ _ hdb =>
    rcases hdb with rfl | ⟨s, hload, -, -, rfl⟩
    · exact .refl _ _
    · exact hupdate hload rfl rfl
  | rejected hload => exact hupdate hload rfl rfl
  | promoted hload => exact hupdate hload rfl rfl

theorem sameUsage_completeUpload (b : Backend) (faults : Faults) (now : Timestamp)
    (sessionId : UUID) (req : UploadCompleteRequest) (hsu : user.isSuperuser = false)
    (hne : user.id ≠ v) :
    SameRows (fun u => u.ownerUserId = v) b.db.usage
      (completeUpload env b faults now user sessionId req).1.db.usage := by
  have hother : ∀ {s : UploadSession} {usage : UsageTable},
      loadOwnedSession b.db user sessionId = .ok s →
      (∀ scope ≠ s.scope, usage.find scope = b.db.usage.find scope) →
      SameRows (fun u => u.ownerUserId = v) b.db.usage usage := by
    intro s usage hload hrows
    have hown := ne_of_loadOwnedSession hsu hne hload
    refine sameRows_of_find fun u hu => hrows u.scope fun he => hown ?_
    exact (congrArg Scope.ownerUserId he).symm.trans hu
  have hends := ends_completeUpload env b faults now user sessionId req
  generalize completeUpload env b faults now user sessionId req = r at hends ⊢
  cases hends with
  | refused _ _ hdb =>
    rcases hdb with rfl | ⟨s, -, -, -, rfl⟩
    · exact .refl _ _
    · exact .refl _ _
  | rejected hload _ _ _ _ hrows => exact hother hload hrows
  | promoted hload _ _ _ _ _ _ _ hrows => exact hother hload hrows

end Tables

/-! ### One request -/

theorem sameObjects_foreign (h : r.Foreign v) :
    SameRows (fun o => o.ownerUserId = v) w.backend.db.objects (answer env w r).db.objects := by
  have hframe := writesOnly_answer env w r .objects
  obtain ⟨user, hcaller, hsu, hne⟩ := h
  cases r with
  | complete faults now user' sessionId body =>
    obtain rfl := Option.some.inj hcaller
    exact sameObjects_completeUpload _ faults now sessionId body hsu hne
  | update faults commitFails now user' objectId body =>
    obtain rfl := Option.some.inj hcaller
    simp only [answer]
    rcases updateObject_cases env w.backend faults commitFails now user' objectId body with
      ⟨e, st, he, -⟩ | ⟨u, o, st, bucket, categories, db', o', -, hload, -, -, hpatch, he⟩
    · rw [he]
      exact .refl _ _
    · rw [he]
      obtain ⟨⟨_, _, -, ho'⟩, links, rfl⟩ := patchedDatabase_ok hpatch
      exact sameObjects_update (loadObject_ok hload).1 (by rw [ho']) (by rw [ho'])
        (ne_of_loadObject hsu hne hload)
  | delete faults commitFails now user' objectId =>
    obtain rfl := Option.some.inj hcaller
    simp only [answer]
    rcases deleteObject_cases env w.backend faults commitFails now user' objectId with
      he | ⟨o, st, bucket, hload, -, -, ⟨e, he⟩ | ⟨db', -, hcommit, he⟩⟩
    · rw [he]
      exact .refl _ _
    · rw [he]
      exact .refl _ _
    · rw [he]
      obtain ⟨outbox, rfl⟩ := softDeletedDatabase_ok hcommit
      exact sameObjects_update (loadObject_ok hload).1 rfl rfl (ne_of_loadObject hsu hne hload)
  | importCollection ctx user' source =>
    obtain rfl := Option.some.inj hcaller
    exact (inOwnScope_runImport env w.backend ctx user' source).sameObjects hne
  | scanResult | hardPurge => cases hcaller
  | _ => exact .of_eq (hframe (by simp [Request.tables]))

theorem sameSessions_foreign (h : r.Foreign v) :
    SameRows (fun s => s.ownerUserId = v) w.backend.db.sessions
      (answer env w r).db.sessions := by
  have hframe := writesOnly_answer env w r .sessions
  obtain ⟨user, hcaller, hsu, hne⟩ := h
  cases r with
  | initiate faults now mediaId user' body =>
    obtain rfl := Option.some.inj hcaller
    simp only [answer]
    cases hini : initiateUpload env w.backend.db faults now mediaId user' body with
    | error e => exact .refl _ _
    | ok res =>
      obtain ⟨req, staged, -, hstage, -, hrec⟩ := initiateUpload_ok hini
      obtain ⟨-, t, ht, hdb⟩ := Database.insertSession_ok hrec
      have hsessions : res.1.sessions = t := congrArg Database.sessions hdb
      have hown : (stagedSession staged req now
          (now + seconds env.settings.s3PresignedUrlExpireSeconds)).ownerUserId = user'.id :=
        (stageUpload_ok hstage).2.1
      exact hsessions ▸ sameRows_insert ht fun he => hne (hown.symm.trans he)
  | complete faults now user' sessionId body =>
    obtain rfl := Option.some.inj hcaller
    exact sameSessions_completeUpload _ faults now sessionId body hsu hne
  | abort faults user' sessionId =>
    obtain rfl := Option.some.inj hcaller
    simp only [answer, abortUpload]
    split
    · exact .refl _ _
    · rename_i s hload
      split
      · exact .refl _ _
      · have hown := ne_of_loadOwnedSession hsu hne hload
        exact sameRows_update (s := s) (loadOwnedSession_ok hload).1 hown hown
  | importCollection ctx user' source =>
    obtain rfl := Option.some.inj hcaller
    exact (inOwnScope_runImport env w.backend ctx user' source).sameSessions hne
  | purgeStale => cases hcaller
  | _ => exact .of_eq (hframe (by simp [Request.tables]))

theorem sameUsage_foreign (h : r.Foreign v) :
    SameRows (fun u => u.ownerUserId = v) w.backend.db.usage (answer env w r).db.usage := by
  have hframe := writesOnly_answer env w r .usage
  obtain ⟨user, hcaller, hsu, hne⟩ := h
  cases r with
  | complete faults now user' sessionId body =>
    obtain rfl := Option.some.inj hcaller
    exact sameUsage_completeUpload _ faults now sessionId body hsu hne
  | delete faults commitFails now user' objectId =>
    obtain rfl := Option.some.inj hcaller
    simp only [answer]
    rcases deleteObject_cases env w.backend faults commitFails now user' objectId with
      he | ⟨o, st, bucket, hload, -, -, ⟨e, he⟩ | ⟨db', -, hcommit, he⟩⟩
    · rw [he]
      exact .refl _ _
    · rw [he]
      exact .refl _ _
    · rw [he]
      obtain ⟨outbox, rfl⟩ := softDeletedDatabase_ok hcommit
      have hown := ne_of_loadObject hsu hne hload
      refine sameRows_of_find fun u hu => ?_
      rw [recordObjectRemoved, Table.find_put, scope_debit, scope_getOrCreateUsage, if_neg]
      exact fun he => hown ((congrArg Scope.ownerUserId he).symm.trans hu)
  | importCollection ctx user' source =>
    obtain rfl := Option.some.inj hcaller
    refine sameRows_of_find fun u hu => ?_
    refine (inOwnScope_runImport env w.backend ctx user' source).usage u.scope fun he => hne ?_
    exact (congrArg Scope.ownerUserId he).symm.trans hu
  | getQuota | setQuota => cases hcaller
  | _ => exact .of_eq (hframe (by simp [Request.tables]))

theorem sameVariants_foreign (h : r.Foreign v) {o : MediaObject}
    (ho : o ∈ w.backend.db.objects) (hv : o.ownerUserId = v) :
    SameRows (fun x => x.mediaObjectId = o.id) w.backend.db.variants
      (answer env w r).db.variants := by
  have hframe := writesOnly_answer env w r .variants
  obtain ⟨user, hcaller, hsu, hne⟩ := h
  cases r with
  | deleteVariant faults user' objectId variantId =>
    obtain rfl := Option.some.inj hcaller
    simp only [answer, deleteVariant]
    split
    · exact .refl _ _
    · rename_i q hload
      split
      · exact .refl _ _
      · rename_i x hfind
        split
        · exact .refl _ _
        · rename_i hof
          refine sameRows_erase hfind fun hx => ?_
          obtain ⟨hq, hid, -⟩ := loadObject_ok hload
          have hsame : q.id = o.id := hid.trans ((not_not.mp hof).symm.trans hx)
          obtain rfl := Table.eq_of_key_eq hq ho hsame
          exact ne_of_loadObject hsu hne hload hv
  | hardPurge | registerVariant => cases hcaller
  | _ => exact .of_eq (hframe (by simp [Request.tables, importTables]))

theorem sameVariantJobs_foreign (h : r.Foreign v) :
    SameRows (fun j => j.ownerUserId = v) w.backend.db.variantJobs
      (answer env w r).db.variantJobs := by
  have hframe := writesOnly_answer env w r .variantJobs
  obtain ⟨user, hcaller, hsu, hne⟩ := h
  cases r with
  | generate now jobId user' objectId body =>
    obtain rfl := Option.some.inj hcaller
    simp only [answer]
    cases hgen : generateVariants env w.backend.db now jobId user' objectId body with
    | error e => exact .refl _ _
    | ok res =>
      obtain ⟨o, j, t, hload, -, -, howner, -, ht, hdb⟩ := generateVariants_inserts hgen
      have hjobs : res.1.variantJobs = t := congrArg Database.variantJobs hdb
      have hown := ne_of_loadObject hsu hne hload
      exact hjobs ▸ sameRows_insert ht fun he => hown (howner.symm.trans he)
  | hardPurge | updateVariantJob => cases hcaller
  | _ => exact .of_eq (hframe (by simp [Request.tables, importTables]))

theorem sameExportJobs_foreign (h : r.Foreign v) :
    SameRows (fun j => j.ownerUserId = v) w.backend.db.exportJobs
      (answer env w r).db.exportJobs := by
  have hframe := writesOnly_answer env w r .exportJobs
  obtain ⟨user, hcaller, hsu, hne⟩ := h
  cases r with
  | startExport now jobId user' filters =>
    obtain rfl := Option.some.inj hcaller
    simp only [answer]
    cases hstart : startArchiveExport env w.backend.db now jobId user' filters with
    | error e => exact .refl _ _
    | ok res =>
      obtain ⟨_, _, t, -, -, -, -, -, ht, hdb⟩ := startArchiveExport_payload hstart
      have hjobs : res.1.exportJobs = t := congrArg Database.exportJobs hdb
      exact hjobs ▸ sameRows_insert ht hne
  | failUnqueuedExport | updateExportJob => cases hcaller
  | _ => exact .of_eq (hframe (by simp [Request.tables, importTables]))

theorem sameShares_foreign (h : r.Foreign v) :
    SameRows (fun s => s.ownerUserId = v) w.backend.db.shares (answer env w r).db.shares := by
  have hframe := writesOnly_answer env w r .shares
  obtain ⟨user, hcaller, hsu, hne⟩ := h
  cases r with
  | createShare now tokenId user' objectId body =>
    obtain rfl := Option.some.inj hcaller
    simp only [answer]
    cases hcreate : createShare env.settings w.backend.db now tokenId user' objectId body with
    | error e => exact .refl _ _
    | ok res =>
      obtain ⟨o, t, hload, -, -, howner, -, -, -, -, -, -, -, ht, hdb⟩ :=
        createShare_inserts hcreate
      have hshares : res.1.shares = t := congrArg Database.shares hdb
      have hown := ne_of_loadObject hsu hne hload
      exact hshares ▸ sameRows_insert ht fun he => hown (howner.symm.trans he)
  | revokeShare user' tokenId =>
    obtain rfl := Option.some.inj hcaller
    simp only [answer]
    cases hrevoke : revokeShare w.backend.db user' tokenId with
    | error e => exact .refl _ _
    | ok db' =>
      obtain ⟨q, hq, hown, rfl⟩ := revokeShare_updates hrevoke
      obtain rfl := Table.key_of_find hq
      rw [hsu] at hown
      have hown' : q.ownerUserId ≠ v :=
        fun he => hne ((hown.resolve_left Bool.false_ne_true).symm.trans he)
      exact sameRows_update (s := q) hq hown' hown'
  | hardPurge | resolveShare => cases hcaller
  | _ => exact .of_eq (hframe (by simp [Request.tables, importTables]))

theorem samePresets_foreign (h : r.Foreign v) :
    SameRows (fun p => p.ownerUserId = v) w.backend.db.presets (answer env w r).db.presets := by
  have hframe := writesOnly_answer env w r .presets
  obtain ⟨user, hcaller, hsu, hne⟩ := h
  cases r with
  | createPreset presetId user' body =>
    obtain rfl := Option.some.inj hcaller
    simp only [answer, createPreset]
    split
    · exact .refl _ _
    · split
      · exact .refl _ _
      · rename_i t ht
        exact sameRows_insert ht hne
  | updatePreset user' presetId spec =>
    obtain rfl := Option.some.inj hcaller
    simp only [answer, updatePreset]
    split
    · exact .refl _ _
    · rename_i p hload
      obtain ⟨hfind, hown⟩ := ne_of_loadOwnedPreset hsu hne hload
      exact sameRows_update (s := p) hfind hown hown
  | deletePreset user' presetId =>
    obtain rfl := Option.some.inj hcaller
    simp only [answer, deletePreset]
    split
    · exact .refl _ _
    · rename_i p hload
      obtain ⟨hfind, hown⟩ := ne_of_loadOwnedPreset hsu hne hload
      exact sameRows_erase hfind hown
  | _ => exact .of_eq (hframe (by simp [Request.tables, importTables]))

/-! ### Bytes -/

theorem content_relocates {st st' : Storage} {faults : Faults} {o : MediaObject}
    {bucket : Option String} (h : Relocates st faults o st' bucket) {l : Location}
    (hl : l.objectKey ≠ o.objectKey) : st'.content l = st.content l := by
  cases bucket with
  | none => exact congrArg (fun st : Storage => st.content l) h
  | some bucket =>
    rw [Storage.find_copyObject h.2, if_neg]
    exact fun he => hl (congrArg Location.objectKey he)

theorem content_bestEffortRemove_ne (st : Storage) (faults : Faults) {l l' : Location}
    (hl : l'.objectKey ≠ l.objectKey) :
    (st.bestEffortRemove faults l).content l' = st.content l' := by
  rw [Storage.content_bestEffortRemove, if_neg]
  exact fun he => hl (congrArg Location.objectKey he.2)

/-- A patch moves bytes under the key of its object alone. -/
theorem content_updateObject (b : Backend) (faults : Faults) (commitFails : Bool)
    (now : Timestamp) (user : UserModel) (objectId : UUID) (body : MediaObjectUpdate)
    {l : Location} (hl : ∀ o, loadObject b.db user objectId false = .ok o →
      l.objectKey ≠ o.objectKey) :
    (updateObject env b faults commitFails now user objectId body).1.storage.content l =
      b.storage.content l := by
  unfold updateObject
  split
  · rfl
  · split
    · rfl
    · rename_i o hload
      have hother := hl o hload
      split
      · rfl
      · split
        · rfl
        · rename_i st bucket hrel
          have hst := content_relocates (relocates_of_relocateForVisibility hrel) hother
          split
          · split
            · exact hst
            · exact (content_bestEffortRemove_ne st faults (l := ⟨_, o.objectKey⟩) hother).trans hst
          · split
            · exact hst
            · exact (content_bestEffortRemove_ne st faults (l := o.location) hother).trans hst

/-- A completion moves bytes under the key of its session alone. -/
theorem content_completion (b : Backend) (faults : Faults) (now : Timestamp)
    (user : UserModel) (sessionId : UUID) (req : UploadCompleteRequest) {l : Location}
    (hl : ∀ s, loadOwnedSession b.db user sessionId = .ok s → l.objectKey ≠ s.objectKey) :
    (completeUpload env b faults now user sessionId req).1.storage.content l =
      b.storage.content l := by
  have hends := ends_completeUpload env b faults now user sessionId req
  generalize completeUpload env b faults now user sessionId req = r at hends ⊢
  cases hends with
  | refused _ hst _ => exact hst l
  | rejected hload _ _ _ hst _ => exact hst l fun he => hl _ hload (congrArg Location.objectKey he)
  | promoted _ _ _ _ _ _ _ hst _ => exact hst l

/-- So does an abort. -/
theorem content_abort (w : World) (faults : Faults) (user : UserModel) (sessionId : UUID)
    {l : Location} (hl : ∀ s, loadOwnedSession w.backend.db user sessionId = .ok s →
      l.objectKey ≠ s.objectKey) :
    (answer env w (.abort faults user sessionId)).storage.content l =
      w.backend.storage.content l := by
  simp only [answer, abortUpload]
  split
  · rfl
  · rename_i s hload
    split
    · rfl
    · dsimp only
      split
      · exact content_bestEffortRemove_ne _ faults (l := s.location) (hl s hload)
      · rfl

/-- And a deletion under the key of its object. -/
theorem content_delete (b : Backend) (faults : Faults) (commitFails : Bool)
    (now : Timestamp) (user : UserModel) (objectId : UUID) {l : Location}
    (hl : ∀ o, loadObject b.db user objectId true = .ok o → l.objectKey ≠ o.objectKey) :
    (deleteObject env b faults commitFails now user objectId).1.storage.content l =
      b.storage.content l := by
  rcases deleteObject_cases env b faults commitFails now user objectId with
    he | ⟨o, st, bucket, hload, -, hrel, ⟨e, he⟩ | ⟨db', -, hcommit, he⟩⟩
  · rw [he]
  · rw [he]
    exact content_relocates hrel (hl o hload)
  · rw [he]
    have hst := content_relocates hrel (hl o hload)
    dsimp only
    split
    · exact hst
    · exact (content_bestEffortRemove_ne st faults (l := o.location) (hl o hload)).trans hst

theorem content_withDb (b : Backend) (x : Except Failure Database) (l : Location) :
    (b.withDb x).storage.content l = b.storage.content l := by
  cases x <;> rfl

/-- A caller without privileges moves no bytes of another owner's originals. -/
theorem contents_foreign (hk : WellKept env w.backend.holdings) (h : r.Foreign v)
    {tenantId : Option UUID} {id : UUID} {l : Location}
    (hl : IsOriginalKey env ⟨v, tenantId⟩ id l.objectKey) :
    (answer env w r).storage.content l = w.backend.storage.content l := by
  obtain ⟨user, hcaller, hsu, hne⟩ := h
  have hsession : ∀ {s : UploadSession} {i : UUID},
      loadOwnedSession w.backend.db user i = .ok s → l.objectKey ≠ s.objectKey := by
    intro s i hload he
    have hkey := hk.session_key s (Table.mem_of_find (loadOwnedSession_ok hload).1)
    have hother : IsOriginalKey env ⟨v, tenantId⟩ id s.objectKey := he ▸ hl
    exact ne_of_loadOwnedSession hsu hne hload (hkey.owner_eq hother)
  have hobject : ∀ {o : MediaObject} {i : UUID} {includeDeleted : Bool},
      loadObject w.backend.db user i includeDeleted = .ok o → l.objectKey ≠ o.objectKey := by
    intro o i includeDeleted hload he
    have hkey := hk.object_key (loadObject_ok hload).1
    have hother : IsOriginalKey env ⟨v, tenantId⟩ id o.objectKey := he ▸ hl
    exact ne_of_loadObject hsu hne hload (hkey.owner_eq hother)
  cases r with
  | complete faults now user' sessionId body =>
    obtain rfl := Option.some.inj hcaller
    exact content_completion w.backend faults now user' sessionId body fun s hload => hsession hload
  | abort faults user' sessionId =>
    obtain rfl := Option.some.inj hcaller
    exact content_abort w faults user' sessionId fun s hload => hsession hload
  | update faults commitFails now user' objectId body =>
    obtain rfl := Option.some.inj hcaller
    exact content_updateObject w.backend faults commitFails now user' objectId body
      fun o hload => hobject hload
  | delete faults commitFails now user' objectId =>
    obtain rfl := Option.some.inj hcaller
    exact content_delete w.backend faults commitFails now user' objectId
      fun o hload => hobject hload
  | deleteVariant faults user' objectId variantId =>
    simp only [answer, deleteVariant]
    split
    · rfl
    · split
      · rfl
      · rename_i x hfind
        split
        · rfl
        · refine content_bestEffortRemove_ne _ faults (l := x.location) fun he => ?_
          exact hl.not_variant (he ▸ hk.variant_key x (Table.mem_of_find hfind))
  | importCollection ctx user' source =>
    obtain rfl := Option.some.inj hcaller
    exact (inOwnScope_runImport env w.backend ctx user' source).contents l (hl.not_ownsKey hne)
  | initiate | createShare | revokeShare | createPreset | updatePreset | deletePreset | generate
  | startExport => exact content_withDb _ _ l
  | category => rfl
  | _ => cases hcaller

/-! ### Runs -/

theorem undisturbed_serve (hw : WorldInv env w) (h : r.Foreign v) :
    Undisturbed env v w.backend (serve env w r).backend := by
  rw [serve_backend]
  exact {
    objects := sameObjects_foreign h
    sessions := sameSessions_foreign h
    usage := sameUsage_foreign h
    variants := fun o ho hv => sameVariants_foreign h ho hv
    variantJobs := sameVariantJobs_foreign h
    exportJobs := sameExportJobs_foreign h
    shares := sameShares_foreign h
    presets := samePresets_foreign h
    contents := fun tenantId id l hl => contents_foreign hw.kept h hl }

/-- From any state the service comes to, no run of requests that others make, none of
them privileged, changes anything an owner has. -/
theorem undisturbed_run (env : Env) (v : UUID) (before rs : List Request)
    (h : ∀ r ∈ rs, r.Foreign v) :
    Undisturbed env v (run (serve env) World.initial before).backend
      (run (serve env) World.initial (before ++ rs)).backend := by
  rw [run_append]
  have hw := worldInv_run env before
  generalize run (serve env) World.initial before = w at hw
  induction rs generalizing w with
  | nil => exact .refl env v w.backend
  | cons r rs ih =>
    have hstep := undisturbed_serve hw (h r List.mem_cons_self)
    exact hstep.trans (ih (fun r' hr' => h r' (List.mem_cons_of_mem r hr')) _ (hw.serve r))

/-- A stranger's attempts at the first user's object, and an export of his own. -/
def strangerRequests : List Request :=
  [.delete Faults.none false 1 (.ordinary 5) ⟨2⟩, .abort Faults.none (.ordinary 5) ⟨2⟩,
    .startExport 1 ⟨8⟩ (.ordinary 5) none]

theorem undisturbed_run_stranger :
    Undisturbed Env.default ⟨1⟩
      (run (serve Env.default) World.initial
        (cleanUploadRequests Env.default 0 ⟨2⟩ (.ordinary 1) .private pngSignature)).backend
      (run (serve Env.default) World.initial
        (cleanUploadRequests Env.default 0 ⟨2⟩ (.ordinary 1) .private pngSignature ++
          strangerRequests)).backend := by
  refine undisturbed_run Env.default ⟨1⟩ _ strangerRequests fun r hr => ?_
  simp only [strangerRequests, List.mem_cons, List.not_mem_nil, or_false] at hr
  rcases hr with rfl | rfl | rfl <;> exact ⟨.ordinary 5, rfl, rfl, by decide⟩

end MediaService
