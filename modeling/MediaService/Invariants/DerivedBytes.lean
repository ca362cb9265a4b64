import MediaService.Invariants.ExportJobs
import MediaService.Invariants.HardPurge
import MediaService.Invariants.OwnerIsolation
import MediaService.Invariants.ReferencedBytes
import MediaService.Invariants.SessionBytes
import MediaService.Invariants.VariantJobs

/-! The bytes that workers derive. The upload flow, relocations and imports move bytes under
the keys of originals alone, so what is stored under another key is written by the worker
that was commissioned for it, and goes only with its variant's row or under a repair that
comes upon it. -/

namespace MediaService

open Foundation

variable {env : Env} {w : World}

/-! ### Keys that are no original's -/

/-- No original is ever stored under this key. -/
def Derived (env : Env) (l : Location) : Prop :=
  ∀ scope id, ¬ IsOriginalKey env scope id l.objectKey

theorem derived_of_variantKey {l : Location} (h : IsVariantKey env l.objectKey) : Derived env l :=
  fun _ _ horiginal => horiginal.not_variant h

theorem derived_exportTarget (settings : Settings) (owner job : UUID) (tenant : Option UUID) :
    Derived env (exportTarget settings owner job tenant) :=
  fun _ _ horiginal => horiginal.ne_exportTarget settings owner job tenant rfl

theorem Derived.ne {l l' : Location} {scope : Scope} {id : UUID} (hl : Derived env l)
    (h : IsOriginalKey env scope id l'.objectKey) : l.objectKey ≠ l'.objectKey :=
  fun he => hl scope id (he ▸ h)

/-- Every form that was signed is for the key of an original. -/
def FormsOriginal (env : Env) (w : World) : Prop :=
  ∀ form ∈ w.forms, ∃ scope id, IsOriginalKey env scope id form.location.objectKey

theorem formsOriginal_initial (env : Env) : FormsOriginal env World.initial :=
  fun _ hform => by cases hform

theorem FormsOriginal.serve (h : FormsOriginal env w) (r : Request) :
    FormsOriginal env (serve env w r) := by
  intro form hform
  unfold MediaService.serve handOut at hform
  split at hform
  · rename_i faults now mediaId user body
    split at hform
    · rename_i db form' hinit
      rcases List.mem_append.mp hform with hform | hform
      · exact h form hform
      · obtain ⟨req, staged, -, hstage, hlocation, -⟩ := initiateUpload_ok hinit
        obtain ⟨-, -, -, hkey⟩ := stageUpload_ok hstage
        rw [List.mem_singleton.mp hform, hlocation]
        exact ⟨⟨user.id, user.tenantId⟩, mediaId, req.category, req.originalFilename, hkey⟩
    · exact h form hform
  · split at hform <;> exact h form hform
  · split at hform <;> exact h form hform
  · exact h form hform
  · exact h form hform

/-! ### What moves them -/

theorem content_foldl_bestEffortRemove {α : Type} (place : α → Location) (faults : Faults)
    (xs : List α) (st : Storage) {l : Location} (h : ∀ x ∈ xs, l.objectKey ≠ (place x).objectKey) :
    (xs.foldl (fun st x => st.bestEffortRemove faults (place x)) st).content l = st.content l := by
  induction xs generalizing st with
  | nil => rfl
  | cons x xs ih =>
    rw [List.foldl_cons, ih _ fun y hy => h y (List.mem_cons_of_mem x hy)]
    exact content_bestEffortRemove_ne st faults (h x List.mem_cons_self)

theorem derivedContent_recordAndComplete (b : Backend) (ctx : RowContext) {user : UserModel}
    (entry : ImportObjectEntry) {staged : StagedUpload} {req : UploadInitiateRequest}
    (categories : List Category) (paths : List String) {l : Location}
    (hl : l.objectKey ≠ staged.objectKey) :
    (recordAndComplete env b ctx user entry staged req categories paths).1.storage.content l =
      b.storage.content l := by
  unfold recordAndComplete
  dsimp only
  split
  · rfl
  · rename_i db hrec
    obtain ⟨-, t, ht, rfl⟩ := Database.insertSession_ok hrec
    have hsession : ∀ s, loadOwnedSession { b.db with sessions := t } user staged.mediaId =
        .ok s → l.objectKey ≠ s.objectKey := by
      intro s hload
      obtain ⟨hs, hid, -⟩ := loadOwnedSession_ok hload
      have hfind := Table.find_insert ht s.id
      rw [hs, if_pos (by exact hid)] at hfind
      rw [Option.some.inj hfind]
      exact hl
    have hcontent := @content_completion env
      { b with db := { b.db with sessions := t } } ctx.faults ctx.completedAt user
      staged.mediaId ⟨entry.sha256, some (categories.map Category.id)⟩ l hsession
    generalize completeUpload env { b with db := { b.db with sessions := t } } ctx.faults
      ctx.completedAt user staged.mediaId
      ⟨entry.sha256, some (categories.map Category.id)⟩ = r at hcontent ⊢
    obtain ⟨b', e | o⟩ := r
    · cases e <;> exact hcontent
    · exact hcontent

theorem derivedContent_importOneFile (b : Backend) (ctx : RowContext) (user : UserModel)
    (info : Option ZipInfo) (entry : ImportObjectEntry) (categories : List Category)
    (paths : List String) {l : Location} (hl : Derived env l) :
    (importOneFile env b ctx user info entry categories paths).1.storage.content l =
      b.storage.content l := by
  rcases importOneFile_cases env b ctx user info entry categories paths with
    ⟨_, _, _, he⟩ | ⟨_, -, he⟩ | ⟨o, -, he⟩ | ⟨zip, req, staged, -, -, hstage, hrow⟩
  · rw [he]
  · rw [he]
  · rw [he]
  · obtain ⟨-, -, -, hkey⟩ := stageUpload_ok hstage
    have hne : l.objectKey ≠ staged.location.objectKey :=
      @Derived.ne env l staged.location ⟨user.id, user.tenantId⟩ _ hl
        ⟨req.category, req.originalFilename, hkey⟩
    rcases hrow with ⟨_, _, _, he⟩ | ⟨data, st, hput, he⟩
    · rw [he]
      exact content_bestEffortRemove_ne _ ctx.faults hne
    · rw [he, derivedContent_recordAndComplete _ ctx entry categories paths hne]
      change st.content l = b.storage.content l
      rw [Storage.content_putObjectStream hput, if_neg]
      exact fun he => hne (congrArg Location.objectKey he)

theorem derivedContent_runImport (b : Backend) (ctx : ℕ → RowContext) (user : UserModel)
    (source : ImportSource) {l : Location} (hl : Derived env l) :
    (runImport env b ctx user source).1.storage.content l = b.storage.content l := by
  refine runImport_inv (I := fun b' : Backend => b'.storage.content l = b.storage.content l)
    rfl rfl fun _ _ i b' entry _ categories paths _ hb => ⟨?_, fun info => ?_⟩
  · rw [← hb]
    unfold importManifestEntry
    split <;> rfl
  · rw [derivedContent_importOneFile b' (ctx i) user info entry categories paths hl, hb]

theorem deleteVariant_cases (b : Backend) (faults : Faults) (user : UserModel)
    (objectId variantId : UUID) :
    (deleteVariant b faults user objectId variantId).1 = b ∨
      ∃ v, b.db.variants.find variantId = some v ∧
        (deleteVariant b faults user objectId variantId).1 =
          ⟨{ b.db with variants := b.db.variants.erase variantId },
            b.storage.bestEffortRemove faults v.location⟩ := by
  unfold deleteVariant
  split
  · exact .inl rfl
  · split
    · exact .inl rfl
    · rename_i v hv
      split
      · exact .inl rfl
      · exact .inr ⟨v, hv, rfl⟩

/-- A sweep that does not repair leaves everything. -/
theorem reconcileOrphans_report (b : Backend) (faults : Faults) (now : Timestamp)
    (buckets : List String) (grace : ℤ) (limit : ℕ) :
    (reconcileOrphans env b faults now buckets grace limit false).1 = b := by
  have hkeys : ∀ (bucket : String) (keys : List String) (sw : Sweep),
      (sweepKeys b.db (pendingKeys b.db now) faults limit false bucket sw keys).storage =
        sw.storage := by
    intro bucket keys
    induction keys with
    | nil => exact fun _ => rfl
    | cons key keys ih =>
      intro sw
      rw [sweepKeys]
      split
      · rfl
      · split
        · exact ih sw
        · exact ih _
  have hbuckets : ∀ (buckets : List String) (sw : Sweep),
      (buckets.foldl (fun sw bucket =>
        sweepKeys b.db (pendingKeys b.db now) faults limit false bucket sw
          (sw.storage.listObjectKeys env bucket)) sw).storage = sw.storage := by
    intro buckets
    induction buckets with
    | nil => exact fun _ => rfl
    | cons bucket buckets ih =>
      intro sw
      rw [List.foldl_cons, ih]
      exact hkeys bucket _ sw
  simp only [reconcileOrphans, findStorageOrphans, hbuckets]

/-- A repair comes upon the location within its limit, and can remove it. -/
def World.Sweeps (env : Env) (w : World) (l : Location) : Request → Prop
  | .reconcile faults now buckets _ limit true =>
    l ∈ (comesUpon env w.backend faults now [] buckets).take limit ∧ faults .remove l = false
  | _ => False

/-- The variant's row is there, at its location. -/
def World.HasVariant (id : UUID) (l : Location) (w : World) : Prop :=
  ∃ v ∈ w.backend.db.variants, v.id = id ∧ v.location = l

/-- The request may take what is stored at a derived location: a repair comes upon it, or
the row of a variant that is there goes. -/
def World.Takes (env : Env) (w : World) (l : Location) (r : Request) : Prop :=
  w.Sweeps env l r ∨ ∃ id, w.HasVariant id l ∧ ¬ (MediaService.serve env w r).HasVariant id l

/-- No other request takes it, and none but a worker's writes there. -/
theorem content_of_not_takes (hw : WorldInv env w) (hforms : FormsOriginal env w) {l : Location}
    (hl : Derived env l) {r : Request} (h : ¬ w.Takes env l r)
    (hvariant : ∀ spec written contentType, r ≠ .writeVariant spec written contentType)
    (harchive : ∀ payload written contentType, r ≠ .writeArchive payload written contentType) :
    (serve env w r).backend.storage.content l = w.backend.storage.content l := by
  have hk := hw.kept
  unfold World.Takes World.HasVariant at h
  rw [serve_backend] at h ⊢
  have hsession : ∀ {s : UploadSession}, s ∈ w.backend.db.sessions → l.objectKey ≠ s.objectKey :=
    fun {s} hs => @Derived.ne env l s.location _ _ hl (hk.session_key _ hs)
  have hobject : ∀ {o : MediaObject}, o ∈ w.backend.db.objects → l.objectKey ≠ o.objectKey :=
    fun {o} ho => @Derived.ne env l o.location _ _ hl (hk.object_key ho)
  cases r with
  | post now form content =>
    simp only [answer]
    split
    · rename_i haccepts
      unfold World.acceptsPost at haccepts
      obtain ⟨scope, id, hkey⟩ := hforms form (of_decide_eq_true haccepts).1
      rw [Backend.store, Storage.content_put, Function.update_of_ne]
      exact fun he => hl.ne hkey (congrArg Location.objectKey he)
    · rfl
  | complete faults now user sessionId body =>
    exact content_completion w.backend faults now user sessionId body fun s hload =>
      hsession (Table.mem_of_find (loadOwnedSession_ok hload).1)
  | abort faults user sessionId =>
    exact content_abort w faults user sessionId fun s hload =>
      hsession (Table.mem_of_find (loadOwnedSession_ok hload).1)
  | purgeStale faults now =>
    exact content_foldl_bestEffortRemove UploadSession.location faults _ w.backend.storage
      fun s hs => hsession (List.mem_filter.mp hs).1
  | update faults commitFails now user objectId body =>
    exact content_updateObject w.backend faults commitFails now user objectId body
      fun o hload => hobject (loadObject_ok hload).1
  | delete faults commitFails now user objectId =>
    exact content_delete w.backend faults commitFails now user objectId
      fun o hload => hobject (loadObject_ok hload).1
  | hardPurge faults now olderThan limit =>
    have hfirst := purgeCandidates_first w.backend.db (now - olderThan) limit
    have hpurges := @foldl_purges w.backend faults _ _ (fun o ho => (hfirst.deleted o ho).2)
      hfirst.nodup
    simp only [answer, hardPurgeExpired, Storage.content] at h ⊢
    rw [hpurges.bytes, if_neg]
    rintro ⟨hremove, -⟩
    obtain ⟨o, ho, rfl | ⟨v, hv, hid, rfl⟩⟩ := (hpurges.attempts l).mp hremove
    · exact hobject (hfirst.deleted o ho).1 rfl
    · refine h (.inr ⟨v.id, ⟨v, hv, rfl, rfl⟩, ?_⟩)
      rintro ⟨v', hv', hsame, -⟩
      rw [hpurges.rows] at hv'
      obtain ⟨hmem, hspared⟩ := Table.mem_filter.mp hv'
      rw [Table.eq_of_key_eq hmem hv hsame, hid] at hspared
      exact of_decide_eq_true hspared (List.mem_map_of_mem ho)
  | reconcile faults now buckets grace limit repair =>
    simp only [answer] at h ⊢
    cases repair with
    | false => rw [reconcileOrphans_report]
    | true =>
      rw [content_reconcileOrphans, if_neg]
      exact fun hswept => h (.inl hswept)
  | deleteVariant faults user objectId variantId =>
    simp only [answer] at h ⊢
    rcases deleteVariant_cases w.backend faults user objectId variantId with he | ⟨v, hv, he⟩
    · rw [he]
    · rw [he] at h ⊢
      rw [Storage.content_bestEffortRemove, if_neg]
      rintro ⟨-, rfl⟩
      refine h (.inr ⟨variantId, ⟨v, Table.mem_of_find hv, Table.key_of_find hv, rfl⟩, ?_⟩)
      rintro ⟨v', hv', hsame, -⟩
      exact (Table.mem_erase.mp hv').2 hsame
  | writeVariant spec written contentType => exact absurd rfl (hvariant spec written contentType)
  | writeArchive payload written contentType =>
    exact absurd rfl (harchive payload written contentType)
  | registerVariant now freshId objectId body =>
    simp only [answer]
    split
    · exact content_withDb _ _ l
    · rfl
  | importCollection ctx user source => exact derivedContent_runImport w.backend ctx user source hl
  | getQuota | setQuota | category | failUnqueuedExport => rfl
  | initiate | scanResult | createShare | revokeShare | resolveShare | createPreset | updatePreset
  | deletePreset | generate | updateVariantJob | startExport | updateExportJob =>
    exact content_withDb _ _ l

/-- What is stored there after a request, if nothing takes it: what a worker that was
commissioned for the location writes, else what was. -/
def World.writtenAt (w : World) (l : Location) (content : Option Bytes) : Request → Option Bytes
  | .writeVariant spec written _ =>
    if spec.target = l ∧ w.variantJobs.any (fun job => spec ∈ job.specs) = true then some written
    else content
  | .writeArchive payload written _ =>
    if payload.target = l ∧ payload ∈ w.exportJobs then some written else content
  | _ => content

/-- What is stored there after a run. -/
def World.writtenAfter (env : Env) (l : Location) :
    World → Option Bytes → List Request → Option Bytes
  | _, content, [] => content
  | w, content, r :: rs =>
    World.writtenAfter env l (MediaService.serve env w r) (w.writtenAt l content r) rs

theorem content_serve_derived (hw : WorldInv env w) (hforms : FormsOriginal env w) {l : Location}
    (hl : Derived env l) {r : Request} (h : ¬ w.Takes env l r) :
    (serve env w r).backend.storage.content l =
      w.writtenAt l (w.backend.storage.content l) r := by
  cases r with
  | writeVariant spec written contentType =>
    rw [serve_backend]
    simp only [answer, World.writtenAt]
    by_cases hhanded : w.variantJobs.any (fun job => spec ∈ job.specs) = true
    · rw [if_pos hhanded, Backend.store, Storage.content_put, Function.update_apply]
      by_cases htarget : spec.target = l
      · rw [if_pos htarget.symm, if_pos ⟨htarget, hhanded⟩]
      · rw [if_neg (Ne.symm htarget), if_neg fun hboth => htarget hboth.1]
    · rw [if_neg hhanded, if_neg fun hboth => hhanded hboth.2]
  | writeArchive payload written contentType =>
    rw [serve_backend]
    simp only [answer, World.writtenAt]
    by_cases hhanded : payload ∈ w.exportJobs
    · rw [if_pos hhanded, Backend.store, Storage.content_put, Function.update_apply]
      by_cases htarget : payload.target = l
      · rw [if_pos htarget.symm, if_pos ⟨htarget, hhanded⟩]
      · rw [if_neg (Ne.symm htarget), if_neg fun hboth => htarget hboth.1]
    · rw [if_neg hhanded, if_neg fun hboth => hhanded hboth.2]
  | _ => exact content_of_not_takes hw hforms hl h (by rintro _ _ _ ⟨⟩) (by rintro _ _ _ ⟨⟩)

end MediaService
