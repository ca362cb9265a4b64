import MediaService.Controllers.Admin
import MediaService.Lifecycle.Holdings

/-! The upload flow makes only moves of the lifecycle: an initiated session is
opened, and a completion closes it, rejects it or promotes it to its object.
Each controller's result is first read off as what it changed. -/

namespace MediaService

open Foundation

variable {env : Env}

/-- The moves whose cause no statement asks for. -/
def Move.Routine : Move → Prop
  | .judged _ _ | .patched _ _ | .softDeleted _ _ | .registered _ | .posted _ _ => False
  | _ => True

/-! ### Storage -/

theorem Storage.content_put (st : Storage) (l : Location) (c : Bytes) (ct : String) :
    Storage.content (st.put ⟨l, c, ct⟩) = Function.update st.content l (some c) := by
  funext l'
  simp only [content, Table.find_put, Function.update_apply]
  split <;> rfl

/-- A best-effort removal of bytes nothing holds. -/
theorem movesTo_bestEffortRemove (b : Backend) (faults : Faults) {l : Location}
    (hl : ∀ o, b.holdings.Holds o → o.location ≠ l) :
    MovesTo env Move.Routine b.holdings
      ({ b with storage := b.storage.bestEffortRemove faults l } : Backend).holdings := by
  cases hf : faults .remove l with
  | true =>
    refine .of_eq ?_
    simp only [Backend.holdings, Holdings.mk.injEq, true_and]
    funext l'
    simp [Storage.content_bestEffortRemove, hf]
  | false =>
    have hc : (b.storage.bestEffortRemove faults l).content =
        Function.update b.storage.content l none := by
      funext l'
      simp [Storage.content_bestEffortRemove, hf, Function.update_apply]
    refine .single (m := .discarded l) trivial ?_
    simp only [Backend.holdings, hc]
    exact .discarded hl

/-- Bytes put where no object is. -/
theorem movesTo_put (b : Backend) {l : Location} (c : Bytes) (ct : String)
    (hl : ∀ o ∈ b.db.objects, o.location ≠ l) :
    MovesTo env Move.Routine b.holdings
      ({ b with storage := b.storage.put ⟨l, c, ct⟩ } : Backend).holdings := by
  refine .single (m := .stored l c) trivial ?_
  simp only [Backend.holdings, Storage.content_put]
  exact .stored (h := b.holdings) hl

/-! ### Initiate -/

theorem stageUpload_ok {db : Database} {user : UserModel} {req : UploadInitiateRequest}
    {mediaId : UUID} {staged : StagedUpload}
    (h : stageUpload env db user req mediaId = .ok staged) :
    staged.mediaId = mediaId ∧ staged.ownerId = user.id ∧ staged.tenantId = user.tenantId ∧
      staged.objectKey =
        buildObjectKey env user.id mediaId req.category req.originalFilename user.tenantId := by
  unfold stageUpload at h
  by_cases hm : isAllowedDeclaredMime req.mimeType = true
  · cases hq : checkQuota env.settings db.usage ⟨user.id, user.tenantId⟩ req.expectedSizeBytes with
    | error e => simp [hm, hq, bind, Except.bind] at h
    | ok u =>
      cases hr : resolveCategoryIds db user req.categoryIds with
      | error e => simp [hm, hq, hr, bind, Except.bind] at h
      | ok cs =>
        simp [hm, hq, hr, bind, Except.bind, pure, Except.pure] at h
        subst h
        exact ⟨rfl, rfl, rfl, rfl⟩
  · simp [hm, refuse, bind, Except.bind] at h

/-- Recording a staged upload opens its session. -/
theorem movesTo_recordUploadSession {b : Backend} {db db' : Database} {user : UserModel}
    {req : UploadInitiateRequest} {mediaId : UUID} {staged : StagedUpload}
    {now expiresAt : Timestamp} (hs : stageUpload env db user req mediaId = .ok staged)
    (hr : recordUploadSession b.db staged req now expiresAt = .ok db') :
    MovesTo env Move.Routine b.holdings ({ b with db := db' } : Backend).holdings := by
  obtain ⟨-, t, ht, rfl⟩ := Database.insertSession_ok hr
  obtain ⟨hid, howner, htenant, hkey⟩ := stageUpload_ok hs
  refine .single (m := .opened (stagedSession staged req now expiresAt)) trivial ?_
  refine .opened (h := b.holdings) rfl ⟨req.category, req.originalFilename, ?_⟩ ht
  rw [show (stagedSession staged req now expiresAt).objectKey = staged.objectKey from rfl, hkey,
    ← howner, ← htenant, ← hid]
  rfl

theorem UploadInitiateRequest.validated_eq_some {body req : UploadInitiateRequest}
    (h : body.validated env = some req) : ∃ name,
      validateFilename env body.originalFilename = some name ∧
        req = { body with originalFilename := name } := by
  unfold UploadInitiateRequest.validated at h
  split at h
  · cases h
  · rename_i name hname
    split at h
    · cases h
    · cases h
      exact ⟨name, hname, rfl⟩

/-- An accepted initiation has staged the upload, signed a form for its location
and recorded its session. -/
theorem initiateUpload_ok {db db' : Database} {faults : Faults} {now : Timestamp}
    {mediaId : UUID} {user : UserModel} {body : UploadInitiateRequest} {form : UploadForm}
    (h : initiateUpload env db faults now mediaId user body = .ok (db', form)) :
    ∃ req staged, body.validated env = some req ∧
      stageUpload env db user req mediaId = .ok staged ∧ form.location = staged.location ∧
      recordUploadSession db staged req now
        (now + seconds env.settings.s3PresignedUrlExpireSeconds) = .ok db' := by
  unfold initiateUpload at h
  split at h
  · cases h
  · rename_i req hreq
    cases hs : stageUpload env db user req mediaId with
    | error e => simp [hs, bind, Except.bind] at h
    | ok staged =>
      simp only [hs, bind, Except.bind] at h
      split at h
      · cases h
      · rename_i form' hform
        split at h
        · cases h
        · rename_i db'' hrec
          cases h
          refine ⟨req, staged, hreq, hs, ?_, hrec⟩
          unfold createUploadUrl at hform
          split at hform
          · cases hform
          · cases hform
            rfl

theorem movesTo_initiateUpload {b : Backend} {db' : Database} {faults : Faults} {now : Timestamp}
    {mediaId : UUID} {user : UserModel} {body : UploadInitiateRequest} {form : UploadForm}
    (h : initiateUpload env b.db faults now mediaId user body = .ok (db', form)) :
    MovesTo env Move.Routine b.holdings ({ b with db := db' } : Backend).holdings := by
  obtain ⟨req, staged, -, hs, -, hr⟩ := initiateUpload_ok h
  exact movesTo_recordUploadSession hs hr

/-! ### What the answer checks -/

/-- What a session and the body of its completion put into the answer is within its
bounds. -/
structure UploadSession.FitsAnswer (s : UploadSession) (sha256 : Option String) : Prop where
  originalFilename : ∀ name, s.originalFilename = some name → name.length ≤ 255
  mimeType : 1 ≤ s.expectedMimeType.length ∧ s.expectedMimeType.length ≤ 255
  digest : ∀ sha, sha256 = some sha → sha.length = 64

theorem validFields_sessionObject {s : UploadSession} {sha256 : Option String} {size : ℕ}
    {status : MediaObjectStatus} {now : Timestamp} :
    (sessionObject s s.expectedMimeType size sha256 status now).validFields = true ↔
      s.FitsAnswer sha256 := by
  have hall : ∀ (x : Option String) (p : String → Bool),
      x.all p = true ↔ ∀ a, x = some a → p a = true := by
    intro x p
    cases x <;> simp
  unfold MediaObject.validFields sessionObject
  rw [decide_eq_true_eq, hall, hall]
  simp only [decide_eq_true_eq]
  constructor
  · rintro ⟨hname, hmime, hsha⟩
    exact ⟨hname, hmime, hsha⟩
  · rintro ⟨hname, hmime, hsha⟩
    exact ⟨hname, hmime, hsha⟩

theorem length_of_validateFilename {value f : String} (h : validateFilename env value = some f) :
    f.length ≤ 255 := by
  unfold validateFilename at h
  dsimp only at h
  split at h
  · cases h
  · split at h
    · cases h
    · rename_i hlength
      split at h
      · cases h
      · cases h
        exact not_lt.mp hlength

theorem length_of_allowedDeclaredMime {mime : String} (h : isAllowedDeclaredMime mime = true) :
    1 ≤ mime.length ∧ mime.length ≤ 255 := by
  have hallowed : ∀ mime ∈ allowedDeclaredMime, 1 ≤ mime.length ∧ mime.length ≤ 255 := by decide
  exact hallowed mime (of_decide_eq_true h)

theorem mimeType_of_stageUpload {db : Database} {user : UserModel} {req : UploadInitiateRequest}
    {mediaId : UUID} {staged : StagedUpload}
    (h : stageUpload env db user req mediaId = .ok staged) :
    isAllowedDeclaredMime req.mimeType = true := by
  unfold stageUpload at h
  cases hmime : isAllowedDeclaredMime req.mimeType with
  | true => rfl
  | false => simp [hmime, refuse, bind, Except.bind] at h

/-- The session of a staged request fits the answer, with a digest of its length. -/
theorem fitsAnswer_stagedSession {db : Database} {user : UserModel}
    {body req : UploadInitiateRequest} {mediaId : UUID} {staged : StagedUpload}
    (hreq : body.validated env = some req)
    (hstage : stageUpload env db user req mediaId = .ok staged) (now expiresAt : Timestamp)
    {sha256 : Option String} (hsha : ∀ sha, sha256 = some sha → sha.length = 64) :
    (stagedSession staged req now expiresAt).FitsAnswer sha256 := by
  refine ⟨?_, ?_, hsha⟩
  · obtain ⟨name, hname, rfl⟩ := UploadInitiateRequest.validated_eq_some hreq
    rintro _ ⟨⟩
    exact length_of_validateFilename hname
  · exact length_of_allowedDeclaredMime (mimeType_of_stageUpload hstage)

/-! ### Complete -/

/-- A session written over by one that only its status tells apart. -/
theorem closes_update {t : Table UploadSession.id} {s : UploadSession} {st : UploadSessionStatus}
    (hs : t.find s.id = some s) (hnc : s.status ≠ .completed)
    (hst : st = .aborted ∨ s.status = .initiated ∧ st = .expired) :
    Closes t (t.update { s with status := st }) := by
  intro id
  by_cases hid : id = s.id
  · subst hid
    exact .inr ⟨s, st, hs, hnc, hst, Table.find_update_self (by exact hs)⟩
  · exact .inl (Table.find_update_ne hid)

theorem loadOwnedSession_ok {db : Database} {user : UserModel} {id : UUID} {s : UploadSession}
    (h : loadOwnedSession db user id = .ok s) :
    db.sessions.find s.id = some s ∧ s.id = id ∧ (user.isSuperuser ∨ s.ownerUserId = user.id) := by
  unfold loadOwnedSession at h
  split at h
  · exact absurd h refuse_ne_ok
  · rename_i q hq
    split at h
    · exact absurd h refuse_ne_ok
    · rename_i howner
      cases h
      have hid := Table.key_of_find hq
      refine ⟨by rw [hid]; exact hq, hid, ?_⟩
      cases hsu : user.isSuperuser
      · right
        by_contra hne
        exact howner ⟨by simp [hsu], hne⟩
      · exact .inl rfl

theorem loadOwnedSession_eq_ok {db : Database} {user : UserModel} {s : UploadSession}
    (hs : db.sessions.find s.id = some s) (hallowed : user.isSuperuser ∨ s.ownerUserId = user.id) :
    loadOwnedSession db user s.id = .ok s := by
  unfold loadOwnedSession
  rw [hs]
  refine if_neg ?_
  rintro ⟨hsu, howner⟩
  rcases hallowed with h | h
  · simp [h] at hsu
  · exact howner h

/-- A completion is refused, marks the session expired, meets a category it may not file
into, or goes on with a session still initiated. -/
theorem completeUpload_cases (env : Env) (b : Backend) (faults : Faults) (now : Timestamp)
    (user : UserModel) (sessionId : UUID) (req : UploadCompleteRequest) :
    (∃ code detail, completeUpload env b faults now user sessionId req = (b, refuse code detail)) ∨
    (∃ s, loadOwnedSession b.db user sessionId = .ok s ∧ s.status = .initiated ∧
      s.expiresAt < now ∧ ∃ code detail, completeUpload env b faults now user sessionId req =
        ({ b with db := b.db.updateSession { s with status := .expired } }, refuse code detail)) ∨
    (∃ s e, completionCategories b.db user s req = .error e ∧
      completeUpload env b faults now user sessionId req = (b, .error e)) ∨
    ∃ s categories, loadOwnedSession b.db user sessionId = .ok s ∧ s.status = .initiated ∧
      ¬ now > s.expiresAt ∧ completionCategories b.db user s req = .ok categories ∧
      completeUpload env b faults now user sessionId req =
        completeSession env b faults now s req.sha256 categories := by
  unfold completeUpload
  cases hload : loadOwnedSession b.db user sessionId with
  | error e =>
    unfold loadOwnedSession at hload
    split at hload
    · cases hload
      exact .inl ⟨_, _, rfl⟩
    · split at hload
      · cases hload
        exact .inl ⟨_, _, rfl⟩
      · cases hload
  | ok s =>
    dsimp only
    unfold ensureCompletable
    by_cases hi : s.status = .initiated
    · rw [if_neg (not_not.mpr hi)]
      by_cases hlate : now > s.expiresAt
      · rw [if_pos hlate]
        exact .inr (.inl ⟨s, rfl, hi, hlate, _, _, rfl⟩)
      · rw [if_neg hlate]
        dsimp only
        cases hcat : completionCategories b.db user s req with
        | error e => exact .inr (.inr (.inl ⟨s, e, hcat, rfl⟩))
        | ok categories => exact .inr (.inr (.inr ⟨s, categories, rfl, hi, hlate, hcat, rfl⟩))
    · rw [if_pos hi]
      exact .inl ⟨_, _, rfl⟩

/-- A rejection leaves a rejected object beside its aborted session; its bytes,
which no promoted object shares, may go. -/
theorem movesTo_rejectUpload {b : Backend} (hk : WellKept env b.holdings) {s : UploadSession}
    (hs : b.db.sessions.find s.id = some s) (hi : s.status = .initiated) {usage : UsageTable}
    (hu : usageTotals usage = usageTotals b.db.usage) (faults : Faults) (now : Timestamp)
    (reason : UploadRejectReason) (size : ℕ) :
    MovesTo env Move.Routine b.holdings
      (rejectUpload b usage faults now s reason size).1.holdings := by
  unfold rejectUpload
  split
  · exact .refl _
  · rename_i db hins
    obtain ⟨-, t, ht, rfl⟩ := Database.insertObject_ok hins
    let db₁ : Database := { b.db with usage := usage, objects := t }
    let b₁ : Backend := ⟨db₁.updateSession { s with status := .aborted }, b.storage⟩
    have hmove : Moves env (.rejected (sessionObject s s.expectedMimeType size none .rejected now))
        b.holdings b₁.holdings := by
      simp only [b₁, db₁, Backend.holdings, Database.updateSession, hu]
      exact .rejected (h := b.holdings) hs hi rfl ht
    refine (MovesTo.single trivial hmove).trans (movesTo_bestEffortRemove b₁ faults ?_)
    rintro o ⟨ho, -, q, hq, hqid, hqst⟩ hl
    have hkey : o.id = s.id :=
      ((hk.move hmove).object_key ho).id_eq (by
        rw [show o.objectKey = s.objectKey from congrArg Location.objectKey hl]
        exact hk.session_key s (Table.mem_of_find hs))
    rcases (Table.mem_update (by exact hs)).mp hq with rfl | ⟨-, hne⟩
    · cases hqst
    · exact hne (hqid.trans hkey)

theorem movesTo_promoteUpload {b : Backend} {s : UploadSession}
    (hs : b.db.sessions.find s.id = some s) (hi : s.status = .initiated) {usage : UsageTable}
    {c : Bytes} (hc : b.storage.content s.location = some c)
    (hu : ∀ scope, usageTotals usage scope = usageTotals b.db.usage scope +
      if scope = s.scope then ((c.length : ℤ), 1) else 0)
    (now : Timestamp) (sha256 : Option String) (categories : List Category) :
    MovesTo env Move.Routine b.holdings
      (promoteUpload b usage now s c.length sha256 categories).1.holdings := by
  unfold promoteUpload
  dsimp only
  split
  · exact .refl _
  · rename_i db hins
    obtain ⟨-, t, ht, rfl⟩ := Database.insertObject_ok hins
    let o := sessionObject s s.expectedMimeType c.length sha256 .uploaded now
    have htot : usageTotals usage = charge b.holdings.totals o := funext hu
    refine .single (m := .promoted o) trivial ?_
    simp only [Backend.holdings, Database.updateSession, Database.setFiling, htot]
    exact .promoted (h := b.holdings) hs hi rfl hc ht

/-- The content type is no part of the holdings. -/
theorem holdings_setObjectContentType {b : Backend} {faults : Faults} {l : Location} {ct : String}
    {st : Storage} (h : b.storage.setObjectContentType faults l ct = some st) :
    ({ b with storage := st } : Backend).holdings = b.holdings := by
  simp only [Backend.holdings, Holdings.mk.injEq, true_and]
  exact funext (Storage.content_setObjectContentType h)

theorem statObject_eq_some {st : Storage} {faults : Faults} {l : Location} {n : ℕ}
    (h : st.statObject faults l = some n) : ∃ c, st.content l = some c ∧ c.length = n := by
  unfold Storage.statObject Storage.read at h
  split at h
  · cases h
  · exact Option.map_eq_some_iff.mp h

theorem movesTo_completeSession {b : Backend} (hk : WellKept env b.holdings) {s : UploadSession}
    (hs : b.db.sessions.find s.id = some s) (hi : s.status = .initiated) (faults : Faults)
    (now : Timestamp) (sha256 : Option String) (categories : List Category) :
    MovesTo env Move.Routine b.holdings
      (completeSession env b faults now s sha256 categories).1.holdings := by
  have hreject := fun reason size => movesTo_rejectUpload hk hs hi rfl faults now reason size
  unfold completeSession
  split
  · exact .refl _
  · rename_i size hstat
    obtain ⟨c, hc, rfl⟩ := statObject_eq_some hstat
    split
    · exact hreject _ _
    · dsimp only
      split
      · exact hreject _ _
      · split
        · exact .refl _
        · exact hreject _ _
        · split
          · exact .refl _
          · rename_i storage hct
            have hh := holdings_setObjectContentType hct
            split
            · rename_i usage reason hres
              have hu : usageTotals usage = usageTotals b.db.usage := by
                funext scope
                have := usageTotals_reserve_refused (by rw [hres] :
                  (reserveStorageForObject env.settings b.db.usage s.scope c.length now).2 =
                    some reason) scope
                rwa [hres] at this
              rw [← hh] at hk ⊢
              exact movesTo_rejectUpload hk hs hi hu faults now reason c.length
            · rename_i usage hres
              have hu : ∀ scope, usageTotals usage scope = usageTotals b.db.usage scope +
                  if scope = s.scope then ((c.length : ℤ), 1) else 0 := by
                intro scope
                have := usageTotals_reserve_granted (by rw [hres] :
                  (reserveStorageForObject env.settings b.db.usage s.scope c.length now).2 =
                    none) scope
                rwa [hres] at this
              rw [← hh]
              refine movesTo_promoteUpload (b := ⟨b.db, storage⟩) hs hi ?_ hu now sha256 categories
              rw [Storage.content_setObjectContentType hct]
              exact hc

/-- A completion closes the session, one way or the other, or changes nothing. -/
theorem movesTo_completeUpload {b : Backend} (hk : WellKept env b.holdings) (faults : Faults)
    (now : Timestamp) (user : UserModel) (sessionId : UUID) (req : UploadCompleteRequest) :
    MovesTo env Move.Routine b.holdings
      (completeUpload env b faults now user sessionId req).1.holdings := by
  rcases completeUpload_cases env b faults now user sessionId req with
    ⟨_, _, he⟩ | ⟨s, hload, hi, -, _, _, he⟩ | ⟨_, _, -, he⟩ | ⟨s, categories, hload, hi, -, -, he⟩
  · rw [he]
    exact .refl _
  · rw [he]
    obtain ⟨hs, -, -⟩ := loadOwnedSession_ok hload
    refine .single (m := .closed) trivial (.closed (h := b.holdings) ?_)
    exact closes_update hs (by simp [hi]) (.inr ⟨hi, rfl⟩)
  · rw [he]
    exact .refl _
  · rw [he]
    obtain ⟨hs, -, -⟩ := loadOwnedSession_ok hload
    exact movesTo_completeSession hk hs hi faults now req.sha256 _

/-! ### Abort and purge -/

/-- Nothing is held where a session that is still initiated uploads to. -/
theorem not_holds_of_initiated {h : Holdings} (hk : WellKept env h) {s : UploadSession}
    (hs : s ∈ h.sessions) (hi : s.status = .initiated) : ∀ o ∈ h.objects, o.location ≠ s.location :=
  hk.location_ne_of_find_none (hk.session_key s hs)
    (hk.find_object_eq_none hs (by simp [hi]) (by simp [hi]))

/-- An upload's object can always be inserted while its session is initiated. -/
theorem insertObject_eq_ok {b : Backend} (hk : WellKept env b.holdings) {s : UploadSession}
    (hs : b.db.sessions.find s.id = some s) (hi : s.status = .initiated) {o : MediaObject}
    (hid : o.id = s.id) (hloc : o.location = s.location) (usage : UsageTable) :
    ∃ db', ({ b.db with usage := usage } : Database).insertObject o = .ok db' := by
  have hmem := Table.mem_of_find hs
  have hfree : ({ b.db with usage := usage } : Database).locationTaken o = false := by
    rw [Database.locationTaken_eq_false, hloc]
    exact fun q hq _ => not_holds_of_initiated hk hmem hi q hq
  have hnone : b.db.objects.find o.id = none := by
    rw [hid]
    exact hk.find_object_eq_none hmem (by simp [hi]) (by simp [hi])
  obtain ⟨t, ht⟩ := Option.isSome_iff_exists.mp (Table.insert_isSome.mpr hnone)
  unfold Database.insertObject
  rw [hfree]
  simp only [Bool.false_eq_true, if_false, ht]
  exact ⟨_, rfl⟩

theorem movesTo_abortUpload {b : Backend} (hk : WellKept env b.holdings) (faults : Faults)
    (user : UserModel) (sessionId : UUID) :
    MovesTo env Move.Routine b.holdings (abortUpload b faults user sessionId).1.holdings := by
  unfold abortUpload
  split
  · exact .refl _
  · rename_i s hload
    obtain ⟨hs, -, -⟩ := loadOwnedSession_ok hload
    split
    · exact .refl _
    · rename_i hnc
      let b₁ : Backend := { b with db := b.db.updateSession { s with status := .aborted } }
      have hclose : MovesTo env Move.Routine b.holdings b₁.holdings :=
        .single (m := .closed) trivial (.closed (h := b.holdings)
          (closes_update hs hnc (.inl rfl)))
      dsimp only
      split
      · rename_i hi
        refine hclose.trans (movesTo_bestEffortRemove b₁ faults ?_)
        rintro o ⟨ho, -⟩
        exact not_holds_of_initiated hk (Table.mem_of_find hs) hi o ho
      · exact hclose

/-- Removing the bytes of some initiated sessions. -/
theorem movesTo_foldl_remove {b : Backend} (hk : WellKept env b.holdings) (faults : Faults)
    (ss : List UploadSession) (hss : ∀ s ∈ ss, s ∈ b.db.sessions ∧ s.status = .initiated) :
    MovesTo env Move.Routine b.holdings ({ b with
      storage := ss.foldl (fun st s => st.bestEffortRemove faults s.location) b.storage } :
        Backend).holdings := by
  induction ss generalizing b with
  | nil => exact .refl _
  | cons s ss ih =>
    obtain ⟨hs, hi⟩ := hss s List.mem_cons_self
    have hfree : ∀ o, b.holdings.Holds o → o.location ≠ s.location :=
      fun o ho => not_holds_of_initiated hk hs hi o ho.1
    have hremove := @movesTo_bestEffortRemove env b faults _ hfree
    exact hremove.trans (ih (hremove.wellKept hk) fun q hq => hss q (List.mem_cons_of_mem _ hq))

theorem movesTo_purgeStaleUploads {b : Backend} (hk : WellKept env b.holdings) (faults : Faults)
    (now : Timestamp) :
    MovesTo env Move.Routine b.holdings (purgeStaleUploads b faults now).1.holdings := by
  unfold purgeStaleUploads
  refine (movesTo_foldl_remove hk faults (getStaleUploads b.db now) ?_).trans
    (.single (m := .closed) trivial (.closed (h := Backend.holdings ⟨b.db, _⟩) ?_))
  · intro s hs
    simp only [getStaleUploads, List.mem_filter, isStale, decide_eq_true_eq] at hs
    exact ⟨hs.1, hs.2.1⟩
  · intro id
    rw [Table.find_mapRows]
    cases hf : b.db.sessions.find id with
    | none => exact .inl (by simp [Backend.holdings, hf])
    | some s =>
      by_cases hst : isStale now s
      · refine .inr ⟨s, .expired, hf, ?_, ?_, ?_⟩ <;>
          simp only [isStale, decide_eq_true_eq] at hst
        · simp [hst.1]
        · exact .inr ⟨hst.1, rfl⟩
        · simp [expireStale, isStale, hst]
      · exact .inl (by simp [Backend.holdings, hf, expireStale, hst])

end MediaService
