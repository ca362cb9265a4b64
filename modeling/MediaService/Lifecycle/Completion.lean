import MediaService.Foundation.Fallible
import MediaService.Lifecycle.Uploads

/-! The ends a completion comes to. It is refused, which at most marks an expired
session so; or the upload is rejected, which leaves a row of the attempt and no credit;
or it is promoted. Session, object, filing and totals are written together or not at
all, whatever storage does. -/

namespace MediaService

open Foundation

/-- The answer of a rejected upload. -/
def Failure.isUploadRejected : Failure → Bool
  | .http ⟨statusCode, .uploadRejected _ _⟩ => statusCode = 422
  | _ => false

/-- The ends of `complete_upload`, with all that each changes. -/
inductive UploadEnds (env : Env) (b : Backend) (faults : Faults) (now : Timestamp)
    (user : UserModel) (sessionId : UUID) (req : UploadCompleteRequest) :
    Backend × Except Failure MediaObject → Prop
  | refused {db : Database} {st : Storage} {e : Failure} : e.isUploadRejected = false →
      (∀ l, st.content l = b.storage.content l) →
      (db = b.db ∨ ∃ s, loadOwnedSession b.db user sessionId = .ok s ∧ s.status = .initiated ∧
        s.expiresAt < now ∧ db = b.db.updateSession { s with status := .expired }) →
      UploadEnds env b faults now user sessionId req (⟨db, st⟩, .error e)
  | rejected {s : UploadSession} {usage : UsageTable} {size : ℕ} {t : Table MediaObject.id}
      {st : Storage} {reason : UploadRejectReason} :
      loadOwnedSession b.db user sessionId = .ok s → s.status = .initiated →
      usageTotals usage = usageTotals b.db.usage →
      b.db.objects.insert (sessionObject s s.expectedMimeType size none .rejected now) = some t →
      (∀ l ≠ s.location, st.content l = b.storage.content l) →
      (∀ scope ≠ s.scope, usage.find scope = b.db.usage.find scope) →
      UploadEnds env b faults now user sessionId req (⟨{ b.db with
        usage := usage
        objects := t
        sessions := b.db.sessions.update { s with status := .aborted } }, st⟩,
        .error (.http (uploadRejected reason)))
  | promoted {s : UploadSession} {usage : UsageTable} {size : ℕ} {sha256 : Option String}
      {t : Table MediaObject.id} {st : Storage} {categories : List Category} :
      loadOwnedSession b.db user sessionId = .ok s → s.status = .initiated →
      completionCategories b.db user s req = .ok categories →
      b.storage.statObject faults s.location = some size →
      size ≤ maxSizeForCategory env.settings s.category.str →
      (∀ scope, usageTotals usage scope = usageTotals b.db.usage scope +
        if scope = s.scope then ((size : ℤ), 1) else 0) →
      b.db.objects.insert (sessionObject s s.expectedMimeType size sha256 .uploaded now) =
        some t →
      (∀ l, st.content l = b.storage.content l) →
      (∀ scope ≠ s.scope, usage.find scope = b.db.usage.find scope) →
      UploadEnds env b faults now user sessionId req (⟨{ b.db.setFiling s.id
          (categories.map Category.id) with
        usage := usage
        objects := t
        sessions := b.db.sessions.update { s with
          status := .completed
          completedAt := some now } }, st⟩,
        (sessionObject s s.expectedMimeType size sha256 .uploaded now).validated)

section Ends

variable {env : Env} {b : Backend} {faults : Faults} {now : Timestamp} {user : UserModel}
  {sessionId : UUID} {req : UploadCompleteRequest} {s : UploadSession}

/-- A plain refusal that changes nothing. -/
theorem ends_refuse (code : ℕ) (message : String) :
    UploadEnds env b faults now user sessionId req (b, refuse code message) :=
  .refused rfl (fun _ => rfl) (.inl rfl)

theorem insertObject_not_rejected {db : Database} {o : MediaObject} {e : Failure}
    (h : db.insertObject o = .error e) : e.isUploadRejected = false := by
  unfold Database.insertObject at h
  split at h
  · cases h
    rfl
  · split at h
    · cases h
      rfl
    · cases h

theorem completionCategories_error {e : Failure}
    (h : completionCategories b.db user s req = .error e) :
    ∃ code message, e = .http ⟨code, .text message⟩ := by
  unfold completionCategories at h
  split at h
  · obtain ⟨i, -, he⟩ := exists_of_mapM_eq_error h
    split at he
    · cases he
    · unfold loadCategory at he
      split at he
      · cases he
        exact ⟨_, _, rfl⟩
      · split at he
        · cases he
        · cases he
          exact ⟨_, _, rfl⟩
  · cases h

theorem ends_rejectUpload (hload : loadOwnedSession b.db user sessionId = .ok s)
    (hi : s.status = .initiated) {usage : UsageTable}
    (hu : usageTotals usage = usageTotals b.db.usage)
    (hrows : ∀ scope ≠ s.scope, usage.find scope = b.db.usage.find scope) {st : Storage}
    (hst : ∀ l, st.content l = b.storage.content l) (reason : UploadRejectReason) (size : ℕ) :
    UploadEnds env b faults now user sessionId req
      (rejectUpload ⟨b.db, st⟩ usage faults now s reason size) := by
  unfold rejectUpload
  split
  · rename_i e he
    exact .refused (insertObject_not_rejected he) hst (.inl rfl)
  · rename_i db hins
    obtain ⟨-, t, ht, rfl⟩ := Database.insertObject_ok hins
    refine .rejected hload hi hu ht (fun l hl => ?_) hrows
    rw [Storage.content_bestEffortRemove, if_neg fun h => hl h.2, hst]

theorem ends_promoteUpload (hload : loadOwnedSession b.db user sessionId = .ok s)
    (hi : s.status = .initiated) {categories : List Category}
    (hcat : completionCategories b.db user s req = .ok categories) {size : ℕ}
    (hstat : b.storage.statObject faults s.location = some size)
    (hcap : size ≤ maxSizeForCategory env.settings s.category.str) {usage : UsageTable}
    (hu : ∀ scope, usageTotals usage scope = usageTotals b.db.usage scope +
      if scope = s.scope then ((size : ℤ), 1) else 0)
    (hrows : ∀ scope ≠ s.scope, usage.find scope = b.db.usage.find scope) {st : Storage}
    (hst : ∀ l, st.content l = b.storage.content l) (sha256 : Option String) :
    UploadEnds env b faults now user sessionId req
      (promoteUpload ⟨b.db, st⟩ usage now s size sha256 categories) := by
  unfold promoteUpload
  dsimp only
  split
  · rename_i e he
    exact .refused (insertObject_not_rejected he) hst (.inl rfl)
  · rename_i db hins
    obtain ⟨-, t, ht, rfl⟩ := Database.insertObject_ok hins
    exact .promoted hload hi hcat hstat hcap hu ht hst hrows

theorem ends_completeSession (hload : loadOwnedSession b.db user sessionId = .ok s)
    (hi : s.status = .initiated) {categories : List Category}
    (hcat : completionCategories b.db user s req = .ok categories) (sha256 : Option String) :
    UploadEnds env b faults now user sessionId req
      (completeSession env b faults now s sha256 categories) := by
  have hreject : ∀ reason size, UploadEnds env b faults now user sessionId req
      (rejectUpload b b.db.usage faults now s reason size) :=
    ends_rejectUpload hload hi rfl (fun _ _ => rfl) fun _ => rfl
  unfold completeSession
  split
  · exact ends_refuse _ _
  · rename_i size hstat
    split
    · exact hreject _ _
    · rename_i hsize
      dsimp only
      split
      · exact hreject _ _
      · split
        · exact ends_refuse _ _
        · exact hreject _ _
        · split
          · exact ends_refuse _ _
          · rename_i storage hct
            have hst := Storage.content_setObjectContentType hct
            have hrows : ∀ {r}, reserveStorageForObject env.settings b.db.usage s.scope size now =
                r → ∀ scope ≠ s.scope, r.1.find scope = b.db.usage.find scope :=
              fun hres scope hscope => hres ▸ find_reserve_ne hscope size now
            split
            · rename_i usage reason hres
              refine ends_rejectUpload hload hi (funext fun scope => ?_) (hrows hres) hst _ _
              have hrefused := usageTotals_reserve_refused (by rw [hres] :
                (reserveStorageForObject env.settings b.db.usage s.scope size now).2 =
                  some reason) scope
              rwa [hres] at hrefused
            · rename_i usage hres
              refine ends_promoteUpload hload hi hcat hstat ?_ (fun scope => ?_) (hrows hres) hst
                sha256
              · exact (not_lt.mp hsize).trans (min_le_right _ _)
              · have hgranted := usageTotals_reserve_granted (by rw [hres] :
                  (reserveStorageForObject env.settings b.db.usage s.scope size now).2 =
                    none) scope
                rwa [hres] at hgranted

/-- A completion comes to one of the three ends. -/
theorem ends_completeUpload (env : Env) (b : Backend) (faults : Faults) (now : Timestamp)
    (user : UserModel) (sessionId : UUID) (req : UploadCompleteRequest) :
    UploadEnds env b faults now user sessionId req
      (completeUpload env b faults now user sessionId req) := by
  rcases completeUpload_cases env b faults now user sessionId req with
    ⟨_, _, he⟩ | ⟨s, hload, hi, hlate, _, _, he⟩ | ⟨_, _, hcat, he⟩ | ⟨s, _, hload, hi, -, hcat, he⟩
  · rw [he]
    exact ends_refuse _ _
  · rw [he]
    exact .refused rfl (fun _ => rfl) (.inr ⟨s, hload, hi, hlate, rfl⟩)
  · obtain ⟨_, _, rfl⟩ := completionCategories_error hcat
    rw [he]
    exact .refused rfl (fun _ => rfl) (.inl rfl)
  · rw [he]
    exact ends_completeSession hload hi hcat req.sha256

end Ends

end MediaService
