import MediaService.Invariants.DeclaredRows
import MediaService.Scenario

/-! The three outcomes of a completion, told apart by its answer. The file is there
and paid for, or a rejected row is there and nothing is paid, or nothing changed but
that an expired session says so. One end is none of them. A digest is stored as it is
sent, and an empty one is not verified, so the answer of a completion that has been
committed may not fit its model. -/

namespace MediaService

open Foundation

/-- What a completion comes to. -/
inductive UploadOutcome where
  | promoted | rejected | refused

/-- The answer, and what the service has after it. -/
def UploadOutcome.Holds (b : Backend) (faults : Faults) (now : Timestamp) (sessionId : UUID)
    (r : Backend × Except Failure MediaObject) : UploadOutcome → Prop
  | .promoted => ∃ o s, r.2 = .ok o ∧ b.db.sessions.find sessionId = some s ∧
      r.1.db.sessions.find sessionId =
        some { s with status := .completed, completedAt := some now } ∧
      r.1.db.objects.find sessionId = some o ∧
      b.storage.statObject faults s.location = some o.sizeBytes ∧
      o.status = .uploaded ∧ o.scanStatus = .pending ∧
      ∀ scope, usageTotals r.1.db.usage scope = usageTotals b.db.usage scope +
        if scope = s.scope then ((o.sizeBytes : ℤ), 1) else 0
  | .rejected => ∃ e s o, r.2 = .error e ∧ e.isUploadRejected = true ∧
      b.db.sessions.find sessionId = some s ∧
      r.1.db.sessions.find sessionId = some { s with status := .aborted } ∧
      r.1.db.objects.find sessionId = some o ∧ o.status = .rejected ∧
      usageTotals r.1.db.usage = usageTotals b.db.usage
  | .refused => ∃ e, r.2 = .error e ∧ e.isUploadRejected = false ∧
      usageTotals r.1.db.usage = usageTotals b.db.usage ∧ r.1.db.objects = b.db.objects ∧
      r.1.db.links = b.db.links ∧ (∀ l, r.1.storage.content l = b.storage.content l) ∧
      (r.1.db.sessions = b.db.sessions ∨ ∃ s, b.db.sessions.find sessionId = some s ∧
        s.status = .initiated ∧ s.expiresAt < now ∧
        r.1.db.sessions = b.db.sessions.update { s with status := .expired })

section Outcome

variable {env : Env} {b : Backend} {faults : Faults} {now : Timestamp} {user : UserModel}
  {sessionId : UUID} {req : UploadCompleteRequest} {r : Backend × Except Failure MediaObject}

/-- An end has its outcome unless the answer fails its own model. -/
theorem UploadEnds.exists_outcome (h : UploadEnds env b faults now user sessionId req r)
    (hanswer : ∀ model, r.2 ≠ .error (.validationError model)) :
    ∃ outcome : UploadOutcome, outcome.Holds b faults now sessionId r := by
  cases h with
  | refused he hst hdb =>
    refine ⟨.refused, _, rfl, he, ?_⟩
    rcases hdb with rfl | ⟨s, hload, hi, hlate, rfl⟩
    · exact ⟨rfl, rfl, rfl, hst, .inl rfl⟩
    · obtain ⟨hfind, hid, -⟩ := loadOwnedSession_ok hload
      exact ⟨rfl, rfl, rfl, hst, .inr ⟨s, hid ▸ hfind, hi, hlate, rfl⟩⟩
  | rejected hload _ hu ht _ _ =>
    obtain ⟨hfind, rfl, -⟩ := loadOwnedSession_ok hload
    exact ⟨.rejected, _, _, _, rfl, rfl, hfind, Table.find_update_self hfind,
      Table.find_insert_self ht, rfl, hu⟩
  | @promoted s _ size sha256 _ _ _ hload _ _ hstat _ hu ht _ _ =>
    obtain ⟨hfind, rfl, -⟩ := loadOwnedSession_ok hload
    cases hfields : (sessionObject s s.expectedMimeType size sha256 .uploaded now).validFields with
    | true =>
      exact ⟨.promoted, _, _, MediaObject.validated_eq_ok.mpr ⟨hfields, rfl⟩, hfind,
        Table.find_update_self hfind, Table.find_insert_self ht, hstat, rfl, rfl, hu⟩
    | false =>
      refine absurd ?_ (hanswer "MediaObjectPublic")
      simp [MediaObject.validated, hfields]

/-- The outcome an answer belongs to. -/
def UploadOutcome.of : Except Failure MediaObject → UploadOutcome
  | .ok _ => .promoted
  | .error e => if e.isUploadRejected then .rejected else .refused

theorem UploadOutcome.Holds.eq_of {outcome : UploadOutcome}
    (h : outcome.Holds b faults now sessionId r) : outcome = .of r.2 := by
  cases outcome with
  | promoted =>
    obtain ⟨o, s, hr, -⟩ := h
    rw [hr]
    rfl
  | rejected =>
    obtain ⟨e, s, o, hr, he, -⟩ := h
    rw [hr, UploadOutcome.of, if_pos he]
  | refused =>
    obtain ⟨e, hr, he, -⟩ := h
    rw [hr, UploadOutcome.of, he]
    rfl

/-- No outcome holds of an answer that fails its model behind an object. -/
theorem not_holds_of_unanswered {model : String} (hanswer : r.2 = .error (.validationError model))
    (hobjects : r.1.db.objects ≠ b.db.objects) (outcome : UploadOutcome) :
    ¬ outcome.Holds b faults now sessionId r := by
  intro hout
  cases outcome with
  | promoted =>
    obtain ⟨_, _, hok, -⟩ := hout
    rw [hanswer] at hok
    cases hok
  | rejected =>
    obtain ⟨_, _, _, herr, hrejected, -⟩ := hout
    rw [hanswer] at herr
    cases herr
    cases hrejected
  | refused =>
    obtain ⟨_, -, -, -, hsame, -⟩ := hout
    exact hobjects hsame

end Outcome

/-! ### The checks -/

section Checks

variable {env : Env} {b : Backend} {faults : Faults} {now : Timestamp} {user : UserModel}
  {sessionId : UUID} {req : UploadCompleteRequest} {s : UploadSession} {size : ℕ}

/-- A session passes every check of its completion. -/
structure PassesChecks (env : Env) (b : Backend) (faults : Faults) (now : Timestamp)
    (user : UserModel) (sessionId : UUID) (req : UploadCompleteRequest) (s : UploadSession)
    (size : ℕ) : Prop where
  owned : loadOwnedSession b.db user sessionId = .ok s
  initiated : s.status = .initiated
  not_expired : ¬ now > s.expiresAt
  categories : ∃ categories, completionCategories b.db user s req = .ok categories
  stored : b.storage.statObject faults s.location = some size
  size_le : ¬ size > min s.expectedSizeBytes (maxSizeForCategory env.settings s.category.str)
  mime : mimeConsistent s.expectedMimeType
    (env.sniffMime ((b.storage.getObjectHead faults env s.location).getD [])) = true
  digest : digestOk env b.storage faults s.location req.sha256 = some true
  pinned : (b.storage.setObjectContentType faults s.location s.expectedMimeType).isSome
  reserved : (reserveStorageForObject env.settings b.db.usage s.scope size now).2 = none

/-- A completion that passes them is promoted. -/
theorem PassesChecks.promotes (h : PassesChecks env b faults now user sessionId req s size) :
    ∃ storage usage categories, b.storage.setObjectContentType faults s.location
        s.expectedMimeType = some storage ∧
      completeUpload env b faults now user sessionId req =
        promoteUpload { b with storage := storage } usage now s size req.sha256 categories := by
  obtain ⟨categories, hcat⟩ := h.categories
  obtain ⟨storage, hpin⟩ := Option.isSome_iff_exists.mp h.pinned
  have hcompletable : ensureCompletable b.db s now = (b.db, .ok ()) := by
    unfold ensureCompletable
    rw [if_neg (not_not.mpr h.initiated), if_neg h.not_expired]
  obtain ⟨usage, hreserve⟩ : ∃ usage,
      reserveStorageForObject env.settings b.db.usage s.scope size now = (usage, none) :=
    ⟨_, Prod.ext rfl h.reserved⟩
  refine ⟨storage, usage, categories, hpin, ?_⟩
  unfold completeUpload
  simp only [h.owned, hcompletable, hcat]
  unfold completeSession
  simp only [h.stored, if_neg h.size_le, h.mime, Bool.not_true, Bool.false_eq_true, if_false,
    h.digest, hpin, hreserve]

theorem insertObject_not_validation {db : Database} {o : MediaObject} {model : String} :
    db.insertObject o ≠ .error (.validationError model) := by
  unfold Database.insertObject
  split
  · simp
  · split <;> simp

theorem rejectUpload_not_validation {usage : UsageTable} {reason : UploadRejectReason}
    {model : String} :
    (rejectUpload b usage faults now s reason size).2 ≠ .error (.validationError model) := by
  unfold rejectUpload
  split
  · rename_i e he
    rintro ⟨⟩
    exact insertObject_not_validation he
  · simp

theorem promoteUpload_validation {usage : UsageTable} {sha256 : Option String}
    {categories : List Category} {model : String}
    (h : (promoteUpload b usage now s size sha256 categories).2 = .error (.validationError model)) :
    ¬ s.FitsAnswer sha256 := by
  unfold promoteUpload at h
  dsimp only at h
  split at h
  · rename_i e he
    cases h
    exact absurd he insertObject_not_validation
  · rw [← @validFields_sessionObject s sha256 size .uploaded now]
    unfold MediaObject.validated at h
    split at h
    · cases h
    · assumption

theorem exists_passesChecks_of_session {categories : List Category} {model : String}
    (hload : loadOwnedSession b.db user sessionId = .ok s) (hi : s.status = .initiated)
    (hlate : ¬ now > s.expiresAt) (hcat : completionCategories b.db user s req = .ok categories)
    (h : (completeSession env b faults now s req.sha256 categories).2 =
      .error (.validationError model)) :
    ∃ size, PassesChecks env b faults now user sessionId req s size ∧
      ¬ s.FitsAnswer req.sha256 := by
  unfold completeSession at h
  split at h
  · simp [refuse] at h
  · rename_i size hstat
    split at h
    · exact absurd h rejectUpload_not_validation
    · rename_i hsize
      dsimp only at h
      split at h
      · exact absurd h rejectUpload_not_validation
      · rename_i hmime
        split at h
        · simp [refuse] at h
        · exact absurd h rejectUpload_not_validation
        · rename_i hdigest
          split at h
          · simp [refuse] at h
          · rename_i storage hpin
            split at h
            · exact absurd h rejectUpload_not_validation
            · rename_i usage hres
              refine ⟨size, ?_, promoteUpload_validation h⟩
              exact {
                owned := hload
                initiated := hi
                not_expired := hlate
                categories := ⟨_, hcat⟩
                stored := hstat
                size_le := hsize
                mime := by simpa using hmime
                digest := hdigest
                pinned := by rw [hpin]; rfl
                reserved := by rw [hres] }

/-- Only a completion that passes them, of which the answer does not fit, fails the
model of its answer. -/
theorem exists_passesChecks {model : String}
    (h : (completeUpload env b faults now user sessionId req).2 =
      .error (.validationError model)) :
    ∃ s size, PassesChecks env b faults now user sessionId req s size ∧
      ¬ s.FitsAnswer req.sha256 := by
  rcases completeUpload_cases env b faults now user sessionId req with
    ⟨_, _, he⟩ | ⟨_, -, -, -, _, _, he⟩ | ⟨_, _, hcat, he⟩ | ⟨s, _, hload, hi, hlate, hcat, he⟩
  · rw [he] at h
    simp [refuse] at h
  · rw [he] at h
    simp [refuse] at h
  · obtain ⟨_, _, rfl⟩ := completionCategories_error hcat
    rw [he] at h
    simp at h
  · rw [he] at h
    exact ⟨s, exists_passesChecks_of_session hload hi hlate hcat h⟩

/-- One that passes them stores its object, whatever becomes of the answer. -/
theorem PassesChecks.unanswered (hk : WellKept env b.holdings)
    (h : PassesChecks env b faults now user sessionId req s size)
    (hfits : ¬ s.FitsAnswer req.sha256) :
    (completeUpload env b faults now user sessionId req).2 =
        .error (.validationError "MediaObjectPublic") ∧
      (completeUpload env b faults now user sessionId req).1.db.objects ≠ b.db.objects := by
  obtain ⟨storage, usage, categories, hpin, he⟩ := h.promotes
  obtain ⟨hfind, rfl, -⟩ := loadOwnedSession_ok h.owned
  rw [← holdings_setObjectContentType hpin] at hk
  set object := sessionObject s s.expectedMimeType size req.sha256 .uploaded now with hobject
  obtain ⟨db, hins⟩ := insertObject_eq_ok (o := object) hk hfind h.initiated rfl rfl usage
  rw [he]
  unfold promoteUpload
  simp only [← hobject, hins]
  constructor
  · unfold MediaObject.validated
    exact if_neg fun hfields => hfits (validFields_sessionObject.mp hfields)
  · obtain ⟨-, t, ht, rfl⟩ := Database.insertObject_ok hins
    intro hsame
    have hnone := Table.insert_isSome.mp (by rw [ht]; rfl)
    have hsome := Table.find_insert_self ht
    rw [show t = b.db.objects from hsame] at hsome
    exact absurd (hnone.symm.trans hsome) (by simp)

end Checks

/-! ### Runs -/

theorem fitsAnswer_iff {env : Env} {s : UploadSession} (hs : s.Declared env)
    {sha256 : Option String} :
    s.FitsAnswer sha256 ↔ ∀ sha, sha256 = some sha → sha.length = 64 := by
  refine ⟨fun h => h.digest, fun hsha => ⟨fun name hname => ?_, ?_, hsha⟩⟩
  · obtain ⟨value, hvalue⟩ := hs.1 name hname
    exact length_of_validateFilename hvalue
  · exact length_of_allowedDeclaredMime hs.2

/-- A completion in a reachable state has exactly one outcome, whatever its storage
operations do, unless it passes every check with a digest that is not of the length
of one. -/
theorem completeUpload_outcome_iff (env : Env) (rs : List Request) (faults : Faults)
    (now : Timestamp) (user : UserModel) (sessionId : UUID) (req : UploadCompleteRequest) :
    let b := (run (serve env) World.initial rs).backend
    (∃! outcome : UploadOutcome, outcome.Holds b faults now sessionId
      (completeUpload env b faults now user sessionId req)) ↔
    ∀ s size, PassesChecks env b faults now user sessionId req s size →
      ∀ sha, req.sha256 = some sha → sha.length = 64 := by
  intro b
  have hk : WellKept env b.holdings := (worldInv_run env rs).kept
  have hfits : ∀ {s size}, PassesChecks env b faults now user sessionId req s size →
      (s.FitsAnswer req.sha256 ↔ ∀ sha, req.sha256 = some sha → sha.length = 64) :=
    fun hpass => fitsAnswer_iff ((declaredRows_run env rs).sessions _
      (Table.mem_of_find (loadOwnedSession_ok hpass.owned).1))
  constructor
  · rintro ⟨outcome, hout, -⟩ s size hpass
    by_contra hbad
    obtain ⟨hanswer, hobjects⟩ := hpass.unanswered hk fun h => hbad ((hfits hpass).mp h)
    exact not_holds_of_unanswered hanswer hobjects outcome hout
  · intro hsha
    obtain ⟨outcome, hout⟩ := (ends_completeUpload env b faults now user sessionId
      req).exists_outcome fun model he => by
        obtain ⟨s, size, hpass, hbad⟩ := exists_passesChecks he
        exact hbad ((hfits hpass).mpr (hsha s size hpass))
    exact ⟨outcome, hout, fun _ hout' => hout'.eq_of.trans hout.eq_of.symm⟩

/-- Completed with an empty digest, a posted file is stored and paid for behind an
answer that is none of the three. -/
theorem not_completeUpload_outcome :
    ¬ ∃! outcome : UploadOutcome, outcome.Holds
      (run (serve Env.default) World.initial postedRequests).backend Faults.none 0 ⟨2⟩
      (completeUpload Env.default (run (serve Env.default) World.initial postedRequests).backend
        Faults.none 0 (.ordinary 1) ⟨2⟩ ⟨some "", none⟩) := by
  rintro ⟨outcome, hout, -⟩
  have hanswer : (completeUpload Env.default
      (run (serve Env.default) World.initial postedRequests).backend Faults.none 0 (.ordinary 1)
      ⟨2⟩ ⟨some "", none⟩).2 = .error (.validationError "MediaObjectPublic") := by
    decide +kernel
  have hchanged : (completeUpload Env.default
      (run (serve Env.default) World.initial postedRequests).backend Faults.none 0 (.ordinary 1)
      ⟨2⟩ ⟨some "", none⟩).1.db.objects.rows ≠
        (run (serve Env.default) World.initial postedRequests).backend.db.objects.rows := by
    decide +kernel
  exact not_holds_of_unanswered hanswer (fun hsame => hchanged (congrArg Table.rows hsame))
    outcome hout

end MediaService
