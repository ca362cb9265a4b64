import MediaService.Controllers.Admin
import MediaService.Controllers.Uploads
import MediaService.Foundation.Interleaving
import MediaService.Lifecycle.Uploads
import MediaService.Scenario

/-! Completions, aborts and purges of one upload session, cut at every storage
operation and every commit. A request decides on the session as it read it; what
it then writes are the columns it changed, into the row as it stands. The quota
reservation locks its row until the commit, so both are one step. -/

namespace MediaService

open Foundation

/-! ### The requests, step by step -/

inductive RaceRequest where
  | complete (user : UserModel) (req : UploadCompleteRequest)
  | abort (user : UserModel)
  | purge

/-- A completion past its reads: the session, the expected digest, the filing. -/
structure Completing where
  session : UploadSession
  sha256 : Option String
  categories : List Category

/-- What a request does next, with what it has read so far. -/
inductive RacePlace where
  | read (request : RaceRequest)
  | expire (s : UploadSession)
  | stat (c : Completing)
  | head (c : Completing) (sizeBytes : ℕ)
  | digest (c : Completing) (sizeBytes : ℕ)
  | pin (c : Completing) (sizeBytes : ℕ)
  | promote (c : Completing) (sizeBytes : ℕ)
  | reject (s : UploadSession) (reason : UploadRejectReason) (sizeBytes : ℕ)
  | dropRejected (s : UploadSession) (reason : UploadRejectReason)
  | dropAborted (s : UploadSession)
  | markAborted (s : UploadSession)
  | purge (todo stale : List UploadSession)
  | finished (answer : Except Failure Unit)

/-- The `UPDATE` of a session's status column. -/
def Database.setSessionStatus (db : Database) (id : UUID) (status : UploadSessionStatus) :
    Database :=
  { db with
    sessions := db.sessions.modify id (fun s => { s with status := status }) fun _ => rfl }

/-- The `UPDATE` a promotion makes: the status and the time of completion. -/
def Database.setSessionCompleted (db : Database) (id : UUID) (now : Timestamp) : Database :=
  { db with
    sessions := db.sessions.modify id
      (fun s => { s with status := .completed, completedAt := some now }) fun _ => rfl }

/-- The commit of `_reject_upload`; without it the bytes are not touched. -/
def rejectStep (b : Backend) (usage : UsageTable) (now : Timestamp) (s : UploadSession)
    (reason : UploadRejectReason) (sizeBytes : ℕ) : Backend × RacePlace :=
  match ({ b.db with usage := usage } : Database).insertObject
      (sessionObject s s.expectedMimeType sizeBytes none .rejected now) with
  | .error e => (b, .finished (.error e))
  | .ok db => ({ b with db := db.setSessionStatus s.id .aborted }, .dropRejected s reason)

/-- The reservation and the commit of a promotion. -/
def promoteStep (settings : Settings) (b : Backend) (now : Timestamp) (c : Completing)
    (sizeBytes : ℕ) : Backend × RacePlace :=
  match reserveStorageForObject settings b.db.usage c.session.scope sizeBytes now with
  | (usage, some reason) => rejectStep b usage now c.session reason sizeBytes
  | (usage, none) =>
    let object :=
      sessionObject c.session c.session.expectedMimeType sizeBytes c.sha256 .uploaded now
    match ({ b.db with usage := usage } : Database).insertObject object with
    | .error e => (b, .finished (.error e))
    | .ok db =>
      let db := db.setFiling object.id (c.categories.map Category.id)
      ({ b with db := db.setSessionCompleted c.session.id now },
        .finished (object.validated.map fun _ => ()))

/-- The first read of a request, and the refusals that need no other. -/
def readStep (b : Backend) (sessionId : UUID) (now : Timestamp) : RaceRequest → RacePlace
  | .complete user req =>
    match loadOwnedSession b.db user sessionId with
    | .error e => .finished (.error e)
    | .ok s =>
      if s.status ≠ .initiated then
        .finished (refuse 409 ("Upload session is already " ++ s.status.str ++ "."))
      else if now > s.expiresAt then .expire s
      else
        match completionCategories b.db user s req with
        | .error e => .finished (.error e)
        | .ok categories => .stat ⟨s, req.sha256, categories⟩
  | .abort user =>
    match loadOwnedSession b.db user sessionId with
    | .error e => .finished (.error e)
    | .ok s =>
      if s.status = .completed then
        .finished (refuse 409 "Cannot abort a completed upload.")
      else if s.status = .initiated then .dropAborted s
      else .markAborted s
  | .purge => .purge (getStaleUploads b.db now) (getStaleUploads b.db now)

/-- One step of a request on the session `sessionId`. -/
def raceStep (env : Env) (sessionId : UUID) (b : Backend) : RacePlace → Moment → Backend × RacePlace
  | .read request, m => (b, readStep b sessionId m.now request)
  | .expire s, _ =>
    ({ b with db := b.db.setSessionStatus s.id .expired },
      .finished (refuse 409 "Upload session has expired."))
  | .stat c, m =>
    match b.storage.statObject m.faults c.session.location with
    | none =>
      (b, .finished
        (refuse 422 "Object not found in storage. Upload the file before completing."))
    | some size =>
      if size > min c.session.expectedSizeBytes
          (maxSizeForCategory env.settings c.session.category.str) then
        (b, .reject c.session .sizeExceeded size)
      else (b, .head c size)
  | .head c size, m =>
    let head := (b.storage.getObjectHead m.faults env c.session.location).getD []
    if !mimeConsistent c.session.expectedMimeType (env.sniffMime head) then
      (b, .reject c.session .mimeMismatch size)
    else (b, .digest c size)
  | .digest c size, m =>
    match digestOk env b.storage m.faults c.session.location c.sha256 with
    | none => (b, .finished (refuse 422 "Failed to read object for SHA-256 verification."))
    | some false => (b, .reject c.session .sha256Mismatch size)
    | some true => (b, .pin c size)
  | .pin c size, m =>
    match b.storage.setObjectContentType m.faults c.session.location
        c.session.expectedMimeType with
    | none => (b, .finished (refuse 422 "Failed to finalize object content type."))
    | some storage => ({ b with storage := storage }, .promote c size)
  | .promote c size, m => promoteStep env.settings b m.now c size
  | .reject s reason size, m => rejectStep b b.db.usage m.now s reason size
  | .dropRejected s reason, m =>
    ({ b with storage := b.storage.bestEffortRemove m.faults s.location },
      .finished (.error (.http (uploadRejected reason))))
  | .dropAborted s, m =>
    ({ b with storage := b.storage.bestEffortRemove m.faults s.location }, .markAborted s)
  | .markAborted s, _ =>
    -- an unchanged column is not written
    ({ b with db :=
        if s.status = .aborted then b.db else b.db.setSessionStatus s.id .aborted },
      .finished (.ok ()))
  | .purge (s :: todo) stale, m =>
    ({ b with storage := b.storage.bestEffortRemove m.faults s.location }, .purge todo stale)
  | .purge [] stale, _ =>
    ({ b with db := stale.foldl (fun db s => db.setSessionStatus s.id .expired) b.db },
      .finished (.ok ()))
  | .finished answer, _ => (b, .finished answer)

/-- The requests on one session as parties on the backend. -/
abbrev raceTurn {ι : Type*} [DecidableEq ι] (env : Env) (sessionId : UUID) :
    Parties ι Backend RacePlace → ι × Moment → Parties ι Backend RacePlace :=
  turn fun _ => raceStep env sessionId

/-- Every request still before its first read. -/
def raceStart {ι : Type*} (b : Backend) (requests : ι → RaceRequest) :
    Parties ι Backend RacePlace :=
  ⟨b, fun i => .read (requests i)⟩

/-! ### What the writes leave -/

section Writes

variable {b : Backend} {id : UUID}

/-- A row that shows a promoted object: there, and not rejected. -/
def Database.Promoted (db : Database) (id : UUID) (o : MediaObject) : Prop :=
  db.objects.find id = some o ∧ o.status ≠ .rejected

/-- A promoted object of the session has a completed session and its bytes. -/
def RaceSafe (id : UUID) (b : Backend) : Prop :=
  ∀ o, b.db.Promoted id o →
    (∃ s, b.db.sessions.find id = some s ∧ s.status = .completed) ∧
      (b.storage.content o.location).isSome

theorem find_setSessionStatus (db : Database) (i : UUID) (status : UploadSessionStatus) (k : UUID) :
    (db.setSessionStatus i status).sessions.find k =
      if k = i then (db.sessions.find k).map fun s => { s with status := status }
      else db.sessions.find k := by
  rw [Database.setSessionStatus, Table.find_modify]

theorem find_setSessionCompleted (db : Database) (i : UUID) (now : Timestamp)
    (h : (db.sessions.find i).isSome) :
    ∃ s, (db.setSessionCompleted i now).sessions.find i = some s ∧ s.status = .completed := by
  obtain ⟨s, hs⟩ := Option.isSome_iff_exists.mp h
  refine ⟨{ s with status := .completed, completedAt := some now }, ?_, rfl⟩
  rw [Database.setSessionCompleted, Table.find_modify, if_pos rfl, hs]
  rfl

/-- A purge's commit writes the sessions it found stale and no other. -/
theorem find_expireAll (stale : List UploadSession) (db : Database) (k : UUID) :
    (stale.foldl (fun db s => db.setSessionStatus s.id .expired) db).sessions.find k =
      if k ∈ stale.map UploadSession.id then
        (db.sessions.find k).map fun s => { s with status := .expired }
      else db.sessions.find k := by
  induction stale generalizing db with
  | nil => simp
  | cons s stale ih =>
    rw [List.foldl_cons, ih, find_setSessionStatus, List.map_cons]
    by_cases hk : k = s.id
    · simp only [hk, if_true, List.mem_cons, true_or, Option.map_map, Function.comp_def, ite_self]
    · simp [hk]

@[simp] theorem objects_expireAll (stale : List UploadSession) (db : Database) :
    (stale.foldl (fun db s => db.setSessionStatus s.id .expired) db).objects = db.objects := by
  induction stale generalizing db with
  | nil => rfl
  | cons s stale ih => exact ih _

/-- A status other than completed is safe only while nothing is promoted. -/
theorem raceSafe_mark {db : Database} (status : UploadSessionStatus)
    (hst : status ≠ .completed) (hobjects : db.objects = b.db.objects)
    (hsession : db.sessions.find id =
      (b.db.sessions.find id).map fun s => { s with status := status }) :
    RaceSafe id { b with db := db } ↔ RaceSafe id b ∧ ∀ o, ¬ b.db.Promoted id o := by
  have hpromoted : ∀ o, db.Promoted id o ↔ b.db.Promoted id o := by
    intro o
    rw [Database.Promoted, hobjects, Database.Promoted]
  constructor
  · intro h
    have hnone : ∀ o, ¬ b.db.Promoted id o := by
      intro o ho
      obtain ⟨⟨s, hs, hc⟩, -⟩ := h o ((hpromoted o).mpr ho)
      change db.sessions.find id = some s at hs
      rw [hsession, Option.map_eq_some_iff] at hs
      obtain ⟨q, -, rfl⟩ := hs
      exact hst hc
    exact ⟨fun o ho => absurd ho (hnone o), hnone⟩
  · rintro ⟨-, hnone⟩ o ho
    exact absurd ((hpromoted o).mp ho) (hnone o)

/-- A removal is safe only if it misses the promoted object's bytes. -/
theorem raceSafe_remove (faults : Faults) (l : Location) :
    RaceSafe id { b with storage := b.storage.bestEffortRemove faults l } ↔
      RaceSafe id b ∧ ∀ o, b.db.Promoted id o → o.location = l → faults .remove l = true := by
  constructor
  · intro h
    refine ⟨fun o ho => ?_, fun o ho hl => ?_⟩
    · obtain ⟨hs, hbytes⟩ := h o ho
      refine ⟨hs, ?_⟩
      rw [Storage.content_bestEffortRemove] at hbytes
      split at hbytes
      · cases hbytes
      · exact hbytes
    · obtain ⟨-, hbytes⟩ := h o ho
      rw [Storage.content_bestEffortRemove, hl] at hbytes
      by_contra hf
      rw [Bool.not_eq_true] at hf
      simp [hf] at hbytes
  · rintro ⟨h, hmiss⟩ o ho
    obtain ⟨hs, hbytes⟩ := h o ho
    refine ⟨hs, ?_⟩
    rw [Storage.content_bestEffortRemove, if_neg]
    · exact hbytes
    · rintro ⟨hf, hl⟩
      rw [hmiss o ho hl] at hf
      cases hf

/-- Nothing the law speaks of is written. -/
theorem raceSafe_congr {b' : Backend} (hobjects : b'.db.objects = b.db.objects)
    (hsessions : b'.db.sessions.find id = b.db.sessions.find id)
    (hbytes : ∀ l, b'.storage.content l = b.storage.content l) :
    RaceSafe id b' ↔ RaceSafe id b := by
  simp only [RaceSafe, Database.Promoted, hobjects, hsessions, hbytes]

/-- Without a row under its id the session has no promoted object. -/
theorem raceSafe_of_absent (h : b.db.objects.find id = none) : RaceSafe id b := by
  rintro o ⟨ho, -⟩
  rw [h] at ho
  cases ho

end Writes

/-! ### One step -/

/-- What a request knows of the session at each place. -/
def RacePlace.Fits (id : UUID) (b : Backend) : RacePlace → Prop
  | .expire s | .dropAborted s | .markAborted s | .reject s _ _ => s.id = id
  | .stat c | .head c _ | .digest c _ | .pin c _ | .promote c _ =>
    c.session.id = id ∧ (b.db.sessions.find id).isSome
  | .dropRejected _ _ => ∃ o, b.db.objects.find id = some o ∧ o.status = .rejected
  | _ => True

/-- The steps that may spoil a promotion, and what must hold for each: a status
is written or bytes are removed only while nothing is promoted, and a promotion
that nothing else refuses finds its bytes still stored. -/
def SafeTurn (env : Env) (id : UUID) (b : Backend) : RacePlace → Moment → Prop
  | .expire _, _ => ∀ o, ¬ b.db.Promoted id o
  | .markAborted s, _ => s.status ≠ .aborted → ∀ o, ¬ b.db.Promoted id o
  | .purge [] stale, _ => id ∈ stale.map UploadSession.id → ∀ o, ¬ b.db.Promoted id o
  | .dropAborted s, m | .purge (s :: _) _, m =>
    ∀ o, b.db.Promoted id o → o.location = s.location → m.faults .remove s.location = true
  | .promote c size, m =>
    (reserveStorageForObject env.settings b.db.usage c.session.scope size m.now).2 = none →
      (∀ o ∈ b.db.objects, o.id ≠ id ∧ o.location ≠ c.session.location) →
        (b.storage.content c.session.location).isSome
  | _, _ => True

section Step

variable {env : Env} {b : Backend} {id : UUID}

/-- A row inserted under the session's id: there was none, and no other row is at
its location. -/
theorem insertObject_session {db db' : Database} {s : UploadSession} {mime : String} {size : ℕ}
    {sha256 : Option String} {status : MediaObjectStatus} {now : Timestamp}
    (h : db.insertObject (sessionObject s mime size sha256 status now) = .ok db') :
    (∀ o ∈ db.objects, o.id ≠ s.id ∧ o.location ≠ s.location) ∧
      db'.objects.find s.id = some (sessionObject s mime size sha256 status now) ∧
      db'.sessions = db.sessions ∧
      ∀ k, k ≠ s.id → db'.objects.find k = db.objects.find k := by
  obtain ⟨hfree, t, ht, rfl⟩ := Database.insertObject_ok h
  have hnone := Table.find_eq_none.mp (Table.find_none_of_insert ht)
  refine ⟨fun o ho => ⟨hnone o ho, hfree o ho (hnone o ho)⟩, ?_, rfl, fun k hk => ?_⟩
  · exact (Table.find_insert ht s.id).trans (if_pos rfl)
  · exact (Table.find_insert ht k).trans (if_neg hk)

theorem insertObject_session_error {db : Database} {s : UploadSession} {mime : String} {size : ℕ}
    {sha256 : Option String} {status : MediaObjectStatus} {now : Timestamp} {e : Failure}
    (h : db.insertObject (sessionObject s mime size sha256 status now) = .error e) :
    ¬ ∀ o ∈ db.objects, o.id ≠ s.id ∧ o.location ≠ s.location := by
  intro hfree
  unfold Database.insertObject at h
  split at h
  · rename_i htaken
    rw [Database.locationTaken, List.any_eq_true] at htaken
    obtain ⟨o, ho, htaken⟩ := htaken
    rw [decide_eq_true_eq] at htaken
    exact (hfree o ho).2 htaken.2
  · split at h
    · rename_i hins
      obtain ⟨o, ho⟩ := Table.insert_eq_none.mp hins
      exact (hfree o (Table.mem_of_find ho)).1 (Table.key_of_find ho)
    · cases h

/-- A rejected row stands for no promotion, before or after. -/
theorem raceSafe_rejectStep {usage : UsageTable} {now : Timestamp} {s : UploadSession}
    (hid : s.id = id) {reason : UploadRejectReason} {size : ℕ} :
    RaceSafe id (rejectStep b usage now s reason size).1 ↔ RaceSafe id b := by
  subst hid
  unfold rejectStep
  split
  · rfl
  · rename_i db hins
    obtain ⟨hfree, hrow, -, -⟩ := insertObject_session hins
    refine iff_of_true ?_ (raceSafe_of_absent (Table.find_eq_none.mpr fun o ho => (hfree o ho).1))
    rintro o ⟨ho, hst⟩
    rw [show (db.setSessionStatus s.id .aborted).objects.find s.id = _ from hrow] at ho
    cases ho
    exact absurd rfl hst

theorem raceSafe_promoteStep {c : Completing} {size : ℕ} {m : Moment}
    (hid : c.session.id = id) (hsession : (b.db.sessions.find id).isSome) :
    RaceSafe id (promoteStep env.settings b m.now c size).1 ↔
      RaceSafe id b ∧ SafeTurn env id b (.promote c size) m := by
  subst hid
  unfold promoteStep
  simp only [SafeTurn]
  split
  · rename_i usage reason hreserve
    rw [raceSafe_rejectStep rfl, hreserve]
    simp
  · rename_i usage hreserve
    rw [hreserve]
    dsimp only
    split
    · rename_i e hins
      have htaken := insertObject_session_error hins
      exact ⟨fun h => ⟨h, fun _ hfree => absurd hfree htaken⟩, And.left⟩
    · rename_i db hins
      obtain ⟨hfree, hrow, hsessions, -⟩ := insertObject_session hins
      have habsent : RaceSafe c.session.id b :=
        raceSafe_of_absent (Table.find_eq_none.mpr fun o ho => (hfree o ho).1)
      have hcompleted : ∃ s, ((db.setFiling c.session.id
          (c.categories.map Category.id)).setSessionCompleted c.session.id m.now).sessions.find
            c.session.id = some s ∧ s.status = .completed :=
        find_setSessionCompleted _ _ _ (by simpa [Database.setFiling, hsessions] using hsession)
      constructor
      · intro h
        have hpromoted : ((db.setFiling c.session.id
            (c.categories.map Category.id)).setSessionCompleted c.session.id m.now).Promoted
              c.session.id (sessionObject c.session c.session.expectedMimeType size c.sha256
                .uploaded m.now) := by
          exact ⟨hrow, by simp [sessionObject]⟩
        exact ⟨habsent, fun _ _ => (h _ hpromoted).2⟩
      · rintro ⟨-, hbytes⟩ o ⟨ho, -⟩
        obtain rfl : sessionObject c.session c.session.expectedMimeType size c.sha256 .uploaded
            m.now = o := Option.some.inj (hrow.symm.trans ho)
        exact ⟨hcompleted, hbytes rfl hfree⟩

/-- One step keeps the law exactly if it is a safe one. -/
theorem raceSafe_raceStep {p : RacePlace} (hp : p.Fits id b) (m : Moment) :
    RaceSafe id (raceStep env id b p m).1 ↔ RaceSafe id b ∧ SafeTurn env id b p m := by
  cases p with
  | read request => simp [raceStep, SafeTurn]
  | expire s =>
    refine raceSafe_mark .expired (by decide) rfl ?_
    rw [find_setSessionStatus, if_pos (show id = s.id from hp.symm)]
  | stat c =>
    simp only [raceStep, SafeTurn, and_true]
    split
    · rfl
    · split <;> rfl
  | head c size =>
    simp only [raceStep, SafeTurn, and_true]
    split <;> rfl
  | digest c size =>
    simp only [raceStep, SafeTurn, and_true]
    split <;> rfl
  | pin c size =>
    simp only [raceStep, SafeTurn, and_true]
    split
    · rfl
    · rename_i st hst
      exact raceSafe_congr rfl rfl (Storage.content_setObjectContentType hst)
  | promote c size => exact raceSafe_promoteStep hp.1 hp.2
  | reject s reason size =>
    simp only [SafeTurn, and_true]
    exact raceSafe_rejectStep hp
  | dropRejected s reason =>
    -- the row under the id is the rejected one
    obtain ⟨q, hq, hrejected⟩ := hp
    simp only [SafeTurn, and_true]
    refine (raceSafe_remove m.faults s.location).trans (and_iff_left ?_)
    rintro o ⟨ho, hst⟩
    rw [hq] at ho
    cases ho
    exact absurd hrejected hst
  | dropAborted s => exact raceSafe_remove m.faults s.location
  | markAborted s =>
    simp only [raceStep, SafeTurn]
    by_cases hs : s.status = .aborted
    · simp [hs]
    · simp only [hs, if_false, ne_eq, not_false_iff, true_implies]
      refine raceSafe_mark .aborted (by decide) rfl ?_
      rw [find_setSessionStatus, if_pos (show id = s.id from hp.symm)]
  | purge todo stale =>
    cases todo with
    | nil =>
      simp only [raceStep, SafeTurn]
      by_cases hmem : id ∈ stale.map UploadSession.id
      · simp only [hmem, true_implies]
        refine raceSafe_mark .expired (by decide) (objects_expireAll _ _) ?_
        rw [find_expireAll, if_pos hmem]
      · simp only [hmem, false_implies, and_true]
        refine raceSafe_congr (objects_expireAll _ _) ?_ fun _ => rfl
        exact (find_expireAll stale b.db id).trans (if_neg hmem)
    | cons s todo => exact raceSafe_remove m.faults s.location
  | finished answer => simp [raceStep, SafeTurn]

/-! ### What a place knows, kept -/

/-- An accepted row is added to the others. -/
theorem find_of_insertObject {db db' : Database} {o q : MediaObject} {k : UUID}
    (h : db.insertObject o = .ok db') (hq : db.objects.find k = some q) :
    db'.objects.find k = some q := by
  obtain ⟨-, t, ht, rfl⟩ := Database.insertObject_ok h
  have hnone := Table.find_none_of_insert ht
  refine (Table.find_insert ht k).trans ((if_neg ?_).trans hq)
  rintro rfl
  rw [hnone] at hq
  cases hq

theorem sessions_of_insertObject {db db' : Database} {o : MediaObject}
    (h : db.insertObject o = .ok db') : db'.sessions = db.sessions := by
  obtain ⟨-, t, -, rfl⟩ := Database.insertObject_ok h
  rfl

/-- Every row stays: what a write leaves of objects and sessions. -/
def Database.Grows (db db' : Database) : Prop :=
  (∀ k o, db.objects.find k = some o → db'.objects.find k = some o) ∧
    ∀ k, (db'.sessions.find k).isSome = (db.sessions.find k).isSome

theorem Database.Grows.refl (db : Database) : db.Grows db := ⟨fun _ _ h => h, fun _ => rfl⟩

theorem grows_setSessionStatus {db db' : Database} (h : db.Grows db') (i : UUID)
    (status : UploadSessionStatus) : db.Grows (db'.setSessionStatus i status) := by
  refine ⟨h.1, fun k => ?_⟩
  rw [Database.setSessionStatus, Table.find_modify_isSome]
  exact h.2 k

theorem grows_insertObject {usage : UsageTable} {db : Database} {o : MediaObject}
    (h : ({ b.db with usage := usage } : Database).insertObject o = .ok db) : b.db.Grows db := by
  refine ⟨fun k q hq => find_of_insertObject h hq, fun k => ?_⟩
  rw [sessions_of_insertObject h]

theorem grows_rejectStep (usage : UsageTable) (now : Timestamp) (s : UploadSession)
    (reason : UploadRejectReason) (size : ℕ) :
    b.db.Grows (rejectStep b usage now s reason size).1.db := by
  unfold rejectStep
  split
  · exact .refl _
  · rename_i hins
    exact grows_setSessionStatus (grows_insertObject hins) _ _

theorem grows_promoteStep (settings : Settings) (now : Timestamp) (c : Completing) (size : ℕ) :
    b.db.Grows (promoteStep settings b now c size).1.db := by
  unfold promoteStep
  split
  · exact grows_rejectStep _ _ _ _ _
  · dsimp only
    split
    · exact .refl _
    · rename_i db hins
      have hg := grows_insertObject hins
      refine ⟨hg.1, fun k => ?_⟩
      rw [Database.setSessionCompleted, Table.find_modify_isSome]
      exact hg.2 k

theorem grows_raceStep (env : Env) (id : UUID) (p : RacePlace) (m : Moment) :
    b.db.Grows (raceStep env id b p m).1.db := by
  cases p with
  | expire s => exact grows_setSessionStatus (.refl _) _ _
  | stat c =>
    simp only [raceStep]
    split
    · exact .refl _
    · split <;> exact .refl _
  | head c size =>
    simp only [raceStep]
    split <;> exact .refl _
  | digest c size =>
    simp only [raceStep]
    split <;> exact .refl _
  | pin c size =>
    simp only [raceStep]
    split <;> exact .refl _
  | promote c size => exact grows_promoteStep _ _ _ _
  | reject s reason size => exact grows_rejectStep _ _ _ _ _
  | markAborted s =>
    simp only [raceStep]
    split
    · exact .refl _
    · exact grows_setSessionStatus (.refl _) _ _
  | purge todo stale =>
    cases todo with
    | nil =>
      refine ⟨fun k o ho => ?_, fun k => ?_⟩
      · rw [raceStep, objects_expireAll]
        exact ho
      · rw [raceStep, find_expireAll]
        split <;> simp
    | cons s todo => exact .refl _
  | read _ | dropRejected _ _ | dropAborted _ | finished _ => exact .refl _

theorem RacePlace.Fits.grows {p : RacePlace} {b' : Backend} (h : p.Fits id b)
    (hg : b.db.Grows b'.db) : p.Fits id b' := by
  cases p with
  | stat c | head c _ | digest c _ | pin c _ | promote c _ => exact ⟨h.1, (hg.2 id).trans h.2⟩
  | dropRejected s reason =>
    obtain ⟨o, ho, hst⟩ := h
    exact ⟨o, hg.1 id o ho, hst⟩
  | _ => exact h

theorem fits_readStep (now : Timestamp) (request : RaceRequest) :
    (readStep b id now request).Fits id b := by
  cases request with
  | complete user req =>
    simp only [readStep]
    split
    · trivial
    · rename_i s hload
      obtain ⟨hs, hid, -⟩ := loadOwnedSession_ok hload
      split
      · trivial
      · split
        · exact hid
        · split
          · trivial
          · exact ⟨hid, by rw [← hid, hs]; rfl⟩
  | abort user =>
    simp only [readStep]
    split
    · trivial
    · rename_i s hload
      obtain ⟨-, hid, -⟩ := loadOwnedSession_ok hload
      split
      · trivial
      · split
        · exact hid
        · exact hid
  | purge => trivial

theorem fits_rejectStep {usage : UsageTable} {now : Timestamp} {s : UploadSession}
    (hid : s.id = id) (reason : UploadRejectReason) (size : ℕ) :
    (rejectStep b usage now s reason size).2.Fits id (rejectStep b usage now s reason size).1 := by
  subst hid
  unfold rejectStep
  split
  · trivial
  · rename_i db hins
    obtain ⟨-, hrow, -, -⟩ := insertObject_session hins
    exact ⟨_, hrow, rfl⟩

/-- A step leaves its own party knowing what its next place needs. -/
theorem fits_raceStep {p : RacePlace} (hp : p.Fits id b) (m : Moment) :
    (raceStep env id b p m).2.Fits id (raceStep env id b p m).1 := by
  cases p with
  | read request => exact fits_readStep m.now request
  | stat c =>
    simp only [raceStep]
    split
    · trivial
    · split
      · exact hp.1
      · exact hp
  | head c size =>
    simp only [raceStep]
    split
    · exact hp.1
    · exact hp
  | digest c size =>
    simp only [raceStep]
    split
    · trivial
    · exact hp.1
    · exact hp
  | pin c size =>
    simp only [raceStep]
    split
    · trivial
    · exact hp
  | promote c size =>
    simp only [raceStep, promoteStep]
    split
    · exact fits_rejectStep hp.1 _ _
    · split <;> trivial
  | reject s reason size => exact fits_rejectStep hp _ _
  | dropAborted s => exact hp
  | purge todo stale => cases todo <;> trivial
  | expire _ | dropRejected _ _ | markAborted _ | finished _ => trivial

end Step

/-! ### Every interleaving -/

section Race

variable {ι : Type*} [DecidableEq ι]

theorem fits_raceTurn {env : Env} {id : UUID} {s : Parties ι Backend RacePlace}
    (hs : ∀ i, (s.place i).Fits id s.shared) (m : ι × Moment) (i : ι) :
    ((raceTurn env id s m).place i).Fits id (raceTurn env id s m).shared :=
  (turn_inv (G := fun _ => True) (L := fun _ b (p : RacePlace) => p.Fits id b)
    (fun _ _ _ _ _ _ => trivial) (fun _ _ _ m _ hp => fits_raceStep hp m)
    (fun _ _ _ p _ m _ _ _ hu => hu.grows (grows_raceStep env id p m)) ⟨trivial, hs⟩ m).2 i

/-- Whatever requests race for a session, in whatever order their steps come: the
law holds at the end if and only if it held at the start and every step was a
safe one. -/
theorem raceSafe_iff (env : Env) (id : UUID) (b : Backend) (requests : ι → RaceRequest)
    (ms : List (ι × Moment)) :
    RaceSafe id (run (raceTurn env id) (raceStart b requests) ms).shared ↔
      RaceSafe id b ∧ Guarded (raceTurn env id)
        (fun s m => SafeTurn env id s.shared (s.place m.1) m.2) (raceStart b requests) ms :=
  run_iff_guarded (I := fun s : Parties ι Backend RacePlace => ∀ i, (s.place i).Fits id s.shared)
    (P := fun s => RaceSafe id s.shared) (fun _ m hs => fits_raceTurn hs m)
    (fun _ m hs => raceSafe_raceStep (hs m.1) m.2) (fun _ => trivial)

end Race

instance (id : UUID) (b : Backend) : Decidable (RaceSafe id b) :=
  decidable_of_iff (∀ o ∈ b.db.objects.find id, o.status ≠ .rejected →
    (∃ s ∈ b.db.sessions.find id, s.status = .completed) ∧
      (b.storage.content o.location).isSome = true)
    ⟨fun h o ho => h o ho.1 ho.2, fun h o ho hst => h o ⟨ho, hst⟩⟩

/-- A private PNG is posted and waits for its completion. -/
def postedBackend : Backend :=
  (run (serve Env.default) World.initial
    ((uploadRequests Env.default 0 ⟨2⟩ (.ordinary 1) .private pngSignature).take 2)).backend

/-- The owner aborts on one connection and completes on the other. -/
def abortAndComplete : Bool → RaceRequest
  | false => .abort (.ordinary 1)
  | true => .complete (.ordinary 1) ⟨none, none⟩

/-- The abort reads the session, the completion runs from end to end, and the
abort then removes and marks. -/
def abortAround : List (Bool × Moment) :=
  [false, true, true, true, true, true, true, false, false].map fun i => (i, ⟨0, Faults.none⟩)

theorem not_raceSafe : RaceSafe ⟨2⟩ postedBackend ∧
    ¬ RaceSafe ⟨2⟩ (run (raceTurn Env.default ⟨2⟩) (raceStart postedBackend abortAndComplete)
      abortAround).shared := by
  decide +kernel

end MediaService
