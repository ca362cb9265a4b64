import MediaService.Concurrency.UploadRace

/-! A request of the upload race that nothing interrupts is its controller: the
steps of a completion, an abort and a purge, taken in a row, leave the backend
and the answer of `complete_upload`, `abort_upload` and `purge_stale_uploads`. -/

namespace MediaService

open Foundation

variable {env : Env} {id : UUID} {b : Backend} {m : Moment}

/-- The steps of one request, nothing else running. -/
abbrev soloStep (env : Env) (id : UUID) (p : Backend × RacePlace) (m : Moment) :
    Backend × RacePlace :=
  raceStep env id p.1 p.2 m

/-- A request that answered does nothing more. -/
theorem solo_finished (answer : Except Failure Unit) (n : ℕ) :
    run (soloStep env id) (b, .finished answer) (List.replicate n m) = (b, .finished answer) :=
  run_replicate_of_eq _ rfl n

theorem setSessionStatus_found {db : Database} {s : UploadSession}
    (h : db.sessions.find s.id = some s) (status : UploadSessionStatus) :
    db.setSessionStatus s.id status = db.updateSession { s with status := status } := by
  rw [Database.setSessionStatus, Table.modify_eq_update h]
  rfl

theorem setSessionCompleted_found {db : Database} {s : UploadSession}
    (h : db.sessions.find s.id = some s) (now : Timestamp) :
    db.setSessionCompleted s.id now =
      db.updateSession { s with status := .completed, completedAt := some now } := by
  rw [Database.setSessionCompleted, Table.modify_eq_update h]
  rfl

/-- The backend and the answer of a controller, as the place a request ends at. -/
def ended {α : Type} (r : Backend × Except Failure α) : Backend × RacePlace :=
  (r.1, .finished (r.2.map fun _ => ()))

theorem solo_rejectStep {s : UploadSession} (hs : b.db.sessions.find s.id = some s)
    (usage : UsageTable) (reason : UploadRejectReason) (size n : ℕ) :
    run (soloStep env id) (rejectStep b usage m.now s reason size) (List.replicate (n + 1) m) =
      ended (rejectUpload b usage m.faults m.now s reason size) := by
  cases hins : ({ b.db with usage := usage } : Database).insertObject
      (sessionObject s s.expectedMimeType size none .rejected m.now) with
  | error e =>
    dsimp only at hins
    simp only [rejectStep, rejectUpload, hins, ended]
    exact solo_finished _ _
  | ok db =>
    have hs' : db.sessions.find s.id = some s := by rw [sessions_of_insertObject hins]; exact hs
    dsimp only at hins
    simp only [rejectStep, rejectUpload, hins, ended]
    rw [List.replicate_succ, run_cons, setSessionStatus_found hs']
    exact solo_finished _ _

/-- The reservation and what follows it in `completeSession`. -/
theorem solo_promoteStep {c : Completing} (hs : b.db.sessions.find c.session.id = some c.session)
    (size n : ℕ) :
    run (soloStep env id) (promoteStep env.settings b m.now c size) (List.replicate (n + 1) m) =
      ended (match reserveStorageForObject env.settings b.db.usage c.session.scope size m.now with
        | (usage, some reason) => rejectUpload b usage m.faults m.now c.session reason size
        | (usage, none) => promoteUpload b usage m.now c.session size c.sha256 c.categories) := by
  unfold promoteStep
  rcases reserveStorageForObject env.settings b.db.usage c.session.scope size m.now with
    ⟨usage, _ | reason⟩
  · cases hins : ({ b.db with usage := usage } : Database).insertObject (sessionObject c.session
        c.session.expectedMimeType size c.sha256 .uploaded m.now) with
    | error e =>
      dsimp only at hins
      simp only [promoteUpload, hins, ended]
      exact solo_finished _ _
    | ok db =>
      have hs' : (db.setFiling c.session.id (c.categories.map Category.id)).sessions.find
          c.session.id = some c.session := by
        rw [Database.setFiling, sessions_of_insertObject hins]
        exact hs
      dsimp only at hins
      simp only [promoteUpload, hins, ended]
      rw [show (sessionObject c.session c.session.expectedMimeType size c.sha256 .uploaded
        m.now).id = c.session.id from rfl, setSessionCompleted_found hs']
      exact solo_finished _ _
  · exact solo_rejectStep hs usage reason size n

theorem solo_completeSession {s : UploadSession} (hs : b.db.sessions.find s.id = some s)
    (sha256 : Option String) (categories : List Category) :
    run (soloStep env id) (b, .stat ⟨s, sha256, categories⟩) (List.replicate 6 m) =
      ended (completeSession env b m.faults m.now s sha256 categories) := by
  unfold completeSession
  rw [List.replicate_succ, run_cons]
  cases hstat : b.storage.statObject m.faults s.location with
  | none =>
    simp only [soloStep, raceStep, hstat]
    exact solo_finished _ _
  | some size =>
    simp only [soloStep, raceStep, hstat]
    split
    · exact solo_rejectStep hs _ _ _ _
    · rw [List.replicate_succ, run_cons]
      simp only [soloStep, raceStep]
      split
      · exact solo_rejectStep hs _ _ _ _
      · rw [List.replicate_succ, run_cons]
        cases hdigest : digestOk env b.storage m.faults s.location sha256 with
        | none =>
          simp only [soloStep, raceStep, hdigest]
          exact solo_finished _ _
        | some ok =>
          cases ok with
          | false =>
            simp only [soloStep, raceStep, hdigest]
            exact solo_rejectStep hs _ _ _ _
          | true =>
            simp only [soloStep, raceStep, hdigest]
            rw [List.replicate_succ, run_cons]
            cases hpin : b.storage.setObjectContentType m.faults s.location s.expectedMimeType with
            | none =>
              simp only [soloStep, raceStep, hpin]
              exact solo_finished _ _
            | some storage =>
              simp only [soloStep, raceStep, hpin]
              exact @solo_promoteStep env id { b with storage := storage } m
                ⟨s, sha256, categories⟩ hs size 0

/-- A completion whose steps nothing separates is `complete_upload`. -/
theorem solo_complete (user : UserModel) (req : UploadCompleteRequest) :
    run (soloStep env id) (b, .read (.complete user req)) (List.replicate 7 m) =
      ended (completeUpload env b m.faults m.now user id req) := by
  unfold completeUpload
  rw [List.replicate_succ, run_cons]
  simp only [soloStep, raceStep, readStep]
  cases hload : loadOwnedSession b.db user id with
  | error e => exact solo_finished _ _
  | ok s =>
    have hs : b.db.sessions.find s.id = some s := (loadOwnedSession_ok hload).1
    simp only [ensureCompletable]
    by_cases hi : s.status = .initiated
    · by_cases hlate : m.now > s.expiresAt
      · simp only [hi, ne_eq, not_true_eq_false, if_false, hlate, if_true]
        rw [List.replicate_succ, run_cons, soloStep, raceStep, setSessionStatus_found hs]
        exact solo_finished _ _
      · simp only [hi, ne_eq, not_true_eq_false, if_false, hlate]
        cases hcat : completionCategories b.db user s req with
        | error e => exact solo_finished _ _
        | ok categories => exact solo_completeSession hs req.sha256 categories
    · simp only [ne_eq, hi, not_false_eq_true, if_true]
      exact solo_finished _ _

/-- An abort alone is `abort_upload`. -/
theorem solo_abort (user : UserModel) :
    run (soloStep env id) (b, .read (.abort user)) (List.replicate 3 m) =
      ended (abortUpload b m.faults user id) := by
  unfold abortUpload
  rw [List.replicate_succ, run_cons]
  simp only [soloStep, raceStep, readStep]
  cases hload : loadOwnedSession b.db user id with
  | error e => exact solo_finished _ _
  | ok s =>
    have hs : b.db.sessions.find s.id = some s := (loadOwnedSession_ok hload).1
    by_cases hc : s.status = .completed
    · simp only [hc, if_true]
      exact solo_finished _ _
    · by_cases hi : s.status = .initiated
      · simp only [hi, reduceCtorEq, if_false, if_true]
        rw [List.replicate_succ, run_cons, soloStep, raceStep, List.replicate_succ, run_cons,
          soloStep, raceStep]
        simp only [hi, reduceCtorEq, if_false]
        rw [setSessionStatus_found hs]
        exact solo_finished _ _
      · simp only [hc, hi, if_false]
        rw [List.replicate_succ, run_cons, soloStep, raceStep]
        by_cases ha : s.status = .aborted
        · rw [if_pos ha, Database.updateSession, ← ha, Table.update_self hs]
          exact solo_finished _ _
        · rw [if_neg ha, setSessionStatus_found hs]
          exact solo_finished _ _

theorem solo_purgeFrom (todo stale : List UploadSession) :
    run (soloStep env id) (b, .purge todo stale) (List.replicate (todo.length + 1) m) =
      (⟨stale.foldl (fun db s => db.setSessionStatus s.id .expired) b.db,
        todo.foldl (fun st s => st.bestEffortRemove m.faults s.location) b.storage⟩,
          .finished (.ok ())) := by
  induction todo generalizing b with
  | nil => rfl
  | cons s todo ih =>
    rw [List.length_cons, List.replicate_succ, run_cons]
    exact ih

/-- The purge's commit, row by row. -/
theorem expireAll_eq (stale : List UploadSession) (db : Database) :
    stale.foldl (fun db s => db.setSessionStatus s.id .expired) db =
      { db with
        sessions := db.sessions.mapRows
          (fun s => if s.id ∈ stale.map UploadSession.id then { s with status := .expired } else s)
          fun s => by split <;> rfl } := by
  induction stale generalizing db with
  | nil => simp [Table.mapRows]
  | cons s stale ih =>
    rw [List.foldl_cons, ih]
    simp only [Database.setSessionStatus, Table.modify, Table.mapRows, List.map_map]
    congr 2
    refine List.map_congr_left fun q _ => ?_
    by_cases hq : q.id = s.id
    · simp only [Function.comp_apply, hq, if_true, List.map_cons, List.mem_cons, true_or, ite_self]
    · simp [hq]

theorem expireAll_stale (db : Database) (now : Timestamp) :
    (getStaleUploads db now).foldl (fun db s => db.setSessionStatus s.id .expired) db =
      { db with
        sessions := db.sessions.mapRows (expireStale now) (id_expireStale now) } := by
  rw [expireAll_eq]
  simp only [Table.mapRows]
  congr 2
  refine List.map_congr_left fun s hs => ?_
  have hmem : s.id ∈ (getStaleUploads db now).map UploadSession.id ↔ isStale now s = true := by
    rw [List.mem_map]
    constructor
    · rintro ⟨q, hq, hid⟩
      obtain ⟨hq, hstale⟩ := List.mem_filter.mp hq
      exact Table.eq_of_key_eq hq hs hid ▸ hstale
    · exact fun h => ⟨s, List.mem_filter.mpr ⟨hs, h⟩, rfl⟩
  simp only [hmem, expireStale]

/-- A purge alone takes one step for each session it finds stale, and is
`purge_stale_uploads`. -/
theorem solo_purge :
    run (soloStep env id) (b, .read .purge)
        (List.replicate ((getStaleUploads b.db m.now).length + 2) m) =
      ((purgeStaleUploads b m.faults m.now).1, .finished (.ok ())) := by
  rw [List.replicate_succ, run_cons]
  refine (solo_purgeFrom _ _).trans ?_
  rw [expireAll_stale]
  rfl

/-- A party that takes all the turns runs its request and nothing else. -/
theorem raceTurn_alone {ι : Type*} [DecidableEq ι] (requests : ι → RaceRequest) (i : ι)
    (ms : List Moment) :
    (run (raceTurn env id) (raceStart b requests) (ms.map fun m => (i, m))).shared =
      (run (soloStep env id) (b, .read (requests i)) ms).1 :=
  congrArg Parties.shared (run_turn_alone _ _ _)

end MediaService
