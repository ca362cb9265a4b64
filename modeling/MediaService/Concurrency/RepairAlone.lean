import MediaService.Concurrency.RepairRace
import MediaService.Concurrency.UploadAlone

/-! The parties of the repair race, each on its own: the sweep leaves what
`_find_storage_orphans` leaves, and the steps of an initiation and of an import
leave the backend of `initiate_upload` and of `_import_one_file`. -/

namespace MediaService

open Foundation

/-! ### The sweep -/

section Sweep

variable {env : Env} {buckets : List String} {limit : ℕ} {repair : Bool} {b : Backend} {m : Moment}
  {pending : List Location}

/-- The sweep's steps, nothing else running. -/
abbrev sweepAlone (env : Env) (buckets : List String) (limit : ℕ) (repair : Bool)
    (p : Backend × SweepPlace) (m : Moment) : Backend × SweepPlace :=
  sweepStep env buckets limit repair p.1 p.2 m

/-- What a sweep that has come as far as `S` carries along. -/
def Sweep.carried (S : Sweep) (pending : List Location) : Sweeping :=
  ⟨pending, S.orphans, S.repaired⟩

theorem alone_sweepKeys (bucket : String) (todo : List String) (S : Sweep) (keys : List String) :
    ∃ n, run (sweepAlone env buckets limit repair)
        ({ b with storage := S.storage }, .check (S.carried pending) bucket keys todo)
        (List.replicate n m) =
      ({ b with storage := (sweepKeys b.db pending m.faults limit repair bucket S keys).storage },
        .list ((sweepKeys b.db pending m.faults limit repair bucket S keys).carried pending)
          todo) := by
  induction keys generalizing S with
  | nil => exact ⟨1, rfl⟩
  | cons key keys ih =>
    rw [sweepKeys]
    by_cases hfull : S.orphans.length ≥ limit
    · refine ⟨1, ?_⟩
      rw [if_pos hfull]
      exact if_pos hfull
    · rw [if_neg hfull]
      by_cases hclaimed : isClaimed b.db pending ⟨bucket, key⟩ = true
      · obtain ⟨n, hn⟩ := ih S
        refine ⟨n + 1, ?_⟩
        rw [if_pos hclaimed, List.replicate_succ, run_cons, ← hn]
        simp only [sweepAlone, sweepStep, Sweep.carried, hfull, hclaimed, if_false, if_true]
      · rw [if_neg hclaimed]
        cases repair with
        | true =>
          obtain ⟨n, hn⟩ := ih ⟨S.storage.bestEffortRemove m.faults ⟨bucket, key⟩,
            S.orphans ++ [⟨⟨bucket, key⟩, none, none⟩], S.repaired + 1⟩
          refine ⟨n + 2, ?_⟩
          rw [List.replicate_succ, run_cons, List.replicate_succ, run_cons]
          simp only [sweepAlone, sweepStep, Sweep.carried, hfull, hclaimed, if_false, if_true]
          exact hn
        | false =>
          obtain ⟨n, hn⟩ := ih { S with orphans := S.orphans ++ [⟨⟨bucket, key⟩, none, none⟩] }
          refine ⟨n + 1, ?_⟩
          rw [List.replicate_succ, run_cons]
          simp only [sweepAlone, sweepStep, Sweep.carried, hfull, hclaimed, if_false,
            Bool.false_eq_true]
          exact hn

theorem alone_buckets (todo : List String) (S : Sweep) :
    ∃ n, run (sweepAlone env buckets limit repair)
        ({ b with storage := S.storage }, .list (S.carried pending) todo) (List.replicate n m) =
      ({ b with storage := (todo.foldl (fun S bucket =>
            sweepKeys b.db pending m.faults limit repair bucket S
              (S.storage.listObjectKeys env bucket)) S).storage },
        .finished ((todo.foldl (fun S bucket =>
          sweepKeys b.db pending m.faults limit repair bucket S
            (S.storage.listObjectKeys env bucket)) S).carried pending)) := by
  induction todo generalizing S with
  | nil => exact ⟨1, rfl⟩
  | cons bucket todo ih =>
    obtain ⟨n, hn⟩ := @alone_sweepKeys env buckets limit repair b m pending bucket todo S
      (S.storage.listObjectKeys env bucket)
    obtain ⟨k, hk⟩ := ih (sweepKeys b.db pending m.faults limit repair bucket S
      (S.storage.listObjectKeys env bucket))
    refine ⟨n + k + 1, ?_⟩
    rw [List.replicate_succ, run_cons, List.replicate_add, run_append, List.foldl_cons, ← hk, ← hn]
    rfl

/-- A sweep alone is `_find_storage_orphans`. -/
theorem alone_sweep :
    ∃ n, run (sweepAlone env buckets limit repair) (b, .protect) (List.replicate n m) =
      ({ b with storage := (findStorageOrphans env b m.faults m.now buckets limit repair).storage },
        .finished ((findStorageOrphans env b m.faults m.now buckets limit repair).carried
          (pendingKeys b.db m.now))) := by
  obtain ⟨n, hn⟩ := @alone_buckets env buckets limit repair b m (pendingKeys b.db m.now) buckets
    ⟨b.storage, [], 0⟩
  refine ⟨n + 1, ?_⟩
  rw [List.replicate_succ, run_cons]
  exact hn

end Sweep

/-! ### The other request -/

section Traffic

variable {env : Env} {id : UUID} {b : Backend} {m : Moment}

/-- The request's steps, nothing else running. -/
abbrev trafficAlone (env : Env) (id : UUID) (p : Backend × TrafficPlace) (m : Moment) :
    Backend × TrafficPlace :=
  trafficStep env id p.1 p.2 m

theorem alone_traffic_finished (n : ℕ) :
    run (trafficAlone env id) (b, .finished) (List.replicate n m) = (b, .finished) :=
  run_replicate_of_eq _ rfl n

/-- A completion is the one of the upload race. -/
theorem alone_traffic_complete (p : RacePlace) (ms : List Moment) :
    run (trafficAlone env id) (b, .complete p) ms =
      ((run (soloStep env id) (b, p) ms).1, .complete (run (soloStep env id) (b, p) ms).2) := by
  induction ms generalizing b p with
  | nil => rfl
  | cons m ms ih => exact ih _

/-- An initiation alone is `initiate_upload`; the client then has the form. -/
theorem alone_traffic_initiate (client : UploadClient) (body : UploadInitiateRequest) :
    run (trafficAlone env id) (b, .initiate client body) [m, m] =
      match initiateUpload env b.db m.faults m.now id client.user body with
      | .error _ => (b, .finished)
      | .ok (db, form) => ({ b with db := db }, .post form client) := by
  rw [run_cons, run_cons, run_nil, trafficAlone, trafficAlone, trafficStep]
  unfold initiateStep initiateUpload
  cases body.validated env with
  | none => rfl
  | some req =>
    dsimp only
    cases stageUpload env b.db client.user req id with
    | error e => rfl
    | ok staged =>
      simp only [bind, Except.bind]
      cases createUploadUrl m.faults staged.location req.mimeType
          (min req.expectedSizeBytes (maxSizeForCategory env.settings req.category.str))
          env.settings.s3PresignedUrlExpireSeconds m.now with
      | none => rfl
      | some form =>
        dsimp only [trafficStep]
        cases recordUploadSession b.db staged req m.now
            (m.now + seconds env.settings.s3PresignedUrlExpireSeconds) with
        | error e => rfl
        | ok db => rfl

theorem mimeType_validated {body req : UploadInitiateRequest}
    (h : body.validated env = some req) : req.mimeType = body.mimeType := by
  obtain ⟨name, -, rfl⟩ := UploadInitiateRequest.validated_eq_some h
  rfl

theorem alone_traffic_recordImport (user : UserModel) (entry : ImportObjectEntry)
    (staged : StagedUpload) (req : UploadInitiateRequest) (categories : List Category)
    (paths : List String) :
    (run (trafficAlone env staged.mediaId) (b, .recordImport staged req user
        ⟨entry.sha256, some (categories.map Category.id)⟩) (List.replicate 8 m)).1 =
      (recordAndComplete env b ⟨m.faults, m.now, m.now⟩ user entry staged req categories
        paths).1 := by
  rw [List.replicate_succ, run_cons, trafficAlone, trafficStep, recordAndComplete]
  cases recordUploadSession b.db staged req m.now
      (m.now + seconds env.settings.s3PresignedUrlExpireSeconds) with
  | error e => rw [alone_traffic_finished]
  | ok db =>
    dsimp only
    rw [alone_traffic_complete, solo_complete]
    rcases completeUpload env { b with db := db } m.faults m.now user staged.mediaId
      ⟨entry.sha256, some (categories.map Category.id)⟩ with ⟨b', (_ | _) | _⟩ <;> rfl

/-- An import alone leaves the backend of `_import_one_file`. -/
theorem alone_traffic_import (user : UserModel) (info : ZipInfo) (entry : ImportObjectEntry)
    (categories : List Category) (paths : List String) :
    (run (trafficAlone env entry.id) (b, .stage user info entry categories)
        (List.replicate 10 m)).1 =
      (importNewFile env b ⟨m.faults, m.now, m.now⟩ user info entry categories paths).1 := by
  rw [List.replicate_succ, run_cons, trafficAlone, trafficStep]
  unfold stageStep importNewFile
  by_cases hmime : (!isAllowedDeclaredMime entry.mimeType) = true
  · rw [if_pos hmime, if_pos hmime, alone_traffic_finished]
  · rw [if_neg hmime, if_neg hmime]
    by_cases hsize : info.fileSize > maxSizeForCategory env.settings entry.category.str
    · rw [if_pos hsize, if_pos hsize, alone_traffic_finished]
    · rw [if_neg hsize, if_neg hsize]
      cases hreq : (entryRequest env entry info.fileSize categories).validated env with
      | none => rw [alone_traffic_finished]
      | some req =>
        dsimp only
        cases hstage : stageUpload env b.db user req entry.id with
        | error e =>
          rw [alone_traffic_finished]
          cases e <;> rfl
        | ok staged =>
          have hid : staged.mediaId = entry.id := (stageUpload_ok hstage).1
          have hmime : req.mimeType = entry.mimeType := mimeType_validated hreq
          dsimp only
          rw [List.replicate_succ, run_cons, trafficAlone, trafficStep, hmime]
          cases info.read.bind fun data =>
              b.storage.putObjectStream m.faults staged.location data entry.mimeType with
          | none =>
            rw [List.replicate_succ, run_cons, trafficAlone, trafficStep, alone_traffic_finished]
          | some st =>
            rw [← hid]
            exact alone_traffic_recordImport user entry staged req categories paths

end Traffic

end MediaService
