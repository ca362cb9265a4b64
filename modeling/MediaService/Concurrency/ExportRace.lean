import MediaService.Foundation.Interleaving
import MediaService.Invariants.ExportJobs

/-! The one export a caller may have in flight. A request looks for an unfinished
job, then counts and collects what it will carry, and only then inserts its own;
a worker's callback reads the job and writes back the columns it changed. Nothing
in the table forbids a second unfinished job, so the rule is kept exactly by the
runs in which no other job of the caller is unfinished when one is inserted, or
taken up again. -/

namespace MediaService

open Foundation

/-! ### The requests, step by step -/

inductive ExportRequest where
  | startArchive (user : UserModel) (jobId : UUID) (filters : Option ObjectListParams)
  | event (e : ExportEvent)

/-- What a request does next. -/
inductive ExportPlace where
  | check (user : UserModel) (jobId : UUID) (params : ObjectListParams)
  | totals (user : UserModel) (jobId : UUID) (params : ObjectListParams)
  | payload (user : UserModel) (params : ObjectListParams) (job : ExportJob)
  | insert (job : ExportJob) (payload : ExportArchiveJobPayload)
  | read (e : ExportEvent)
  | commit (read new : ExportJob)
  | started (payload : ExportArchiveJobPayload)
  | answered (answer : Except Failure Unit)

def ExportRequest.start : ExportRequest → ExportPlace
  | .startArchive user jobId filters => .check user jobId (filters.getD .default)
  | .event e => .read e

/-- The columns that changed against the row as it was read. -/
def ExportJob.write (new read current : ExportJob) : ExportJob :=
  { current with
    status := column new.status read.status current.status
    storageBucket := column new.storageBucket read.storageBucket current.storageBucket
    objectKey := column new.objectKey read.objectKey current.objectKey
    sizeBytes := column new.sizeBytes read.sizeBytes current.sizeBytes
    expiresAt := column new.expiresAt read.expiresAt current.expiresAt
    error := column new.error read.error current.error
    updatedAt := column new.updatedAt read.updatedAt current.updatedAt }

/-- What an event makes of the job it reads. -/
def readEvent (settings : Settings) (db : Database) : ExportEvent → ExportPlace
  | .callback jobId now body =>
    match db.exportJobs.find jobId with
    | none => .answered (refuse 404 "Export job not found.")
    | some j =>
      match applyExportCallback settings now j body with
      | .error e => .answered (.error e)
      | .ok new => .commit j { new with updatedAt := now }
  | .failUnqueued jobId now =>
    match db.exportJobs.find jobId with
    | none => .answered (.ok ())
    | some j =>
      if j.status ≠ .queued then .answered (.ok ())
      else .commit j { j with
        status := .failed
        error := some "Export could not be queued."
        updatedAt := now }

/-- One turn of a request, at a time. -/
def exportRaceStep (env : Env) (db : Database) : ExportPlace → Timestamp → Database × ExportPlace
  | .check user jobId params, _ =>
    if db.exportJobs.rows.any fun j => j.ownerUserId = user.id ∧ isActiveExport j then
      (db, .answered (refuse 409 ("An archive export is already in progress; collect or wait " ++
        "for it before starting another.")))
    else (db, .totals user jobId params)
  | .totals user jobId params, now =>
    match queryObjects db (some user) params with
    | .error e => (db, .answered (.error e))
    | .ok selected =>
      match assertWithinExportCeilings env.settings (exportTotals selected).1
          (exportTotals selected).2 with
      | .error e => (db, .answered (.error e))
      | .ok () =>
        (db, .payload user params (queuedExport user now jobId params (exportTotals selected).1
          (exportTotals selected).2))
  | .payload user params job, _ =>
    match archivePayload env db user params job with
    | .error e => (db, .answered (.error e))
    | .ok payload => (db, .insert job payload)
  | .insert job payload, _ =>
    match db.exportJobs.insert job with
    | none => (db, .answered (.error .integrityError))
    | some t => ({ db with exportJobs := t }, .started payload)
  | .read e, _ => (db, readEvent env.settings db e)
  | .commit read new, _ =>
    match db.exportJobs.find read.id with
    | none => (db, .answered (.error .integrityError))
    | some current =>
      ({ db with exportJobs := db.exportJobs.update (new.write read current) }, .answered (.ok ()))
  | .started payload, _ => (db, .started payload)
  | .answered answer, _ => (db, .answered answer)

/-! ### One request alone -/

section Alone

variable {env : Env} {db : Database}

theorem ExportJob.write_self {new read : ExportJob} (hid : new.id = read.id)
    (howner : new.ownerUserId = read.ownerUserId) (htenant : new.tenantId = read.tenantId)
    (hsuper : new.isSuperuser = read.isSuperuser) (hfilters : new.filters = read.filters)
    (hcount : new.objectCount = read.objectCount)
    (htotal : new.totalSizeBytes = read.totalSizeBytes)
    (hcreated : new.createdAt = read.createdAt) :
    new.write read read = new := by
  cases new
  cases read
  simp_all [ExportJob.write]

theorem run_exportRaceStep_answered (answer : Except Failure Unit) (ts : List Timestamp) :
    run (fun p t => exportRaceStep env p.1 p.2 t) (db, .answered answer) ts =
      (db, .answered answer) := by
  induction ts with
  | nil => rfl
  | cons t ts ih => exact ih

/-- A request alone is `start_archive_export`. -/
theorem alone_startArchiveExport (user : UserModel) (jobId : UUID)
    (filters : Option ObjectListParams) (now : Timestamp) :
    run (fun p t => exportRaceStep env p.1 p.2 t)
        (db, (ExportRequest.startArchive user jobId filters).start) [now, now, now, now] =
      match startArchiveExport env db now jobId user filters with
      | .error e => (db, .answered (.error e))
      | .ok (db', payload) => (db', .started payload) := by
  unfold startArchiveExport
  simp only [ExportRequest.start]
  rw [run_cons, exportRaceStep]
  split_ifs with hactive
  · exact run_exportRaceStep_answered _ _
  · rw [run_cons, exportRaceStep]
    cases hquery : queryObjects db (some user) (filters.getD .default) with
    | error e => exact run_exportRaceStep_answered _ _
    | ok selected =>
      dsimp only
      cases hceilings : assertWithinExportCeilings env.settings (exportTotals selected).1
          (exportTotals selected).2 with
      | error e => exact run_exportRaceStep_answered _ _
      | ok _ =>
        dsimp only
        rw [run_cons, exportRaceStep]
        cases hpayload : archivePayload env db user (filters.getD .default)
            (queuedExport user now jobId (filters.getD .default) (exportTotals selected).1
              (exportTotals selected).2) with
        | error e => exact run_exportRaceStep_answered _ _
        | ok payload =>
          dsimp only
          rw [run_cons, exportRaceStep, run_nil]
          cases db.exportJobs.insert (queuedExport user now jobId (filters.getD .default)
            (exportTotals selected).1 (exportTotals selected).2) <;> rfl

theorem applyExportCallback_frame {settings : Settings} {now : Timestamp} {j j' : ExportJob}
    {body : ExportJobUpdate} (h : applyExportCallback settings now j body = .ok j') :
    ({ j' with updatedAt := now } : ExportJob).write j j = { j' with updatedAt := now } := by
  unfold applyExportCallback at h
  split at h
  · split_ifs at h
    · cases h
      exact ExportJob.write_self rfl rfl rfl rfl rfl rfl rfl rfl
    · exact absurd h refuse_ne_ok
    · cases h
      exact ExportJob.write_self rfl rfl rfl rfl rfl rfl rfl rfl
  · split_ifs at h
    · cases h
      exact ExportJob.write_self rfl rfl rfl rfl rfl rfl rfl rfl
    · exact absurd h refuse_ne_ok
    · cases h
      exact ExportJob.write_self rfl rfl rfl rfl rfl rfl rfl rfl
  · dsimp only at h
    split_ifs at h
    · exact absurd h refuse_ne_ok
    · cases h
      exact ExportJob.write_self rfl rfl rfl rfl rfl rfl rfl rfl
    · exact absurd h refuse_ne_ok
    · cases h
      exact ExportJob.write_self rfl rfl rfl rfl rfl rfl rfl rfl

/-- An event alone is `update_export_job` or `fail_unqueued_export`. -/
theorem alone_exportEvent (e : ExportEvent) (now : Timestamp) :
    (run (fun p t => exportRaceStep env p.1 p.2 t) (db, (ExportRequest.event e).start)
      [now, now]).1 = exportStep env.settings db e := by
  simp only [ExportRequest.start]
  rw [run_cons, exportRaceStep, run_cons, run_nil]
  cases e with
  | callback jobId at' body =>
    simp only [readEvent, exportStep, updateExportJob]
    cases hfind : db.exportJobs.find jobId with
    | none => rfl
    | some j =>
      have hkey := Table.key_of_find hfind
      dsimp only
      cases hcall : applyExportCallback env.settings at' j body with
      | error e => rfl
      | ok j' => simp only [exportRaceStep, hkey, hfind, applyExportCallback_frame hcall]
  | failUnqueued jobId at' =>
    simp only [readEvent, exportStep, failUnqueuedExport]
    cases hfind : db.exportJobs.find jobId with
    | none => rfl
    | some j =>
      obtain rfl := Table.key_of_find hfind
      dsimp only
      split_ifs with hstatus
      · rfl
      · have hframe : ({ j with
            status := .failed
            error := some "Export could not be queued."
            updatedAt := at' } : ExportJob).write j j = { j with
              status := .failed
              error := some "Export could not be queued."
              updatedAt := at' } := ExportJob.write_self rfl rfl rfl rfl rfl rfl rfl rfl
        simp only [exportRaceStep, hfind, hframe]

end Alone

/-! ### One unfinished job -/

section Law

/-- At most one job of the owner is queued or processing. -/
def OneInFlight (owner : UUID) (db : Database) : Prop :=
  ∀ j ∈ db.exportJobs.rows, ∀ j' ∈ db.exportJobs.rows, j.ownerUserId = owner →
    isActiveExport j = true → j'.ownerUserId = owner → isActiveExport j' = true → j.id = j'.id

instance (owner : UUID) (db : Database) : Decidable (OneInFlight owner db) := by
  unfold OneInFlight
  infer_instance

/-- Some job of the owner is queued or processing. -/
def InFlight (owner : UUID) (db : Database) : Prop :=
  ∃ j ∈ db.exportJobs.rows, j.ownerUserId = owner ∧ isActiveExport j = true

/-- A commit that would leave the owner a second unfinished job: an insertion, or
a callback that takes up a job again which became terminal after it was read. -/
def Crowds (owner : UUID) (db : Database) : ExportPlace → Prop
  | .insert job _ => job.ownerUserId = owner ∧ isActiveExport job = true ∧
      db.exportJobs.find job.id = none ∧ InFlight owner db
  | .commit read new => new.status ≠ read.status ∧ isActiveExport new = true ∧
      (db.exportJobs.find read.id).any (fun current =>
        current.ownerUserId = owner ∧ isActiveExport current = false) = true ∧ InFlight owner db
  | _ => False

instance (owner : UUID) (db : Database) : Decidable (InFlight owner db) := by
  unfold InFlight
  infer_instance

instance (owner : UUID) (db : Database) (place : ExportPlace) :
    Decidable (Crowds owner db place) := by
  cases place <;> unfold Crowds <;> infer_instance

variable {env : Env} {owner : UUID} {db : Database}

theorem oneInFlight_insert {job : ExportJob} {t : Table ExportJob.id}
    (ht : db.exportJobs.insert job = some t) (h : OneInFlight owner db) :
    OneInFlight owner { db with exportJobs := t } ↔
      ¬(job.ownerUserId = owner ∧ isActiveExport job = true ∧ InFlight owner db) := by
  have hfresh := Table.find_none_of_insert ht
  have hmem : ∀ q, q ∈ t.rows ↔ q ∈ db.exportJobs.rows ∨ q = job := fun q => Table.mem_insert ht
  constructor
  · rintro hone ⟨howner, hactive, j, hj, hjowner, hjactive⟩
    have hid := hone j ((hmem j).mpr (.inl hj)) job ((hmem job).mpr (.inr rfl)) hjowner hjactive
      howner hactive
    exact Table.find_eq_none.mp hfresh j hj hid
  · intro hnot j hj j' hj' hjowner hjactive hjowner' hjactive'
    rcases (hmem j).mp hj with hj | rfl
    · rcases (hmem j').mp hj' with hj' | rfl
      · exact h j hj j' hj' hjowner hjactive hjowner' hjactive'
      · exact absurd ⟨hjowner', hjactive', j, hj, hjowner, hjactive⟩ hnot
    · rcases (hmem j').mp hj' with hj' | rfl
      · exact absurd ⟨hjowner, hjactive, j', hj', hjowner', hjactive'⟩ hnot
      · rfl

theorem isActiveExport_write {new read current : ExportJob} :
    isActiveExport (new.write read current) =
      if new.status = read.status then isActiveExport current else isActiveExport new := by
  unfold isActiveExport ExportJob.write column
  split <;> rfl

theorem oneInFlight_commit {read new current : ExportJob}
    (hcurrent : db.exportJobs.find read.id = some current) (h : OneInFlight owner db) :
    OneInFlight owner { db with
        exportJobs := db.exportJobs.update (new.write read current) } ↔
      ¬(new.status ≠ read.status ∧ isActiveExport new = true ∧ current.ownerUserId = owner ∧
        isActiveExport current = false ∧ InFlight owner db) := by
  have hid : current.id = read.id := Table.key_of_find hcurrent
  have hkey : (new.write read current).id = read.id := hid
  have hfind : db.exportJobs.find (new.write read current).id = some current := hkey ▸ hcurrent
  have hmem : ∀ q, q ∈ (db.exportJobs.update (new.write read current)).rows ↔
      q = new.write read current ∨ q ∈ db.exportJobs.rows ∧ q.id ≠ read.id := by
    intro q
    rw [← hkey]
    exact Table.mem_update hfind
  have hold := Table.mem_of_find hcurrent
  constructor
  · rintro hone ⟨hchanged, hactive, howner, hinactive, j, hj, hjowner, hjactive⟩
    have hne : j.id ≠ read.id := by
      intro he
      obtain rfl := Table.eq_of_key_eq hj hold (he.trans hid.symm)
      rw [hinactive] at hjactive
      cases hjactive
    refine hne ((hone j ((hmem j).mpr (.inr ⟨hj, hne⟩)) _ ((hmem _).mpr (.inl rfl)) hjowner
      hjactive howner ?_).trans hkey)
    rw [isActiveExport_write, if_neg hchanged, hactive]
  · intro hnot
    -- The written row was active before, or nothing else of the owner is.
    have hwritten : ∀ j ∈ db.exportJobs.rows, j.id ≠ read.id → j.ownerUserId = owner →
        isActiveExport j = true → current.ownerUserId = owner →
        isActiveExport (new.write read current) = false := by
      intro j hj hne hjowner hjactive howner
      by_contra hactive
      rw [Bool.not_eq_false, isActiveExport_write] at hactive
      by_cases hcur : isActiveExport current = true
      · exact hne ((h j hj current hold hjowner hjactive howner hcur).trans hid)
      · split_ifs at hactive with hsame
        · exact hcur hactive
        · exact hnot ⟨hsame, hactive, howner, by simpa using hcur, j, hj, hjowner, hjactive⟩
    intro j hj j' hj' hjowner hjactive hjowner' hjactive'
    rcases (hmem j).mp hj with rfl | ⟨hj, hne⟩
    · rcases (hmem j').mp hj' with rfl | ⟨hj', hne'⟩
      · rfl
      · rw [hwritten j' hj' hne' hjowner' hjactive' hjowner] at hjactive
        cases hjactive
    · rcases (hmem j').mp hj' with rfl | ⟨hj', hne'⟩
      · rw [hwritten j hj hne hjowner hjactive hjowner'] at hjactive'
        cases hjactive'
      · exact h j hj j' hj' hjowner hjactive hjowner' hjactive'

/-- A turn keeps the owner at one unfinished job unless it crowds. -/
theorem oneInFlight_step (place : ExportPlace) (now : Timestamp) (h : OneInFlight owner db) :
    OneInFlight owner (exportRaceStep env db place now).1 ↔ ¬Crowds owner db place := by
  cases place with
  | check user jobId params =>
    rw [exportRaceStep]
    split_ifs <;> simpa [Crowds] using h
  | totals user jobId params =>
    rw [exportRaceStep]
    cases queryObjects db (some user) params with
    | error e => simpa [Crowds] using h
    | ok selected =>
      dsimp only
      cases assertWithinExportCeilings env.settings (exportTotals selected).1
        (exportTotals selected).2 <;> simpa [Crowds] using h
  | payload user params job =>
    rw [exportRaceStep]
    cases archivePayload env db user params job <;> simpa [Crowds] using h
  | insert job payload =>
    rw [exportRaceStep]
    cases ht : db.exportJobs.insert job with
    | none =>
      have hsome : (db.exportJobs.insert job).isSome = false := by rw [ht]; rfl
      have htaken : db.exportJobs.find job.id ≠ none := by
        intro hfind
        rw [Table.insert_isSome.mpr hfind] at hsome
        cases hsome
      simpa [Crowds, htaken] using h
    | some t =>
      simp only [Crowds, Table.find_none_of_insert ht, true_and]
      exact oneInFlight_insert ht h
  | read e => simpa [exportRaceStep, Crowds] using h
  | commit read new =>
    rw [exportRaceStep]
    cases hcurrent : db.exportJobs.find read.id with
    | none => simpa [Crowds, hcurrent] using h
    | some current =>
      simp only [Crowds, hcurrent, Option.any_some, decide_eq_true_eq]
      rw [oneInFlight_commit hcurrent h, and_assoc]
  | started payload => simpa [exportRaceStep, Crowds] using h
  | answered answer => simpa [exportRaceStep, Crowds] using h

abbrev ExportRace (ι : Type*) := Parties ι Database ExportPlace

abbrev exportTurn {ι : Type*} [DecidableEq ι] (env : Env) :
    ExportRace ι → ι × Timestamp → ExportRace ι :=
  turn fun _ db place now => exportRaceStep env db place now

def exportStart {ι : Type*} (db : Database) (requests : ι → ExportRequest) : ExportRace ι :=
  ⟨db, fun i => (requests i).start⟩

/-- In an interleaving of export requests and callbacks an owner always has at
most one unfinished job exactly if no turn commits one while another is. -/
theorem oneInFlight_iff {ι : Type*} [DecidableEq ι] (env : Env) (owner : UUID) {db : Database}
    (h : OneInFlight owner db) (requests : ι → ExportRequest) (ms : List (ι × Timestamp)) :
    Always (exportTurn env) (fun s => OneInFlight owner s.shared) (exportStart db requests) ms ↔
      Guarded (exportTurn env) (fun s m => ¬Crowds owner s.shared (s.place m.1))
        (exportStart db requests) ms := by
  refine always_iff_guarded (I := fun _ => True) (A := fun _ _ => True) (fun _ _ _ _ _ _ => trivial)
    (fun s m _ hs _ => ?_) trivial h (guarded_of_forall (fun _ _ _ => trivial) _)
  obtain ⟨i, now⟩ := m
  exact oneInFlight_step (s.place i) now hs

end Law

/-- Two requests of one caller. -/
def twoExports (i : Bool) : ExportRequest :=
  .startArchive (.ordinary 1) (if i then ⟨6⟩ else ⟨5⟩) none

/-- One request after the other: the second is refused. -/
theorem oneInFlight_in_turn :
    Always (exportTurn Env.default) (fun s => OneInFlight ⟨1⟩ s.shared)
      (exportStart .empty twoExports)
      ([false, false, false, false, true, true].map fun i => (i, 0)) :=
  (oneInFlight_iff Env.default ⟨1⟩ (by decide) twoExports _).mpr (by decide +kernel)

/-- Both look before either inserts. -/
theorem not_oneInFlight_crossing :
    ¬OneInFlight ⟨1⟩ (run (exportTurn Env.default) (exportStart .empty twoExports)
      ([false, true, false, false, false, true, true, true].map fun i => (i, 0))).shared := by
  decide +kernel

end MediaService
