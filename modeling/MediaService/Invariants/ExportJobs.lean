import MediaService.Foundation.Run
import MediaService.Lifecycle.Transfer
import MediaService.Scenario

/-! The life of an export job under its worker's callbacks, which a queue may
repeat and reorder, and under the request that gives up on enqueueing it. One
event moves the status forward or not at all, and only the callback that
completes the job writes its result. -/

namespace MediaService

open Foundation

/-! ### Events -/

inductive ExportEvent where
  | callback (jobId : UUID) (now : Timestamp) (body : ExportJobUpdate)
  | failUnqueued (jobId : UUID) (now : Timestamp)

/-- The database after the event, which a refusal leaves as it was. -/
def exportStep (settings : Settings) (db : Database) : ExportEvent → Database
  | .callback jobId now body =>
    match updateExportJob settings db now jobId body with
    | .ok db' => db'
    | .error _ => db
  | .failUnqueued jobId now => failUnqueuedExport db now jobId

/-- Along queued, processing, terminal. -/
def ExportJobStatus.rank : ExportJobStatus → ℕ
  | .queued => 0
  | .processing => 1
  | .completed | .failed => 2

/-- Where the archive is, how large, and until when. -/
structure ExportResult where
  storageBucket : Option String
  objectKey : Option String
  sizeBytes : Option ℕ
  expiresAt : Option Timestamp
  deriving DecidableEq

def ExportResult.unset : ExportResult := ⟨none, none, none, none⟩

def ExportJob.result (j : ExportJob) : ExportResult :=
  ⟨j.storageBucket, j.objectKey, j.sizeBytes, j.expiresAt⟩

/-- The result a completing callback leaves: the commissioned location, and the
size and the window of this callback. -/
def ExportJob.completedResult (settings : Settings) (j : ExportJob) (now : Timestamp)
    (body : ExportJobUpdate) : ExportResult :=
  ⟨some (j.target settings).bucket, some (j.target settings).objectKey, body.sizeBytes,
    some (now + seconds settings.mediaExportArchiveTtlSeconds)⟩

/-! ### One event -/

/-- The status and the result an event may leave a job with. -/
inductive ExportJob.Moves (settings : Settings) (j : ExportJob) :
    ExportEvent → ExportJobStatus → ExportResult → Prop
  | stays {e : ExportEvent} : Moves settings j e j.status j.result
  | claimed {e : ExportEvent} (h : j.status = .queued) : Moves settings j e .processing j.result
  | failed {e : ExportEvent} (h : isActiveExport j = true) : Moves settings j e .failed j.result
  | completed {now : Timestamp} {body : ExportJobUpdate} (h : isActiveExport j = true)
      (hbody : body.status = .completed) :
      Moves settings j (.callback j.id now body) .completed (j.completedResult settings now body)

section Step

variable {settings : Settings} {db : Database} {j : ExportJob}

theorem isActiveExport_iff : isActiveExport j = true ↔ j.status.rank < 2 := by
  unfold isActiveExport
  cases j.status <;> simp [ExportJobStatus.rank]

/-- A callback that is accepted moves the job, and keeps what fixes its target. -/
theorem applyExportCallback_moves {now : Timestamp} {body : ExportJobUpdate} {j' : ExportJob}
    (h : applyExportCallback settings now j body = .ok j') :
    j'.id = j.id ∧ j'.target settings = j.target settings ∧
      j.Moves settings (.callback j.id now body) j'.status j'.result := by
  unfold applyExportCallback at h
  split at h
  · split at h
    · rename_i hqueued
      cases h
      exact ⟨rfl, rfl, .claimed hqueued⟩
    · split at h
      · exact absurd h refuse_ne_ok
      · cases h
        exact ⟨rfl, rfl, .stays⟩
  · split at h
    · rename_i hactive
      cases h
      exact ⟨rfl, rfl, .failed hactive⟩
    · split at h
      · exact absurd h refuse_ne_ok
      · cases h
        exact ⟨rfl, rfl, .stays⟩
  · rename_i hbody
    dsimp only at h
    split at h
    · exact absurd h refuse_ne_ok
    · rename_i hlocation
      simp only [ne_eq, not_or, not_not] at hlocation
      split at h
      · rename_i hactive
        cases h
        have hmoves : ExportJob.Moves settings j _ _ (j.completedResult settings now body) :=
          .completed hactive hbody
        rw [ExportJob.completedResult, ← hlocation.1, ← hlocation.2] at hmoves
        exact ⟨rfl, rfl, hmoves⟩
      · split at h
        · exact absurd h refuse_ne_ok
        · cases h
          exact ⟨rfl, rfl, .stays⟩

/-- An event moves the job it finds, or leaves it alone. -/
theorem exportStep_moves (settings : Settings) (hj : db.exportJobs.find j.id = some j)
    (e : ExportEvent) :
    ∃ j', (exportStep settings db e).exportJobs.find j.id = some j' ∧ j'.id = j.id ∧
      j'.target settings = j.target settings ∧ j.Moves settings e j'.status j'.result := by
  cases e with
  | callback jobId now body =>
    rw [exportStep, updateExportJob]
    by_cases hid : jobId = j.id
    · subst hid
      rw [hj]
      dsimp only
      cases hcall : applyExportCallback settings now j body with
      | error e => exact ⟨j, hj, rfl, rfl, .stays⟩
      | ok j' =>
        obtain ⟨hkey, htarget, hmoves⟩ := applyExportCallback_moves hcall
        refine ⟨{ j' with updatedAt := now }, ?_, hkey, htarget, hmoves⟩
        rw [← hkey] at hj
        have hfind := Table.find_update_self (r := { j' with updatedAt := now }) hj
        rw [← hkey]
        exact hfind
    · cases hother : db.exportJobs.find jobId with
      | none => exact ⟨j, hj, rfl, rfl, .stays⟩
      | some q =>
        have hq := Table.key_of_find hother
        dsimp only
        cases hcall : applyExportCallback settings now q body with
        | error e => exact ⟨j, hj, rfl, rfl, .stays⟩
        | ok q' =>
          obtain ⟨hkey, -, -⟩ := applyExportCallback_moves hcall
          have hne : j.id ≠ ({ q' with updatedAt := now } : ExportJob).id := fun he =>
            hid (hq.symm.trans (hkey.symm.trans he.symm))
          exact ⟨j, (Table.find_update_ne hne).trans hj, rfl, rfl, .stays⟩
  | failUnqueued jobId now =>
    rw [exportStep, failUnqueuedExport]
    cases hother : db.exportJobs.find jobId with
    | none => exact ⟨j, hj, rfl, rfl, .stays⟩
    | some q =>
      have hq := Table.key_of_find hother
      dsimp only
      split_ifs with hstatus
      · exact ⟨j, hj, rfl, rfl, .stays⟩
      · by_cases hid : jobId = j.id
        · subst hid
          obtain rfl := Option.some.inj (hj.symm.trans hother)
          refine ⟨{ j with
            status := .failed
            error := some "Export could not be queued."
            updatedAt := now }, Table.find_update_self hj, rfl, rfl, .failed ?_⟩
          rw [isActiveExport_iff, not_not.mp hstatus]
          decide
        · have hne : j.id ≠ ({ q with
              status := .failed
              error := some "Export could not be queued."
              updatedAt := now } : ExportJob).id := fun he => hid (hq.symm.trans he.symm)
          exact ⟨j, (Table.find_update_ne hne).trans hj, rfl, rfl, .stays⟩

/-- A move goes forward, and a terminal job makes none. -/
theorem ExportJob.Moves.forward {e : ExportEvent} {status : ExportJobStatus}
    {result : ExportResult} (h : j.Moves settings e status result) :
    j.status.rank ≤ status.rank ∧
      (2 ≤ j.status.rank → status = j.status ∧ result = j.result) := by
  cases h with
  | stays => exact ⟨le_refl _, fun _ => ⟨rfl, rfl⟩⟩
  | claimed hqueued => simp [hqueued, ExportJobStatus.rank]
  | failed hactive =>
    have hrank := isActiveExport_iff.mp hactive
    exact ⟨Nat.le_of_lt hrank, fun h => absurd hrank (Nat.not_lt.mpr h)⟩
  | completed hactive hbody =>
    have hrank := isActiveExport_iff.mp hactive
    exact ⟨Nat.le_of_lt hrank, fun h => absurd hrank (Nat.not_lt.mpr h)⟩

end Step

/-! ### Many events -/

section Runs

variable (settings : Settings)

/-- Over a run the status only goes forward, and a terminal job stays as it is. -/
theorem exportRun_forward (es : List ExportEvent) {db : Database} {j : ExportJob}
    (hj : db.exportJobs.find j.id = some j) :
    ∃ j', (run (exportStep settings) db es).exportJobs.find j.id = some j' ∧
      j'.target settings = j.target settings ∧ j.status.rank ≤ j'.status.rank ∧
      (2 ≤ j.status.rank → j'.status = j.status ∧ j'.result = j.result) := by
  induction es generalizing db j with
  | nil => exact ⟨j, hj, rfl, le_refl _, fun _ => ⟨rfl, rfl⟩⟩
  | cons e es ih =>
    obtain ⟨j₁, hj₁, hid, htarget, hmoves⟩ := exportStep_moves settings hj e
    obtain ⟨hrank, hsame⟩ := hmoves.forward
    rw [← hid] at hj₁
    obtain ⟨j', hj', htarget', hrank', hsame'⟩ := ih hj₁
    refine ⟨j', by rw [← hid]; exact hj', htarget'.trans htarget, hrank.trans hrank', fun h => ?_⟩
    obtain ⟨hstatus, hresult⟩ := hsame h
    obtain ⟨hstatus', hresult'⟩ := hsame' (h.trans hrank)
    exact ⟨hstatus'.trans hstatus, hresult'.trans hresult⟩

/-- The callback of a run that completed the job: the job was active before it,
and has its result since. -/
structure CompletedBy (settings : Settings) (db : Database) (es : List ExportEvent)
    (j j' : ExportJob) (before after : List ExportEvent) (now : Timestamp)
    (body : ExportJobUpdate) : Prop where
  split : es = before ++ .callback j.id now body :: after
  active : ∃ j₁, (run (exportStep settings) db before).exportJobs.find j.id = some j₁ ∧
    isActiveExport j₁ = true
  body_completed : body.status = .completed
  status : j'.status = .completed
  result : j'.result = j.completedResult settings now body

/-- A job without a result is without one until a callback completes it, and has
that callback's from then on. -/
theorem exportRun_result (es : List ExportEvent) {db : Database} {j : ExportJob}
    (hj : db.exportJobs.find j.id = some j) (hstatus : j.status ≠ .completed)
    (hunset : j.result = .unset) :
    ∃ j', (run (exportStep settings) db es).exportJobs.find j.id = some j' ∧
      ((j'.status ≠ .completed ∧ j'.result = .unset) ∨
        ∃ before after now body, CompletedBy settings db es j j' before after now body) := by
  induction es generalizing db j with
  | nil => exact ⟨j, hj, .inl ⟨hstatus, hunset⟩⟩
  | cons e es ih =>
    obtain ⟨j₁, hj₁, hid, htarget, hmoves⟩ := exportStep_moves settings hj e
    have hfind := hj₁
    rw [← hid] at hj₁
    by_cases hcompleted : j₁.status = .completed
    · obtain ⟨j', hj', -, -, hsame⟩ := exportRun_forward settings es hj₁
      obtain ⟨hstatus', hresult'⟩ := hsame (by rw [hcompleted]; decide)
      refine ⟨j', by rw [← hid]; exact hj', .inr ?_⟩
      generalize hs : j₁.status = status at hmoves hcompleted
      generalize hr : j₁.result = result at hmoves
      cases hmoves with
      | stays => exact absurd hcompleted hstatus
      | claimed _ => cases hcompleted
      | failed _ => cases hcompleted
      | @completed now body hactive hbody =>
        exact ⟨[], es, now, body, rfl, ⟨j, hj, hactive⟩, hbody, hstatus'.trans hs,
          hresult'.trans hr⟩
    · have hunset₁ : j₁.result = .unset := by
        generalize hs : j₁.status = status at hmoves hcompleted
        generalize hr : j₁.result = result at hmoves ⊢
        cases hmoves with
        | stays => exact hunset
        | claimed _ => exact hunset
        | failed _ => exact hunset
        | completed _ _ => exact absurd rfl hcompleted
      obtain ⟨j', hj', hcase⟩ := ih hj₁ hcompleted hunset₁
      refine ⟨j', by rw [← hid]; exact hj', hcase.imp_right ?_⟩
      rintro ⟨before, after, now, body, hby⟩
      obtain ⟨j₂, hj₂, hactive⟩ := hby.active
      refine ⟨e :: before, after, now, body, ?_, ⟨j₂, ?_, hactive⟩, hby.body_completed,
        hby.status, ?_⟩
      · rw [hby.split, hid, List.cons_append]
      · rw [run_cons, ← hid]
        exact hj₂
      · rw [hby.result, ExportJob.completedResult, ExportJob.completedResult, htarget]

/-- An export that starts leaves its job queued, without a result, and aimed at
the commissioned target. -/
theorem startArchiveExport_queued {env : Env} {db db' : Database} {now : Timestamp} {jobId : UUID}
    {user : UserModel} {filters : Option ObjectListParams} {payload : ExportArchiveJobPayload}
    (h : startArchiveExport env db now jobId user filters = .ok (db', payload)) :
    ∃ j, db'.exportJobs.find jobId = some j ∧ j.id = jobId ∧ j.status = .queued ∧
      j.result = .unset ∧ j.target env.settings = payload.target := by
  obtain ⟨selected, manifest, t, -, -, -, -, rfl, ht, rfl⟩ := startArchiveExport_payload h
  exact ⟨_, (Table.find_insert ht jobId).trans (if_pos rfl), rfl, rfl, rfl, rfl⟩

/-- From the moment it is queued, over any sequence of callbacks and enqueue
failures: the job has no result until a callback completes it and that callback's
from then on, its status never goes back and never leaves a terminal one, and a
refused callback changes nothing. -/
theorem exportJob_lifecycle (settings : Settings) {db : Database} {j : ExportJob}
    (hj : db.exportJobs.find j.id = some j) (hqueued : j.status = .queued)
    (hunset : j.result = .unset) (es : List ExportEvent) :
    ∃ j', (run (exportStep settings) db es).exportJobs.find j.id = some j' ∧
      ((j'.status ≠ .completed ∧ j'.result = .unset) ∨
        ∃ before after now body, CompletedBy settings db es j j' before after now body) ∧
      (∀ before after j₁, es = before ++ after →
        (run (exportStep settings) db before).exportJobs.find j.id = some j₁ →
        j₁.status.rank ≤ j'.status.rank ∧
          (2 ≤ j₁.status.rank → j'.status = j₁.status ∧ j'.result = j₁.result)) ∧
      ∀ before after now body e, es = before ++ .callback j.id now body :: after →
        updateExportJob settings (run (exportStep settings) db before) now j.id body = .error e →
        run (exportStep settings) db (before ++ [.callback j.id now body]) =
          run (exportStep settings) db before := by
  obtain ⟨j', hj', hresult⟩ := exportRun_result settings es hj
    (by rw [hqueued]; decide) hunset
  refine ⟨j', hj', hresult, fun before after j₁ hes hj₁ => ?_,
    fun before after now body e _ he => ?_⟩
  · have hid : j₁.id = j.id := Table.key_of_find hj₁
    rw [← hid] at hj₁
    obtain ⟨j₂, hj₂, -, hrank, hsame⟩ := exportRun_forward settings after hj₁
    rw [← run_append, ← hes, hid] at hj₂
    obtain rfl := Option.some.inj (hj'.symm.trans hj₂)
    exact ⟨hrank, hsame⟩
  · rw [run_append, run_cons, run_nil, exportStep, he]

end Runs

def queuedJob : ExportJob := queuedExport (.ordinary 1) 0 ⟨5⟩ .default 1 64

def queuedJobDatabase : Database := { Database.empty with exportJobs := ⟨[queuedJob], by decide⟩ }

/-- A completion of the job, reported with a size. -/
def completionOf (sizeBytes : ℕ) : ExportJobUpdate where
  status := .completed
  storageBucket := some (queuedJob.target Settings.default).bucket
  objectKey := some (queuedJob.target Settings.default).objectKey
  sizeBytes := some sizeBytes
  downloadUrl := some "https://media/archive"
  error := none
  completed_full _ := ⟨rfl, rfl, rfl, rfl⟩
  failed_error h := by cases h

/-- A completion that arrives twice, with another size the second time, and a
failure to enqueue after that. -/
def repeatedCompletion : List ExportEvent :=
  [.callback ⟨5⟩ 10 (completionOf 70), .callback ⟨5⟩ 20 (completionOf 71), .failUnqueued ⟨5⟩ 30]

theorem exportJob_lifecycle_repeated : ∃ j',
    (run (exportStep Settings.default) queuedJobDatabase repeatedCompletion).exportJobs.find ⟨5⟩ =
      some j' ∧ j'.status = .completed ∧ j'.sizeBytes = some 70 := by
  obtain ⟨j', hj', -, hforward, -⟩ := exportJob_lifecycle Settings.default
    (show queuedJobDatabase.exportJobs.find queuedJob.id = some queuedJob by decide) rfl rfl
    repeatedCompletion
  obtain ⟨j₁, hj₁, hstatus, hsize⟩ : ∃ j₁, (run (exportStep Settings.default) queuedJobDatabase
      [.callback ⟨5⟩ 10 (completionOf 70)]).exportJobs.find ⟨5⟩ = some j₁ ∧
      j₁.status = .completed ∧ j₁.result.sizeBytes = some 70 :=
    ⟨_, rfl, rfl, rfl⟩
  obtain ⟨-, hsame⟩ := hforward [.callback ⟨5⟩ 10 (completionOf 70)]
    [.callback ⟨5⟩ 20 (completionOf 71), .failUnqueued ⟨5⟩ 30] j₁ rfl hj₁
  obtain ⟨hstatus', hresult'⟩ := hsame (by rw [hstatus]; decide)
  exact ⟨j', hj', hstatus'.trans hstatus, (congrArg ExportResult.sizeBytes hresult').trans hsize⟩

end MediaService
