import MediaService.App.Routes
import MediaService.Invariants.ExportJobs
import MediaService.Lifecycle.Frames

/-! Exports and the queue. A caller may have one export in flight, so a job row that no
worker was given would hold the caller's slot for good. Whatever the broker does with the
calls, and whatever comes between the commit, the call and the request that gives up on it:
a row is a worker's, or its own request is still to enqueue or to fail it, or it has been
failed. -/

namespace MediaService

open Foundation

variable {env : Env} {a a' : App} {r : Request}

/-! ### Rows and jobs -/

/-- The broker took the job. -/
def App.HoldsExport (a : App) (jobId : UUID) : Prop := ∃ p ∈ a.exports.held, p.jobId = jobId

/-- The request that queued the job is still to enqueue or to fail it. -/
def App.AwaitsExport (a : App) (jobId : UUID) : Prop :=
  (∃ p ∈ a.exports.due, p.jobId = jobId) ∨ jobId ∈ a.unqueued

/-- The job was failed for its enqueue. -/
def ExportJob.Unqueued (j : ExportJob) : Prop :=
  j.status = .failed ∧ j.error = some "Export could not be queued."

/-- What the queue and the pending requests say of the job rows. -/
structure App.TracesExports (env : Env) (a : App) : Prop where
  rows : ∀ j ∈ a.world.backend.db.exportJobs, a.HoldsExport j.id ∨
    j.result = .unset ∧ (j.status = .queued ∧ a.AwaitsExport j.id ∨ j.Unqueued)
  jobs : ∀ p, p ∈ a.exports.due ∨ p ∈ a.exports.held →
    ∃ j ∈ a.world.backend.db.exportJobs, j.id = p.jobId ∧ j.target env.settings = p.target

theorem tracesExports_initial (env : Env) : App.initial.TracesExports env where
  rows _ hj := absurd hj (Table.not_mem_empty _)
  jobs _ hp := by rcases hp with hp | hp <;> cases hp

theorem App.TracesExports.of_same (h : a.TracesExports env)
    (hrows : a'.world.backend.db.exportJobs = a.world.backend.db.exportJobs)
    (hexports : a'.exports = a.exports) (hunqueued : a'.unqueued = a.unqueued) :
    a'.TracesExports env := by
  constructor
  · unfold App.HoldsExport App.AwaitsExport
    rw [hrows, hexports, hunqueued]
    exact h.rows
  · rw [hrows, hexports]
    exact h.jobs

/-! ### Requests -/

/-- An accepted export adds a queued row, and its job is due. -/
theorem App.TracesExports.started (h : a.TracesExports env) {db' : Database}
    {now : Timestamp} {jobId : UUID} {user : UserModel} {filters : Option ObjectListParams}
    {payload : ExportArchiveJobPayload}
    (hstart : startArchiveExport env a.world.backend.db now jobId user filters =
      .ok (db', payload))
    (hrows : a'.world.backend.db.exportJobs = db'.exportJobs)
    (hexports : a'.exports = a.exports.commit [payload]) (hunqueued : a'.unqueued = a.unqueued) :
    a'.TracesExports env := by
  obtain ⟨selected, manifest, t, -, -, -, -, rfl, ht, rfl⟩ := startArchiveExport_payload hstart
  constructor
  · rw [hrows]
    intro j hj
    unfold App.HoldsExport App.AwaitsExport
    rw [hexports, hunqueued]
    rcases (Table.mem_insert ht).mp hj with hj | rfl
    · rcases h.rows j hj with hheld | ⟨hunset, ⟨hstatus, ⟨p, hp, hid⟩ | hraised⟩ | hfailed⟩
      · exact .inl hheld
      · exact .inr ⟨hunset, .inl ⟨hstatus, .inl ⟨p, List.mem_append_left _ hp, hid⟩⟩⟩
      · exact .inr ⟨hunset, .inl ⟨hstatus, .inr hraised⟩⟩
      · exact .inr ⟨hunset, .inr hfailed⟩
    · exact .inr ⟨rfl, .inl ⟨rfl, .inl ⟨_, List.mem_append_right _ (List.mem_singleton_self _),
        rfl⟩⟩⟩
  · rw [hrows, hexports]
    intro p hp
    have hold : p ∈ a.exports.due ∨ p ∈ a.exports.held → ∃ j ∈ t, j.id = p.jobId ∧
        j.target env.settings = p.target := by
      intro hp
      obtain ⟨j, hj, hid, htarget⟩ := h.jobs p hp
      exact ⟨j, (Table.mem_insert ht).mpr (.inl hj), hid, htarget⟩
    rcases hp with hp | hp
    · rcases List.mem_append.mp hp with hp | hp
      · exact hold (.inl hp)
      · obtain rfl := List.mem_singleton.mp hp
        exact ⟨_, (Table.mem_insert ht).mpr (.inr rfl), rfl, rfl⟩
    · exact hold (.inr hp)

/-- Rows written over keep the traces if those that change are accounted for. -/
theorem App.TracesExports.written (h : a.TracesExports env) {e : ExportEvent}
    (hrows : a'.world.backend.db = exportStep env.settings a.world.backend.db e)
    (hexports : a'.exports = a.exports)
    (hchanged : ∀ j ∈ a'.world.backend.db.exportJobs, a.HoldsExport j.id ∨
      j.result = .unset ∧ (j.status = .queued ∧ a'.AwaitsExport j.id ∨ j.Unqueued)) :
    a'.TracesExports env := by
  constructor
  · intro j hj
    refine (hchanged j hj).imp_left fun hheld => ?_
    unfold App.HoldsExport at hheld ⊢
    rw [hexports]
    exact hheld
  · rw [hexports, hrows]
    intro p hp
    obtain ⟨j, hj, hid, htarget⟩ := h.jobs p hp
    obtain ⟨j', hj', hid', htarget', -⟩ :=
      exportStep_moves env.settings (Table.find_of_mem hj) e
    exact ⟨j', Table.mem_of_find hj', hid'.trans hid, htarget'.trans htarget⟩

/-- The row a callback rewrites is a worker's. -/
theorem App.TracesExports.calledBack (h : a.TracesExports env) {now : Timestamp} {jobId : UUID}
    {body : ExportJobUpdate} (hheld : a.HoldsExport jobId)
    (hrows : a'.world.backend.db =
      exportStep env.settings a.world.backend.db (.callback jobId now body))
    (hexports : a'.exports = a.exports) (hunqueued : a'.unqueued = a.unqueued) :
    a'.TracesExports env := by
  refine h.written hrows hexports fun j hj => ?_
  by_cases hid : j.id = jobId
  · rw [hid]
    exact .inl hheld
  · have hmem : j ∈ a.world.backend.db.exportJobs := by
      rw [hrows, exportStep] at hj
      split at hj
      · rename_i db' hcall
        unfold updateExportJob at hcall
        split at hcall
        · exact absurd hcall refuse_ne_ok
        · rename_i q hq
          split at hcall
          · cases hcall
          · rename_i q' happly
            cases hcall
            obtain ⟨hkey, -, -⟩ := applyExportCallback_moves happly
            have hq' : q'.id = jobId := hkey.trans (Table.key_of_find hq)
            rcases (Table.mem_update (s := q) (by rw [← hq'] at hq; exact hq)).mp hj with
              rfl | ⟨hj, -⟩
            · exact absurd hq' hid
            · exact hj
      · exact hj
    unfold App.AwaitsExport
    rw [hexports, hunqueued]
    exact h.rows j hmem

theorem App.TracesExports.request (h : a.TracesExports env) (hpermits : a.permits r = true) :
    (appStep env a (.request r)).TracesExports env := by
  rw [appStep_request hpermits]
  have hother : .exportJobs ∉ r.tables → exportsOf env a.world r = [] → TracesExports env
      { a with
        world := serve env a.world r
        scans := a.scans.commit (scansOf env a.world r)
        variants := a.variants.commit (variantsOf env a.world r)
        exports := a.exports.commit (exportsOf env a.world r) } := by
    intro htables hnone
    refine h.of_same (sameTable_serve env a.world htables) ?_ rfl
    rw [hnone]
    exact Handover.commit_nil _
  cases r with
  | startExport now jobId user filters =>
    cases hstart : startArchiveExport env a.world.backend.db now jobId user filters with
    | error e =>
      refine h.of_same ?_ ?_ rfl
      · rw [serve_backend, answer, hstart]
        rfl
      · rw [exportsOf, hstart]
        exact Handover.commit_nil _
    | ok res =>
      obtain ⟨db', payload⟩ := res
      refine h.started hstart ?_ ?_ rfl
      · rw [serve_backend, answer, hstart]
        rfl
      · rw [exportsOf, hstart]
  | failUnqueuedExport now jobId => cases hpermits
  | updateExportJob now jobId body =>
    obtain ⟨p, hp, hid⟩ := List.any_eq_true.mp hpermits
    have hrows : (serve env a.world (.updateExportJob now jobId body)).backend.db =
        exportStep env.settings a.world.backend.db (.callback jobId now body) := by
      rw [serve_backend, answer, exportStep]
      cases updateExportJob env.settings a.world.backend.db now jobId body <;> rfl
    exact h.calledBack ⟨p, hp, of_decide_eq_true hid⟩ hrows (Handover.commit_nil _) rfl
  | _ => exact hother (by simp [Request.tables, importTables]) rfl

/-! ### Calls -/

/-- A call settles its own job: the broker has it, or the request is to fail its row. -/
theorem App.TracesExports.enqueued (h : a.TracesExports env) (p : ExportArchiveJobPayload)
    (outcome : EnqueueOutcome) :
    (appStep env a (.enqueueExportArchive p outcome)).TracesExports env := by
  constructor
  · intro j hj
    rcases h.rows j hj with ⟨q, hq, hid⟩ | ⟨hunset, ⟨hstatus, ⟨q, hq, hid⟩ | hraised⟩ | hfailed⟩
    · exact .inl ⟨q, Handover.held_hand_mono hq, hid⟩
    · by_cases hqp : q = p
      · subst hqp
        cases outcome with
        | lost => exact .inr ⟨hunset, .inl ⟨hstatus, .inr (by
            simp [appStep, hq, hid, EnqueueOutcome.raises])⟩⟩
        | _ =>
          obtain ⟨q', hq', he⟩ := Handover.held_hand
            (fun p q : ExportArchiveJobPayload => p.jobId = q.jobId) hq
          refine .inl ⟨q', hq', ?_⟩
          rcases he with rfl | he
          · exact hid
          · exact (of_decide_eq_true he).symm.trans hid
      · exact .inr ⟨hunset, .inl ⟨hstatus, .inl ⟨q, Handover.due_hand_of_ne hq hqp, hid⟩⟩⟩
    · refine .inr ⟨hunset, .inl ⟨hstatus, .inr ?_⟩⟩
      unfold appStep
      dsimp only
      split
      · exact List.mem_append_left _ hraised
      · exact hraised
    · exact .inr ⟨hunset, .inr hfailed⟩
  · intro q hq
    refine h.jobs q ?_
    rcases hq with hq | hq
    · exact .inl (Handover.mem_due_hand hq)
    · rcases Handover.mem_held_hand hq with hq | ⟨rfl, hq, -⟩
      · exact .inr hq
      · exact .inl hq

theorem App.TracesExports.failed (h : a.TracesExports env) (now : Timestamp) (jobId : UUID) :
    (appStep env a (.failUnqueued now jobId)).TracesExports env := by
  by_cases hraised : jobId ∈ a.unqueued
  · rw [appStep_failUnqueued hraised]
    refine h.written (e := .failUnqueued jobId now) (by rw [serve_backend]; rfl) rfl fun j hj => ?_
    rw [serve_backend] at hj
    have hkept : j ∈ a.world.backend.db.exportJobs → j.id ≠ jobId ∨ j.status ≠ .queued →
        a.HoldsExport j.id ∨ j.result = .unset ∧ (j.status = .queued ∧
          App.AwaitsExport { a with
            world := serve env a.world (.failUnqueuedExport now jobId)
            unqueued := a.unqueued.erase jobId } j.id ∨ j.Unqueued) := by
      intro hj hother
      rcases h.rows j hj with hheld | ⟨hunset, ⟨hstatus, hawaits⟩ | hfailed⟩
      · exact .inl hheld
      · have hne := hother.resolve_right (not_not.mpr hstatus)
        exact .inr ⟨hunset, .inl ⟨hstatus,
          hawaits.imp_right fun hmem => (List.mem_erase_of_ne hne).mpr hmem⟩⟩
      · exact .inr ⟨hunset, .inr hfailed⟩
    simp only [answer, failUnqueuedExport] at hj
    split at hj
    · rename_i hnone
      exact hkept hj (.inl (Table.find_eq_none.mp hnone j hj))
    · rename_i q hq
      split at hj
      · rename_i hstatus
        refine hkept hj ?_
        by_cases hid : j.id = jobId
        · obtain rfl := Table.eq_of_key_eq hj (Table.mem_of_find hq)
            (hid.trans (Table.key_of_find hq).symm)
          exact .inr hstatus
        · exact .inl hid
      · have hid : q.id = jobId := Table.key_of_find hq
        rcases (Table.mem_update (s := q) (by rw [← hid] at hq; exact hq)).mp hj with
          rfl | ⟨hj, hne⟩
        · rcases h.rows q (Table.mem_of_find hq) with hheld | ⟨hunset, -⟩
          · exact .inl hheld
          · exact .inr ⟨hunset, .inr ⟨rfl, rfl⟩⟩
        · exact hkept hj (.inl fun he => hne (he.trans hid.symm))
  · rw [appStep_settled hraised]
    exact h

/-! ### Runs -/

theorem App.TracesExports.step (h : a.TracesExports env) (e : AppEvent) :
    (appStep env a e).TracesExports env := by
  cases e with
  | request r =>
    by_cases hpermits : a.permits r = true
    · exact h.request hpermits
    · rw [appStep_refused hpermits]
      exact h
  | enqueueScan p outcome => exact h.of_same rfl rfl rfl
  | enqueueVariants p outcome => exact h.of_same rfl rfl rfl
  | enqueueExportArchive p outcome => exact h.enqueued p outcome
  | failUnqueued now jobId => exact h.failed now jobId

/-- In every state of every run whose workers call back on jobs the broker gave them: a job row
without a result and without a worker is queued while its request is still to enqueue or to
fail it, and failed after; every job of the queue has its row, commissioned at the job's target;
and a caller whose export requests are all over and of whose jobs the broker has none is free to
start one. -/
theorem exportSlot_run (env : Env) (es : List AppEvent) :
    let a := run (appStep env) App.initial es
    (∀ j ∈ a.world.backend.db.exportJobs, a.HoldsExport j.id ∨
      j.result = .unset ∧ (j.status = .queued ∧ a.AwaitsExport j.id ∨ j.Unqueued)) ∧
    (∀ p ∈ a.exports.held, ∃ j ∈ a.world.backend.db.exportJobs, j.id = p.jobId ∧
      j.target env.settings = p.target) ∧
    ∀ user : UserModel, (∀ j ∈ a.world.backend.db.exportJobs, j.ownerUserId = user.id →
        ¬ a.HoldsExport j.id ∧ ¬ a.AwaitsExport j.id) →
      (a.world.backend.db.exportJobs.rows.any fun j =>
        j.ownerUserId = user.id ∧ isActiveExport j) = false := by
  have htraces : (run (appStep env) App.initial es).TracesExports env :=
    (always_of_inv (I := App.TracesExports env) (fun _ e h => h.step e)
      (tracesExports_initial env) es).last
  refine ⟨htraces.rows, fun p hp => htraces.jobs p (.inr hp), fun user hover => ?_⟩
  rw [List.any_eq_false]
  intro j hj hslot
  obtain ⟨howner, hactive⟩ := of_decide_eq_true hslot
  obtain ⟨hheld, hawaits⟩ := hover j hj howner
  rcases htraces.rows j hj with hholds | ⟨-, ⟨-, hawaited⟩ | hfailed⟩
  · exact hheld hholds
  · exact hawaits hawaited
  · rw [isActiveExport_iff, hfailed.1] at hactive
    exact absurd hactive (by decide)

end MediaService
