import MediaService.App.Routes
import MediaService.Invariants.ObjectLife

/-! Variant jobs and the queue. Unlike an export, a variant job whose enqueue failed is left
as it is. So a job row is a worker's, or as it was queued for good; and a job the queue has
keeps its row until its object is purged. -/

namespace MediaService

open Foundation

variable {env : Env} {a a' : App} {w : World} {r : Request}

/-! ### Rows -/

/-- The job as it was queued. -/
def VariantJob.Unstarted (j : VariantJob) : Prop :=
  j.status = .queued ∧ j.variantsCreated = 0 ∧ j.error = none

/-- The row of a job, for its object. -/
def VariantJobPayload.HasRow (p : VariantJobPayload) (db : Database) : Prop :=
  ∃ j ∈ db.variantJobs, j.id = p.jobId ∧ j.mediaObjectId = p.mediaObjectId

/-- An accepted generation queues a row and its job. -/
theorem generateVariants_queues {db db' : Database} {now : Timestamp} {jobId : UUID}
    {user : UserModel} {objectId : UUID} {req : VariantGenerateRequest} {p : VariantJobPayload}
    (h : generateVariants env db now jobId user objectId req = .ok (db', p)) :
    ∃ j t, j.id = p.jobId ∧ j.mediaObjectId = p.mediaObjectId ∧ j.Unstarted ∧
      db.variantJobs.insert j = some t ∧ db' = { db with variantJobs := t } := by
  unfold generateVariants at h
  split at h
  · cases h
  · split at h
    · exact absurd h refuse_ne_ok
    · split at h
      · exact absurd h refuse_ne_ok
      · split at h
        · cases h
        · split at h
          · cases h
          · rename_i t ht
            cases h
            exact ⟨_, t, rfl, rfl, ⟨rfl, rfl, rfl⟩, ht, rfl⟩

/-- A row is as it was before the request, or a worker's callback wrote it, or it is new. -/
theorem variantJobs_origin {j : VariantJob} (hj : j ∈ (answer env w r).db.variantJobs) :
    j ∈ w.backend.db.variantJobs ∨ (∃ now body, r = .updateVariantJob now j.id body) ∨
      j.Unstarted := by
  have hframe := writesOnly_answer env w r .variantJobs
  cases r with
  | hardPurge faults now olderThan limit =>
    have hfirst := purgeCandidates_first w.backend.db (now - olderThan) limit
    have hrows : (hardPurgeExpired w.backend faults now olderThan limit).1.db = _ :=
      (foldl_purgeObject (fun q hq => (hfirst.deleted q hq).2) hfirst.nodup).2
    rw [answer, hrows] at hj
    exact .inl (Table.mem_filter.mp hj).1
  | generate now jobId user objectId body =>
    simp only [answer] at hj
    cases h : generateVariants env w.backend.db now jobId user objectId body with
    | error e =>
      rw [h] at hj
      exact .inl hj
    | ok res =>
      obtain ⟨db', p⟩ := res
      obtain ⟨j', t, -, -, hnew, ht, rfl⟩ := generateVariants_queues h
      rw [h] at hj
      rcases (Table.mem_insert ht).mp hj with hj | rfl
      · exact .inl hj
      · exact .inr (.inr hnew)
  | updateVariantJob now jobId body =>
    simp only [answer, updateVariantJob] at hj
    cases hfind : w.backend.db.variantJobs.find jobId with
    | none =>
      simp only [hfind] at hj
      exact .inl hj
    | some j₀ =>
      simp only [hfind] at hj
      obtain rfl := Table.key_of_find hfind
      rcases (Table.mem_update (by exact hfind)).mp hj with rfl | ⟨hj, -⟩
      · exact .inr (.inl ⟨now, body, rfl⟩)
      · exact .inl hj
  | _ =>
    have hsame : (answer env w _).db.variantJobs = w.backend.db.variantJobs :=
      hframe (by simp [Request.tables, importTables])
    exact .inl (hsame ▸ hj)

/-- A row stays for its object, whatever is requested, until the object is gone. -/
theorem variantJobs_stay (hw : WorldInv env w) (hkeys : ForeignKeys w.backend.db) (r : Request)
    {p : VariantJobPayload} (hp : p.HasRow w.backend.db) :
    p.HasRow (serve env w r).backend.db ∨
      GoneFor p.mediaObjectId (serve env w r).backend.holdings := by
  obtain ⟨j, hj, hid, hobject⟩ := hp
  have hframe := writesOnly_answer env w r .variantJobs
  rw [serve_backend]
  cases r with
  | hardPurge faults now olderThan limit =>
    obtain ⟨o, ho, hoid, -⟩ := hkeys.job_object j hj
    have hlives := lives_serve hw (.hardPurge faults now olderThan limit)
      (.inl ⟨o, Table.find_of_mem ho, .refl o⟩ : Lives o w.backend.holdings)
    rw [serve_backend] at hlives
    rcases hlives with ⟨o', ho', -⟩ | hgone
    · have hfirst := purgeCandidates_first w.backend.db (now - olderThan) limit
      have hrows : (hardPurgeExpired w.backend faults now olderThan limit).1.db = _ :=
        (foldl_purgeObject (fun q hq => (hfirst.deleted q hq).2) hfirst.nodup).2
      have hmem := Table.mem_of_find ho'
      have hkey := Table.key_of_find ho'
      simp only [Backend.holdings, answer, hrows] at hmem
      have hleft := of_decide_eq_true (Table.mem_filter.mp hmem).2
      rw [hkey, hoid] at hleft
      rw [answer, hrows]
      exact .inl ⟨j, Table.mem_filter.mpr ⟨hj, decide_eq_true hleft⟩, hid, hobject⟩
    · rw [hoid, hobject] at hgone
      exact .inr hgone
  | generate now jobId user objectId body =>
    left
    simp only [answer]
    cases h : generateVariants env w.backend.db now jobId user objectId body with
    | error e => exact ⟨j, hj, hid, hobject⟩
    | ok res =>
      obtain ⟨db', q⟩ := res
      obtain ⟨j', t, -, -, -, ht, rfl⟩ := generateVariants_queues h
      exact ⟨j, (Table.mem_insert ht).mpr (.inl hj), hid, hobject⟩
  | updateVariantJob now jobId body =>
    left
    simp only [answer, updateVariantJob]
    cases hfind : w.backend.db.variantJobs.find jobId with
    | none => exact ⟨j, hj, hid, hobject⟩
    | some j₀ =>
      have hmem := fun q => @Table.mem_update _ _ _ _ w.backend.db.variantJobs { j₀ with
        status := body.status
        variantsCreated := body.variantsCreated.getD j₀.variantsCreated
        error := body.error.or j₀.error
        updatedAt := now } j₀ (Table.find_of_mem (Table.mem_of_find hfind)) q
      by_cases he : j.id = j₀.id
      · obtain rfl := Table.eq_of_key_eq hj (Table.mem_of_find hfind) he
        exact ⟨_, (hmem _).mpr (.inl rfl), hid, hobject⟩
      · exact ⟨j, (hmem j).mpr (.inr ⟨hj, he⟩), hid, hobject⟩
  | _ =>
    left
    have hsame : (answer env w _).db.variantJobs = w.backend.db.variantJobs :=
      hframe (by simp [Request.tables, importTables])
    rw [VariantJobPayload.HasRow, hsame]
    exact ⟨j, hj, hid, hobject⟩

theorem mem_variantsOf {p : VariantJobPayload} (hp : p ∈ variantsOf env w r) :
    p.HasRow (serve env w r).backend.db := by
  rw [serve_backend]
  unfold variantsOf at hp
  split at hp
  · split at hp
    · rename_i db' q h
      obtain rfl := List.mem_singleton.mp hp
      obtain ⟨j, t, hid, hobject, -, ht, rfl⟩ := generateVariants_queues h
      simp only [answer, h]
      exact ⟨j, (Table.mem_insert ht).mpr (.inr rfl), hid, hobject⟩
    · cases hp
  · cases hp

/-! ### Runs -/

/-- The broker took the job. -/
def App.HoldsVariants (a : App) (jobId : UUID) : Prop := ∃ p ∈ a.variants.held, p.jobId = jobId

/-- What the queue says of the job rows. -/
structure App.TracesVariants (env : Env) (a : App) : Prop where
  world : WorldInv env a.world
  keys : ForeignKeys a.world.backend.db
  rows : ∀ j ∈ a.world.backend.db.variantJobs, a.HoldsVariants j.id ∨ j.Unstarted
  jobs : ∀ p, p ∈ a.variants.due ∨ p ∈ a.variants.held →
    p.HasRow a.world.backend.db ∨ GoneFor p.mediaObjectId a.world.backend.holdings

theorem tracesVariants_initial (env : Env) : App.initial.TracesVariants env where
  world := worldInv_initial env
  keys := foreignKeys_empty
  rows _ hj := absurd hj (Table.not_mem_empty _)
  jobs _ hp := by rcases hp with hp | hp <;> cases hp

theorem App.TracesVariants.served (h : a.TracesVariants env)
    (hr : ∀ now jobId body, r = .updateVariantJob now jobId body → a.HoldsVariants jobId)
    {ps : List VariantJobPayload}
    (hps : ∀ p ∈ ps, p.HasRow (serve env a.world r).backend.db)
    (hworld : a'.world = serve env a.world r) (hvariants : a'.variants = a.variants.commit ps) :
    a'.TracesVariants env := by
  have hstays : ∀ p, p ∈ a.variants.due ∨ p ∈ a.variants.held →
      p.HasRow (serve env a.world r).backend.db ∨
        GoneFor p.mediaObjectId (serve env a.world r).backend.holdings := by
    intro p hp
    rcases h.jobs p hp with hrow | hgone
    · exact variantJobs_stay h.world h.keys r hrow
    · exact .inr ((movesTo_serve h.world r).preserves (I := GoneFor p.mediaObjectId)
        (fun _ _ _ _ hm hI => hm.goneFor hI) hgone)
  constructor
  · rw [hworld]
    exact h.world.serve r
  · rw [hworld]
    exact h.keys.serve r
  · unfold App.HoldsVariants
    rw [hworld, hvariants, serve_backend]
    intro j hj
    rcases variantJobs_origin hj with hj | ⟨now, body, rfl⟩ | hnew
    · exact h.rows j hj
    · exact .inl (hr now j.id body rfl)
    · exact .inr hnew
  · rw [hworld, hvariants]
    rintro p (hp | hp)
    · rcases List.mem_append.mp hp with hp | hp
      · exact hstays p (.inl hp)
      · exact .inl (hps p hp)
    · exact hstays p (.inr hp)

theorem App.TracesVariants.of_same (h : a.TracesVariants env) (hworld : a'.world = a.world)
    (hvariants : a'.variants = a.variants) : a'.TracesVariants env := by
  constructor
  · rw [hworld]
    exact h.world
  · rw [hworld]
    exact h.keys
  · unfold App.HoldsVariants
    rw [hworld, hvariants]
    exact h.rows
  · rw [hworld, hvariants]
    exact h.jobs

theorem App.TracesVariants.enqueued (h : a.TracesVariants env) (p : VariantJobPayload)
    (outcome : EnqueueOutcome) :
    (appStep env a (.enqueueVariants p outcome)).TracesVariants env where
  world := h.world
  keys := h.keys
  rows j hj := by
    refine (h.rows j hj).imp_left ?_
    rintro ⟨q, hq, hid⟩
    exact ⟨q, Handover.held_hand_mono hq, hid⟩
  jobs q hq := by
    refine h.jobs q ?_
    rcases hq with hq | hq
    · exact .inl (Handover.mem_due_hand hq)
    · rcases Handover.mem_held_hand hq with hq | ⟨rfl, hq, -⟩
      · exact .inr hq
      · exact .inl hq

theorem App.TracesVariants.step (h : a.TracesVariants env) (e : AppEvent) :
    (appStep env a e).TracesVariants env := by
  cases e with
  | request r =>
    by_cases hpermits : a.permits r = true
    · rw [appStep_request hpermits]
      refine h.served ?_ (fun p hp => mem_variantsOf hp) rfl rfl
      rintro now jobId body rfl
      obtain ⟨p, hp, hid⟩ := List.any_eq_true.mp hpermits
      exact ⟨p, hp, of_decide_eq_true hid⟩
    · rw [appStep_refused hpermits]
      exact h
  | enqueueScan p outcome => exact h.of_same rfl rfl
  | enqueueVariants p outcome => exact h.enqueued p outcome
  | enqueueExportArchive p outcome => exact h.of_same rfl rfl
  | failUnqueued now jobId =>
    by_cases hraised : jobId ∈ a.unqueued
    · rw [appStep_failUnqueued hraised]
      refine h.served (r := .failUnqueuedExport now jobId) ?_
        (fun p (hp : p ∈ ([] : List VariantJobPayload)) => absurd hp List.not_mem_nil) rfl
        (Handover.commit_nil _).symm
      rintro _ _ _ ⟨⟩
    · rw [appStep_settled hraised]
      exact h

/-- In every state of every run whose workers call back on jobs the broker gave them, a variant
job no worker was given is as it was queued, for nothing repeats or gives up on a call that
failed; and a job of the queue has its row, for its object, until the object is gone. -/
theorem variantDispatch_run (env : Env) (es : List AppEvent) :
    let a := run (appStep env) App.initial es
    (∀ j ∈ a.world.backend.db.variantJobs, a.HoldsVariants j.id ∨
      j.status = .queued ∧ j.variantsCreated = 0 ∧ j.error = none) ∧
    ∀ p ∈ a.variants.held,
      (∃ j ∈ a.world.backend.db.variantJobs, j.id = p.jobId ∧
        j.mediaObjectId = p.mediaObjectId) ∨
      ∀ o ∈ a.world.backend.db.objects, o.id ≠ p.mediaObjectId := by
  have htraces : (run (appStep env) App.initial es).TracesVariants env :=
    (always_of_inv (I := App.TracesVariants env) (fun _ e h => h.step e)
      (tracesVariants_initial env) es).last
  refine ⟨htraces.rows, fun p hp => (htraces.jobs p (.inr hp)).imp_right fun hgone o ho => ?_⟩
  exact Table.find_eq_none.mp hgone.1 o ho

end MediaService
