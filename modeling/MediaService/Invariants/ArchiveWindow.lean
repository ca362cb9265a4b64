import MediaService.Invariants.DerivedBytes

/-! Collecting an archive. A completed export is final: no request touches its result. Until
its window closes nothing takes its bytes, a repairing reconciliation included, and its owner
is handed a URL to them; from then on the URL is refused, and the bytes are a repair's. -/

namespace MediaService

open Foundation

variable {env : Env} {w : World} {j : ExportJob} {e : Timestamp}

/-! ### A completed job -/

/-- A callback on a completed job is refused, or repeats its result. -/
theorem applyExportCallback_completed {settings : Settings} {now : Timestamp} {j' : ExportJob}
    {body : ExportJobUpdate} (hcompleted : j.status = .completed)
    (h : applyExportCallback settings now j body = .ok j') : j' = j := by
  have hinactive : isActiveExport j = false := by simp [isActiveExport, hcompleted]
  unfold applyExportCallback at h
  split at h
  · simp [hcompleted, refuse] at h
  · simp [hcompleted, hinactive, refuse] at h
  · dsimp only at h
    split at h
    · exact absurd h refuse_ne_ok
    · simp [hcompleted, hinactive] at h
      exact h.symm

/-- The job's row is there, but for the time it was last written. -/
def World.KeepsJob (j : ExportJob) (w : World) : Prop :=
  ∃ t, w.backend.db.exportJobs.find j.id = some { j with updatedAt := t }

theorem keepsJob_updateExportJob {settings : Settings} {db db' : Database} {now t : Timestamp}
    {jobId : UUID} {body : ExportJobUpdate} (hcompleted : j.status = .completed)
    (hj : db.exportJobs.find j.id = some { j with updatedAt := t })
    (h : updateExportJob settings db now jobId body = .ok db') :
    ∃ t', db'.exportJobs.find j.id = some { j with updatedAt := t' } := by
  unfold updateExportJob at h
  split at h
  · exact absurd h refuse_ne_ok
  · rename_i q hq
    split at h
    · cases h
    · rename_i q' hcall
      cases h
      by_cases hid : jobId = j.id
      · subst hid
        obtain rfl := Option.some.inj (hj.symm.trans hq)
        have hfinal : q' = { j with updatedAt := t } :=
          applyExportCallback_completed hcompleted hcall
        subst hfinal
        exact ⟨now, Table.find_update_self (r := { j with updatedAt := now }) hj⟩
      · have hkey := (applyExportCallback_moves hcall).1
        have hne : j.id ≠ ({ q' with updatedAt := now } : ExportJob).id := fun he =>
          hid ((Table.key_of_find hq).symm.trans (hkey.symm.trans he.symm))
        exact ⟨t, (Table.find_update_ne hne).trans hj⟩

theorem keepsJob_failUnqueuedExport {db : Database} {now t : Timestamp} {jobId : UUID}
    (hcompleted : j.status = .completed)
    (hj : db.exportJobs.find j.id = some { j with updatedAt := t }) :
    (failUnqueuedExport db now jobId).exportJobs.find j.id =
      some { j with updatedAt := t } := by
  unfold failUnqueuedExport
  split
  · exact hj
  · rename_i q hq
    split
    · exact hj
    · rename_i hqueued
      have hne : j.id ≠ ({ q with
          status := .failed
          error := some "Export could not be queued."
          updatedAt := now } : ExportJob).id := by
        intro hid
        have hsame : jobId = j.id := (Table.key_of_find hq).symm.trans hid.symm
        rw [hsame] at hq
        obtain rfl := Option.some.inj (hj.symm.trans hq)
        exact hqueued (by simp [hcompleted])
      exact (Table.find_update_ne hne).trans hj

/-- A completed job is final. -/
theorem World.KeepsJob.serve (h : w.KeepsJob j) (hcompleted : j.status = .completed)
    (r : Request) : (serve env w r).KeepsJob j := by
  obtain ⟨t, hj⟩ := h
  unfold World.KeepsJob
  rw [serve_backend]
  have hframe := writesOnly_answer env w r .exportJobs
  cases r with
  | startExport now jobId user filters =>
    simp only [answer]
    cases hstart : startArchiveExport env w.backend.db now jobId user filters with
    | error e => exact ⟨t, hj⟩
    | ok res =>
      obtain ⟨-, -, q, table, -, ht, hdb⟩ := startArchiveExport_ok hstart
      refine ⟨t, ?_⟩
      change res.1.exportJobs.find j.id = _
      rw [hdb, Table.find_insert ht, if_neg, hj]
      intro hid
      have hnone := Table.find_none_of_insert ht
      rw [← hid, hj] at hnone
      cases hnone
  | failUnqueuedExport now jobId => exact ⟨t, keepsJob_failUnqueuedExport hcompleted hj⟩
  | updateExportJob now jobId body =>
    simp only [answer]
    cases hupdate : updateExportJob env.settings w.backend.db now jobId body with
    | error e => exact ⟨t, hj⟩
    | ok db' => exact keepsJob_updateExportJob hcompleted hj hupdate
  | _ =>
    have hsame : (answer env w _).db.exportJobs = w.backend.db.exportJobs :=
      hframe (by simp [Request.tables, importTables])
    refine ⟨t, ?_⟩
    rw [hsame]
    exact hj

/-! ### Its bytes -/

/-- The sweep finds the owner of an archive inside its window. -/
theorem isClaimed_archive (hw : WorldInv env w) (h : w.KeepsJob j)
    (hcompleted : j.status = .completed) (hexpires : j.expiresAt = some e) {now : Timestamp}
    (hopen : now < e) :
    isClaimed w.backend.db (pendingKeys w.backend.db now) (j.target env.settings) = true := by
  obtain ⟨t, hj⟩ := h
  have hmem := Table.mem_of_find hj
  obtain ⟨hbucket, hkey, -⟩ := hw.kept.export_placed _ hmem hcompleted
  rw [isClaimed, decide_eq_true_eq]
  refine .inl (List.mem_append.mpr (.inr (List.mem_map.mpr
    ⟨_, List.mem_filter.mpr ⟨hmem, ?_⟩, ?_⟩)))
  · simp [hcompleted, hexpires, hopen]
  · dsimp only at hbucket hkey ⊢
    rw [hbucket, hkey]
    rfl

/-- Whatever repairs does so before this time. -/
def Request.RepairsBefore (e : Timestamp) : Request → Prop
  | .reconcile _ now _ _ _ true => now < e
  | _ => True

theorem not_takes_archive (hw : WorldInv env w) (h : w.KeepsJob j)
    (hcompleted : j.status = .completed) (hexpires : j.expiresAt = some e) {r : Request}
    (hr : r.RepairsBefore e) : ¬ w.Takes env (j.target env.settings) r := by
  rintro (hswept | ⟨id, ⟨v, hv, -, hl⟩, -⟩)
  · unfold World.Sweeps at hswept
    split at hswept
    · have hfree := (mem_comesUpon (List.mem_of_mem_take hswept.1)).2
      rw [isClaimed_archive hw h hcompleted hexpires hr] at hfree
      cases hfree
    · exact hswept
  · obtain ⟨o, m, c, name, f, t, hkey⟩ := hw.kept.variant_key v hv
    have hsame : v.objectKey = (j.target env.settings).objectKey :=
      congrArg Location.objectKey hl
    rw [hkey] at hsame
    exact buildVariantKey_ne_buildExportArchiveKey _ _ _ _ _ _ _ _ _ hsame

/-! ### Its owner -/

/-- What callers are told of a completed job: a stranger nothing, its owner the URL of the
archive until the window closes, and a refusal from then on. -/
structure CollectableUntil (settings : Settings) (db : Database) (j : ExportJob)
    (e : Timestamp) : Prop where
  stranger : ∀ now (user : UserModel), user.isSuperuser = false → j.ownerUserId ≠ user.id →
    getExportJob settings db now user j.id = refuse 403 "Not enough permissions."
  handed : ∀ now (user : UserModel), user.isSuperuser = true ∨ j.ownerUserId = user.id → now < e →
    ∃ p, getExportJob settings db now user j.id = .ok p ∧ p.status = .completed ∧
      p.sizeBytes = j.sizeBytes ∧ p.downloadUrl = some ⟨j.target settings,
        now + seconds settings.s3PresignedUrlExpireSeconds,
        some ("export-" ++ j.id.str ++ ".zip")⟩
  expired : ∀ now (user : UserModel), user.isSuperuser = true ∨ j.ownerUserId = user.id →
    e ≤ now → getExportJob settings db now user j.id =
      refuse 410 "The exported archive has expired; start a new export."

theorem collectable_of_keepsJob (hw : WorldInv env w) (h : w.KeepsJob j)
    (hcompleted : j.status = .completed) (hexpires : j.expiresAt = some e) :
    CollectableUntil env.settings w.backend.db j e := by
  obtain ⟨t, hj⟩ := h
  obtain ⟨hbucket, hkey, -⟩ := hw.kept.export_placed _ (Table.mem_of_find hj) hcompleted
  dsimp only at hbucket hkey
  have hload : ∀ user : UserModel, user.isSuperuser = true ∨ j.ownerUserId = user.id →
      loadExportJob w.backend.db user j.id = .ok { j with updatedAt := t } := by
    intro user hmay
    rw [loadExportJob, hj]
    dsimp only
    rw [if_neg]
    rintro ⟨hplain, hother⟩
    rcases hmay with hsuper | hown
    · simp [hsuper] at hplain
    · exact hother hown
  constructor
  · intro now user hplain hother
    rw [getExportJob, loadExportJob, hj]
    dsimp only
    rw [if_pos ⟨by simp [hplain], hother⟩]
    rfl
  · intro now user hmay hopen
    rw [getExportJob, hload user hmay]
    dsimp only
    rw [hcompleted, hbucket]
    dsimp only
    rw [if_neg (by simpa [archiveIsExpired, hexpires] using hopen)]
    refine ⟨_, rfl, rfl, rfl, ?_⟩
    dsimp only
    rw [hkey]
    rfl
  · intro now user hmay hclosed
    rw [getExportJob, hload user hmay]
    dsimp only
    rw [hcompleted, hbucket]
    dsimp only
    rw [if_pos (by simpa [archiveIsExpired, hexpires] using hclosed)]

/-! ### Runs -/

theorem keepsJob_run (hw : WorldInv env w) (hkeeps : w.KeepsJob j)
    (hcompleted : j.status = .completed) (rs : List Request) :
    Always (serve env) (fun w => WorldInv env w ∧ w.KeepsJob j) w rs :=
  always_of_inv (fun _ r hI => ⟨hI.1.serve r, hI.2.serve hcompleted r⟩) ⟨hw, hkeeps⟩ rs

/-- The archive's bytes, while what repairs does so inside the window. -/
theorem content_archive_run (hw : WorldInv env w) (hforms : FormsOriginal env w)
    (hkeeps : w.KeepsJob j) (hcompleted : j.status = .completed) (hexpires : j.expiresAt = some e)
    {rs : List Request} (hrepairs : ∀ r ∈ rs, r.RepairsBefore e) :
    (run (serve env) w rs).backend.storage.content (j.target env.settings) =
      World.writtenAfter env (j.target env.settings) w
        (w.backend.storage.content (j.target env.settings)) rs := by
  induction rs generalizing w with
  | nil => rfl
  | cons r rs ih =>
    have hspared := not_takes_archive hw hkeeps hcompleted hexpires
      (hrepairs r List.mem_cons_self)
    have hderived : Derived env (j.target env.settings) := derived_exportTarget _ _ _ _
    have hbytes := content_serve_derived hw hforms hderived hspared
    rw [run_cons, World.writtenAfter, ← hbytes]
    exact ih (hw.serve r) (hforms.serve r) (hkeeps.serve hcompleted r)
      fun r' hr' => hrepairs r' (List.mem_cons_of_mem r hr')

/-- From any state the service comes to, a completed export stays as it is, whatever
happens, and its owner is handed the URL of its archive until the window closes and
refused from then on. While no reconciliation repairs after the window, the bytes there
are what the worker last wrote for it. -/
theorem archive_collectable (env : Env) (before rs : List Request) {j : ExportJob}
    {e : Timestamp}
    (hj : (run (serve env) World.initial before).backend.db.exportJobs.find j.id = some j)
    (hcompleted : j.status = .completed) (hexpires : j.expiresAt = some e) :
    let w := run (serve env) World.initial before
    Always (serve env) (fun w => w.KeepsJob j ∧ CollectableUntil env.settings w.backend.db j e)
        w rs ∧
      ((∀ r ∈ rs, r.RepairsBefore e) →
        (run (serve env) w rs).backend.storage.content (j.target env.settings) =
          World.writtenAfter env (j.target env.settings) w
            (w.backend.storage.content (j.target env.settings)) rs) := by
  intro w
  have hw : WorldInv env w := worldInv_run env before
  have hforms : FormsOriginal env w :=
    (always_of_inv (fun _ r h => h.serve r) (formsOriginal_initial env) before).last
  have hkeeps : w.KeepsJob j := ⟨j.updatedAt, hj⟩
  refine ⟨(keepsJob_run hw hkeeps hcompleted rs).mono fun w hI => ?_,
    content_archive_run hw hforms hkeeps hcompleted hexpires⟩
  exact ⟨hI.2, collectable_of_keepsJob hI.1 hI.2 hcompleted hexpires⟩

/-- An upload, its export, and the worker that writes the archive and reports it. -/
def exportedRequests : List Request :=
  let started := cleanUploadRequests Env.default 0 ⟨2⟩ (.ordinary 1) .private pngSignature ++
    [.startExport 0 ⟨5⟩ (.ordinary 1) none]
  let jobs := (run (serve Env.default) World.initial started).exportJobs
  started ++ (jobs.map fun job => .writeArchive job [1, 2] "application/zip") ++
    [.updateExportJob 10 ⟨5⟩ (completionOf 2)]

/-- A repair inside the window leaves the archive to its owner, a second report of another
size the row as it is. -/
theorem archive_collectable_repair :
    let rs : List Request := [.reconcile Faults.none 20 ["temp-media"] 0 10 true,
      .updateExportJob 30 ⟨5⟩ (completionOf 3)]
    ∃ j ∈ (run (serve Env.default) World.initial exportedRequests).backend.db.exportJobs,
      Always (serve Env.default) (World.KeepsJob j)
        (run (serve Env.default) World.initial exportedRequests) rs ∧
      (run (serve Env.default) (run (serve Env.default) World.initial exportedRequests)
        rs).backend.storage.content (j.target Settings.default) = some [1, 2] := by
  intro rs
  obtain ⟨j, hj, hcompleted, hexpires, hbytes⟩ :
      ∃ j ∈ (run (serve Env.default) World.initial exportedRequests).backend.db.exportJobs,
        j.status = .completed ∧ j.expiresAt = some (10 + seconds 86400) ∧
        World.writtenAfter Env.default (j.target Settings.default)
          (run (serve Env.default) World.initial exportedRequests)
          ((run (serve Env.default) World.initial exportedRequests).backend.storage.content
            (j.target Settings.default)) rs = some [1, 2] := by
    decide +kernel
  have hopen : (20 : ℤ) < 10 + seconds 86400 := by decide
  obtain ⟨hfinal, hcontent⟩ := archive_collectable Env.default exportedRequests rs
    (Table.find_of_mem hj) hcompleted hexpires
  refine ⟨j, hj, hfinal.mono fun _ hI => hI.1, (hcontent ?_).trans hbytes⟩
  simp only [rs, List.forall_mem_cons, Request.RepairsBefore]
  exact ⟨hopen, trivial, fun _ h => absurd h List.not_mem_nil⟩

end MediaService
