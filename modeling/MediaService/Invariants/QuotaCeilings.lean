import MediaService.Lifecycle.Frames
import MediaService.Scenario

/-! The ceilings on what a scope stores. Only an upload that completes, alone or as a row
of an import, adds to a scope's totals, and it reserves the actual size under the ceilings
first; a removal debits and a refusal credits nothing. So between two changes of a scope's
own quota its totals grow, whatever is asked and whatever fails, only within its ceilings. -/

namespace MediaService

open Foundation

variable {env : Env} {settings : Settings} {usage usage' usage'' : UsageTable} {scope : Scope}

/-! ### Growth -/

/-- The ceilings in force for a scope, on its bytes and on its objects. -/
def ceilings (settings : Settings) (usage : UsageTable) (scope : Scope) : Option ℤ × Option ℤ :=
  (effectiveQuotaBytes settings (usage.find scope),
    effectiveQuotaObjects settings (usage.find scope))

/-- From one total to the next: no growth, or none past the ceiling. -/
def RisesWithin (quota : Option ℤ) (total total' : ℤ) : Prop :=
  total' ≤ max 0 total ∨ exceeds quota total' = false

theorem RisesWithin.refl (quota : Option ℤ) (total : ℤ) : RisesWithin quota total total :=
  .inl (le_max_right 0 total)

theorem RisesWithin.trans {quota : Option ℤ} {total total' total'' : ℤ}
    (h : RisesWithin quota total total') (h' : RisesWithin quota total' total'') :
    RisesWithin quota total total'' := by
  rcases h' with h' | h'
  · rcases h with h | h
    · left
      omega
    · by_cases hle : total'' ≤ total'
      · exact .inr (exceeds_mono hle h)
      · left
        omega
  · exact .inr h'

theorem RisesWithin.debit (quota : Option ℤ) (total : ℤ) (n : ℕ) :
    RisesWithin quota total (max 0 (total - n)) := by
  left
  omega

/-- A scope keeps its ceilings and grows, if it does, within them. -/
structure GrowsWithin (settings : Settings) (usage usage' : UsageTable) (scope : Scope) :
    Prop where
  ceilings : ceilings settings usage' scope = ceilings settings usage scope
  bytes : RisesWithin (MediaService.ceilings settings usage scope).1 (usageTotals usage scope).1
    (usageTotals usage' scope).1
  objects : RisesWithin (MediaService.ceilings settings usage scope).2
    (usageTotals usage scope).2 (usageTotals usage' scope).2

theorem GrowsWithin.refl (settings : Settings) (usage : UsageTable) (scope : Scope) :
    GrowsWithin settings usage usage scope :=
  ⟨rfl, .refl _ _, .refl _ _⟩

theorem GrowsWithin.of_eq (h : usage' = usage) : GrowsWithin settings usage usage' scope := by
  rw [h]
  exact .refl settings usage scope

theorem GrowsWithin.trans (h : GrowsWithin settings usage usage' scope)
    (h' : GrowsWithin settings usage' usage'' scope) :
    GrowsWithin settings usage usage'' scope :=
  ⟨h'.ceilings.trans h.ceilings, h.bytes.trans (h.ceilings ▸ h'.bytes),
    h.objects.trans (h.ceilings ▸ h'.objects)⟩

/-! ### Writes of usage rows -/

/-- A row that is not there yet has the ceilings of no row. -/
theorem ceilings_getOrCreateUsage (settings : Settings) (usage : UsageTable) (scope : Scope)
    (now : Timestamp) :
    (effectiveQuotaBytes settings (some (getOrCreateUsage usage scope now)),
      effectiveQuotaObjects settings (some (getOrCreateUsage usage scope now))) =
      ceilings settings usage scope := by
  unfold getOrCreateUsage ceilings
  cases usage.find scope <;> rfl

/-- A row is put that has its scope's overrides and totals that rise within the ceilings. -/
theorem growsWithin_put {scope' : Scope} {now : Timestamp} {row : StorageUsage}
    (hscope : row.scope = scope') (hbytes : row.quotaBytes =
      (getOrCreateUsage usage scope' now).quotaBytes)
    (hobjects : row.quotaObjects = (getOrCreateUsage usage scope' now).quotaObjects)
    (hrises : RisesWithin (ceilings settings usage scope').1 (usageTotals usage scope').1
      row.totalBytes)
    (hrises' : RisesWithin (ceilings settings usage scope').2 (usageTotals usage scope').2
      row.objectCount) :
    GrowsWithin settings usage (usage.put row) scope := by
  have htotals := usageTotals_put usage row scope
  by_cases hs : scope = scope'
  · subst hs
    rw [if_pos hscope.symm] at htotals
    refine ⟨?_, htotals ▸ hrises, htotals ▸ hrises'⟩
    rw [← ceilings_getOrCreateUsage settings usage scope now, ceilings, Table.find_put,
      if_pos hscope.symm]
    simp only [effectiveQuotaBytes, effectiveQuotaObjects, Option.bind_some, hbytes, hobjects]
  · rw [hscope, if_neg hs] at htotals
    refine ⟨?_, htotals ▸ .refl _ _, htotals ▸ .refl _ _⟩
    rw [ceilings, ceilings, Table.find_put, hscope, if_neg hs]

theorem growsWithin_getOrCreateUsage (settings : Settings) (usage : UsageTable)
    (scope scope' : Scope) (now : Timestamp) :
    GrowsWithin settings usage (usage.put (getOrCreateUsage usage scope' now)) scope := by
  have htotals := totals_getOrCreateUsage usage scope' now
  refine growsWithin_put (scope_getOrCreateUsage usage scope' now) rfl rfl ?_ ?_
  · rw [← htotals]
    exact .refl _ _
  · rw [← htotals]
    exact .refl _ _

theorem growsWithin_recordObjectRemoved (settings : Settings) (usage : UsageTable)
    (scope scope' : Scope) (n : ℕ) (now : Timestamp) :
    GrowsWithin settings usage (recordObjectRemoved usage scope' n now) scope := by
  have htotals := totals_getOrCreateUsage usage scope' now
  refine growsWithin_put ((scope_debit _ n now).trans (scope_getOrCreateUsage usage scope' now))
    rfl rfl ?_ ?_
  · rw [← htotals]
    exact .debit _ _ n
  · rw [← htotals]
    exact .debit _ _ 1

/-- What is granted fits. -/
theorem within_of_reserveRefusal {row : StorageUsage} {n : ℕ}
    (h : reserveRefusal settings row n = none) :
    exceeds (effectiveQuotaBytes settings (some row)) (row.totalBytes + n) = false ∧
      exceeds (effectiveQuotaObjects settings (some row)) (row.objectCount + 1) = false := by
  unfold reserveRefusal at h
  split at h
  · cases h
  · rename_i hbytes
    split at h
    · cases h
    · rename_i hobjects
      exact ⟨eq_false_of_ne_true hbytes, eq_false_of_ne_true hobjects⟩

theorem growsWithin_reserveStorageForObject (settings : Settings) (usage : UsageTable)
    (scope scope' : Scope) (n : ℕ) (now : Timestamp) :
    GrowsWithin settings usage
      (reserveStorageForObject settings usage scope' n now).1 scope := by
  unfold reserveStorageForObject
  dsimp only
  split
  · exact growsWithin_getOrCreateUsage settings usage scope scope' now
  · rename_i hgranted
    obtain ⟨hbytes, hobjects⟩ := within_of_reserveRefusal hgranted
    have hceilings := ceilings_getOrCreateUsage settings usage scope' now
    refine growsWithin_put ((scope_credit _ n now).trans (scope_getOrCreateUsage usage scope' now))
      rfl rfl ?_ ?_
    · rw [← hceilings]
      exact .inr hbytes
    · rw [← hceilings]
      exact .inr hobjects

/-! ### Requests -/

theorem usage_rejectUpload (b : Backend) (usage : UsageTable) (faults : Faults) (now : Timestamp)
    (s : UploadSession) (reason : UploadRejectReason) (size : ℕ) :
    (rejectUpload b usage faults now s reason size).1.db.usage = b.db.usage ∨
      (rejectUpload b usage faults now s reason size).1.db.usage = usage := by
  unfold rejectUpload
  split
  · exact .inl rfl
  · rename_i db hins
    obtain ⟨-, t, -, rfl⟩ := Database.insertObject_ok hins
    exact .inr rfl

theorem usage_promoteUpload (b : Backend) (usage : UsageTable) (now : Timestamp)
    (s : UploadSession) (size : ℕ) (sha256 : Option String) (categories : List Category) :
    (promoteUpload b usage now s size sha256 categories).1.db.usage = b.db.usage ∨
      (promoteUpload b usage now s size sha256 categories).1.db.usage = usage := by
  unfold promoteUpload
  dsimp only
  split
  · exact .inl rfl
  · rename_i db hins
    obtain ⟨-, t, -, rfl⟩ := Database.insertObject_ok hins
    exact .inr rfl

/-- A completion leaves usage as it was, or reserves the actual size. -/
theorem usage_completeSession (b : Backend) (faults : Faults) (now : Timestamp)
    (s : UploadSession) (sha256 : Option String) (categories : List Category) :
    (completeSession env b faults now s sha256 categories).1.db.usage = b.db.usage ∨
      ∃ size, (completeSession env b faults now s sha256 categories).1.db.usage =
        (reserveStorageForObject env.settings b.db.usage s.scope size now).1 := by
  have hreject : ∀ reason size,
      (rejectUpload b b.db.usage faults now s reason size).1.db.usage = b.db.usage :=
    fun reason size => (usage_rejectUpload b b.db.usage faults now s reason size).elim id id
  unfold completeSession
  split
  · exact .inl rfl
  · rename_i size hstat
    split
    · exact .inl (hreject _ _)
    · dsimp only
      split
      · exact .inl (hreject _ _)
      · split
        · exact .inl rfl
        · exact .inl (hreject _ _)
        · split
          · exact .inl rfl
          · rename_i storage hct
            split
            · rename_i usage reason hres
              have hcases := usage_rejectUpload { b with storage := storage } usage faults now s
                reason size
              exact hcases.imp_right fun h => ⟨size, h.trans (congrArg Prod.fst hres).symm⟩
            · rename_i usage hres
              have hcases := usage_promoteUpload { b with storage := storage } usage now s size
                sha256 categories
              exact hcases.imp_right fun h => ⟨size, h.trans (congrArg Prod.fst hres).symm⟩

theorem growsWithin_completeUpload (env : Env) (b : Backend) (faults : Faults) (now : Timestamp)
    (user : UserModel) (sessionId : UUID) (req : UploadCompleteRequest) (scope : Scope) :
    GrowsWithin env.settings b.db.usage
      (completeUpload env b faults now user sessionId req).1.db.usage scope := by
  rcases completeUpload_cases env b faults now user sessionId req with
    ⟨_, _, he⟩ | ⟨s, -, -, -, _, _, he⟩ | ⟨_, _, -, he⟩ | ⟨s, categories, -, -, -, -, he⟩
  · exact .of_eq (he ▸ rfl)
  · exact .of_eq (he ▸ rfl)
  · exact .of_eq (he ▸ rfl)
  · rw [he]
    rcases usage_completeSession b faults now s req.sha256 categories with h | ⟨size, h⟩
    · exact .of_eq h
    · rw [h]
      exact growsWithin_reserveStorageForObject env.settings b.db.usage scope s.scope size now

theorem usage_fileInto (db : Database) (now : Timestamp) (o : MediaObject)
    (categories : List Category) : (fileInto db now o categories).usage = db.usage := by
  unfold fileInto
  dsimp only
  split <;> rfl

theorem growsWithin_recordAndComplete (env : Env) (b : Backend) (ctx : RowContext)
    (user : UserModel) (entry : ImportObjectEntry) (staged : StagedUpload)
    (req : UploadInitiateRequest) (categories : List Category) (paths : List String)
    (scope : Scope) :
    GrowsWithin env.settings b.db.usage
      (recordAndComplete env b ctx user entry staged req categories paths).1.db.usage scope := by
  unfold recordAndComplete
  dsimp only
  split
  · exact .refl env.settings b.db.usage scope
  · rename_i db hrec
    obtain ⟨-, t, -, rfl⟩ := Database.insertSession_ok hrec
    have hgrows := growsWithin_completeUpload env
      { b with db := { b.db with sessions := t } } ctx.faults ctx.completedAt user
      staged.mediaId ⟨entry.sha256, some (categories.map Category.id)⟩ scope
    generalize completeUpload env { b with db := { b.db with sessions := t } } ctx.faults
      ctx.completedAt user staged.mediaId
      ⟨entry.sha256, some (categories.map Category.id)⟩ = r at hgrows ⊢
    obtain ⟨b', e | o⟩ := r
    · cases e <;> exact hgrows
    · exact hgrows

theorem growsWithin_importOneFile (env : Env) (b : Backend) (ctx : RowContext)
    (user : UserModel) (info : Option ZipInfo) (entry : ImportObjectEntry)
    (categories : List Category) (paths : List String) (scope : Scope) :
    GrowsWithin env.settings b.db.usage
      (importOneFile env b ctx user info entry categories paths).1.db.usage scope := by
  rcases importOneFile_cases env b ctx user info entry categories paths with
    ⟨_, _, _, he⟩ | ⟨_, -, he⟩ | ⟨o, -, he⟩ |
    ⟨zip, req, staged, -, -, -, ⟨_, _, _, he⟩ | ⟨data, st, -, he⟩⟩
  · exact .of_eq (he ▸ rfl)
  · exact .of_eq (he ▸ rfl)
  · rw [he]
    exact .of_eq (usage_fileInto b.db ctx.recordedAt o categories)
  · exact .of_eq (he ▸ rfl)
  · rw [he]
    exact growsWithin_recordAndComplete env { b with storage := st } ctx user entry staged req
      categories paths scope

theorem growsWithin_importManifestEntry (settings : Settings) (b : Backend) (ctx : RowContext)
    (user : UserModel) (entry : ImportObjectEntry) (categories : List Category)
    (paths : List String) (scope : Scope) :
    GrowsWithin settings b.db.usage
      (importManifestEntry b ctx user entry categories paths).1.db.usage scope := by
  unfold importManifestEntry
  split
  · exact .refl _ _ _
  · exact .refl _ _ _
  · rename_i o _
    exact .of_eq (usage_fileInto b.db ctx.recordedAt o categories)

/-- Every row of an import grows the scope within its ceilings, and so does the import. -/
theorem growsWithin_runImport (env : Env) (b : Backend) (ctx : ℕ → RowContext)
    (user : UserModel) (source : ImportSource) (scope : Scope) :
    GrowsWithin env.settings b.db.usage (runImport env b ctx user source).1.db.usage scope := by
  refine runImport_inv
    (I := fun b' : Backend => GrowsWithin env.settings b.db.usage b'.db.usage scope)
    (.refl _ _ _) (.of_eq ?_) fun _ _ i b' entry _ categories paths _ hb =>
      ⟨hb.trans (growsWithin_importManifestEntry env.settings b' (ctx i) user entry categories
        paths scope), fun info => hb.trans ?_⟩
  · obtain ⟨categories, seq, links, hdb⟩ :=
      onlyCategories_recreateTree env b.db user source.document
    have husage := congrArg Database.usage hdb
    exact husage
  · exact growsWithin_importOneFile env b' (ctx i) user info entry categories paths scope

/-- The request sets the scope's own quota. -/
def Request.SetsQuota (scope : Scope) : Request → Prop
  | .setQuota _ scope' _ => scope' = scope
  | _ => False

theorem growsWithin_serve (w : World) {r : Request} (h : ¬ r.SetsQuota scope) :
    GrowsWithin env.settings w.backend.db.usage (serve env w r).backend.db.usage scope := by
  rw [serve_backend]
  have hframe := writesOnly_answer env w r .usage
  cases r with
  | complete faults now user sessionId body =>
    exact growsWithin_completeUpload env w.backend faults now user sessionId body scope
  | delete faults commitFails now user objectId =>
    simp only [answer]
    rcases deleteObject_cases env w.backend faults commitFails now user objectId with
      he | ⟨o, st, bucket, -, -, -, ⟨e, he⟩ | ⟨db', -, hcommit, he⟩⟩
    · exact .of_eq (congrArg (fun b : Backend => b.db.usage) he)
    · exact .of_eq (congrArg (fun r : Backend × Except Failure Unit => r.1.db.usage) he)
    · rw [he]
      obtain ⟨outbox, rfl⟩ := softDeletedDatabase_ok hcommit
      exact growsWithin_recordObjectRemoved env.settings w.backend.db.usage scope o.scope
        o.sizeBytes now
  | getQuota now scope' =>
    exact growsWithin_getOrCreateUsage env.settings w.backend.db.usage scope scope' now
  | setQuota now scope' body =>
    have hne : scope ≠ scope' := fun he => h he.symm
    have hfind : (setQuota w.backend.db scope' now body).1.usage.find scope =
        w.backend.db.usage.find scope := by
      refine (Table.find_put w.backend.db.usage _ scope).trans (if_neg ?_)
      exact fun he => hne (he.trans (scope_getOrCreateUsage w.backend.db.usage scope' now))
    have htotals : usageTotals (setQuota w.backend.db scope' now body).1.usage scope =
        usageTotals w.backend.db.usage scope := by
      unfold usageTotals
      rw [hfind]
    refine ⟨?_, htotals ▸ .refl _ _, htotals ▸ .refl _ _⟩
    exact congrArg (fun row => (effectiveQuotaBytes env.settings row,
      effectiveQuotaObjects env.settings row)) hfind
  | importCollection ctx user source =>
    exact growsWithin_runImport env w.backend ctx user source scope
  | _ => exact .of_eq (hframe (by simp [Request.tables]))

/-- From any state, through any run that does not set the scope's own quota, its ceilings stay
as they are and its totals grow, if at all, within them. -/
theorem quotaCeilings_run (env : Env) (w : World) (rs : List Request) (scope : Scope)
    (h : ∀ r ∈ rs, ¬ r.SetsQuota scope) :
    GrowsWithin env.settings w.backend.db.usage (run (serve env) w rs).backend.db.usage scope := by
  induction rs generalizing w with
  | nil => exact .refl env.settings w.backend.db.usage scope
  | cons r rs ih =>
    have hstep := @growsWithin_serve env scope w r (h r List.mem_cons_self)
    exact hstep.trans (ih _ fun r' hr' => h r' (List.mem_cons_of_mem r hr'))

/-- A quota of ten bytes, and an upload that fits under it. -/
theorem quotaCeilings_run_upload :
    GrowsWithin Env.default.settings
      (run (serve Env.default) World.initial
        [.setQuota 0 ⟨⟨1⟩, none⟩ ⟨some (some 10), none⟩]).backend.db.usage
      (run (serve Env.default)
        (run (serve Env.default) World.initial [.setQuota 0 ⟨⟨1⟩, none⟩ ⟨some (some 10), none⟩])
        (uploadRequests Env.default 0 ⟨2⟩ (.ordinary 1) .private pngSignature)).backend.db.usage
      ⟨⟨1⟩, none⟩ := by
  refine quotaCeilings_run Env.default _ _ ⟨⟨1⟩, none⟩ fun r hr => ?_
  simp only [uploadRequests, List.mem_cons, List.not_mem_nil, or_false] at hr
  rcases hr with rfl | rfl | rfl <;> exact id

end MediaService
