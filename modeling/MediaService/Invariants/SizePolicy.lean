import MediaService.Lifecycle.Completion
import MediaService.Lifecycle.Service
import MediaService.Scenario

/-! The size cap of a category along a run. Completions and imports check the size of
an object against the category it has at that moment; a patch of the category checks
nothing, and neither does a verdict that readies a rejected row. So every live object is
within the cap of its category exactly if no such request lets one past it. -/

namespace MediaService

open Foundation

variable {env : Env} {b : Backend} {w : World}

/-- Live, unless rejected, no larger than its category allows. -/
def MediaObject.WithinCap (settings : Settings) (o : MediaObject) : Prop :=
  o.deletedAt = none → o.status ≠ .rejected →
    o.sizeBytes ≤ maxSizeForCategory settings o.category.str

def SizePolicy (settings : Settings) (objects : Table MediaObject.id) : Prop :=
  ∀ o ∈ objects, o.WithinCap settings

/-! ### Writes -/

section Writes

variable {settings : Settings} {t t' : Table MediaObject.id} {o o' : MediaObject}

theorem SizePolicy.insert (h : SizePolicy settings t) (ho : o.WithinCap settings)
    (ht : t.insert o = some t') : SizePolicy settings t' :=
  Table.forall_insert h ho ht

theorem SizePolicy.update (h : SizePolicy settings t) (ho : o ∈ t) (hid : o'.id = o.id)
    (ho' : o'.WithinCap settings) : SizePolicy settings (t.update o') :=
  Table.forall_update h ho' (by rw [hid, Table.find_of_mem ho])

/-- A row that is rewritten is judged by what is written. -/
theorem withinCap_of_update (h : SizePolicy settings (t.update o')) (ho : o ∈ t)
    (hid : o'.id = o.id) : o'.WithinCap settings :=
  h o' (Table.mem_of_find (Table.find_update_self (by rw [hid]; exact Table.find_of_mem ho)))

end Writes

/-! ### Completions and imports -/

theorem SizePolicy.completeUpload (h : SizePolicy env.settings b.db.objects) (faults : Faults)
    (now : Timestamp) (user : UserModel) (sessionId : UUID) (req : UploadCompleteRequest) :
    SizePolicy env.settings (completeUpload env b faults now user sessionId req).1.db.objects := by
  have hends := ends_completeUpload env b faults now user sessionId req
  generalize MediaService.completeUpload env b faults now user sessionId req = r at hends ⊢
  cases hends with
  | refused _ _ hdb =>
    rcases hdb with rfl | ⟨s, -, -, -, rfl⟩
    · exact h
    · exact h
  | rejected _ _ _ ht _ _ => exact h.insert (fun _ hne => absurd rfl hne) ht
  | promoted _ _ _ _ hcap _ ht _ _ => exact h.insert (fun _ _ => hcap) ht

theorem SizePolicy.fileInto {db : Database} (h : SizePolicy env.settings db.objects)
    {o : MediaObject} (ho : o ∈ db.objects) (now : Timestamp) (categories : List Category) :
    SizePolicy env.settings (fileInto db now o categories).objects := by
  unfold MediaService.fileInto
  dsimp only
  split
  · exact h
  · exact h.update ho rfl (h o ho)

theorem SizePolicy.importManifestEntry (h : SizePolicy env.settings b.db.objects)
    (ctx : RowContext) (user : UserModel) (entry : ImportObjectEntry)
    (categories : List Category) (paths : List String) :
    SizePolicy env.settings
      (importManifestEntry b ctx user entry categories paths).1.db.objects := by
  unfold MediaService.importManifestEntry
  split
  · exact h
  · exact h
  · rename_i o hmatch
    exact h.fileInto (importableMatch_eq_some hmatch).1 _ _

theorem SizePolicy.importOneFile (h : SizePolicy env.settings b.db.objects) (ctx : RowContext)
    (user : UserModel) (info : Option ZipInfo) (entry : ImportObjectEntry)
    (categories : List Category) (paths : List String) :
    SizePolicy env.settings
      (importOneFile env b ctx user info entry categories paths).1.db.objects := by
  have hcomplete : ∀ st staged req, SizePolicy env.settings (recordAndComplete env ⟨b.db, st⟩ ctx
      user entry staged req categories paths).1.db.objects := by
    intro st staged req
    unfold recordAndComplete
    dsimp only
    split
    · exact h
    · rename_i db hrec
      obtain ⟨-, t, -, rfl⟩ := Database.insertSession_ok hrec
      have hc := SizePolicy.completeUpload (b := ⟨{ b.db with sessions := t }, st⟩) h ctx.faults
        ctx.completedAt user staged.mediaId ⟨entry.sha256, some (categories.map Category.id)⟩
      split <;> rename_i he <;> rw [he] at hc <;> exact hc
  rcases importOneFile_cases env b ctx user info entry categories paths with
    ⟨_, _, _, he⟩ | ⟨_, -, he⟩ | ⟨o, hmatch, he⟩ |
      ⟨_, req, staged, -, -, -, ⟨_, _, _, he⟩ | ⟨_, st, -, he⟩⟩
  · rw [he]
    exact h
  · rw [he]
    exact h
  · rw [he]
    exact h.fileInto (importableMatch_eq_some hmatch).1 _ _
  · rw [he]
    exact h
  · rw [he]
    exact hcomplete st staged req

theorem SizePolicy.runImport (h : SizePolicy env.settings b.db.objects) (ctx : ℕ → RowContext)
    (user : UserModel) (source : ImportSource) :
    SizePolicy env.settings (runImport env b ctx user source).1.db.objects := by
  have htree : (recreateTree env b.db user source.document).1.objects = b.db.objects := by
    obtain ⟨_, _, _, he⟩ := onlyCategories_recreateTree env b.db user source.document
    rw [he]
  refine runImport_inv (I := fun b' : Backend => SizePolicy env.settings b'.db.objects) h
    (by rw [htree]; exact h) fun _ _ i b' entry _ categories paths _ hb => ⟨?_, fun info => ?_⟩
  · exact hb.importManifestEntry (ctx i) user entry categories paths
  · exact hb.importOneFile (ctx i) user info entry categories paths

/-! ### Patches, verdicts and deletions -/

/-- A patch of the category, or a verdict that readies a rejected row, lets no object
past the cap of its category. -/
def KeepsCap (env : Env) (w : World) : Request → Prop
  | .update faults commitFails now user objectId body =>
    (∃ o', (updateObject env w.backend faults commitFails now user objectId body).2 = .ok o') →
      ∀ c, body.category = some (some c) → ∀ o ∈ w.backend.db.objects, o.id = objectId →
        ({ o with category := c } : MediaObject).WithinCap env.settings
  | .scanResult _ objectId scanStatus => scanStatus = .clean →
      ∀ o ∈ w.backend.db.objects, o.id = objectId →
        ({ o with status := .ready } : MediaObject).WithinCap env.settings
  | _ => True

/-- What a patch leaves of the row, for the cap. -/
theorem patchedDatabase_cap {db db' : Database} {now : Timestamp} {u : MediaObjectUpdate}
    {o o' : MediaObject} {bucket : Option String} {categories : Option (List Category)}
    (h : patchedDatabase db now u o bucket categories = .ok (db', o')) :
    u.category.getD (some o.category) = some o'.category ∧ o'.id = o.id ∧
      (o'.WithinCap env.settings ↔
        ({ o with category := o'.category } : MediaObject).WithinCap env.settings) := by
  have happly := (patchedDatabase_eq_ok h).1
  unfold MediaObjectUpdate.apply at happly
  split at happly
  · rename_i v c _ hc
    cases happly
    exact ⟨hc, rfl, Iff.rfl⟩
  · cases happly

theorem sizePolicy_update_iff (h : SizePolicy env.settings w.backend.db.objects) (faults : Faults)
    (commitFails : Bool) (now : Timestamp) (user : UserModel) (objectId : UUID)
    (body : MediaObjectUpdate) :
    SizePolicy env.settings
        (updateObject env w.backend faults commitFails now user objectId body).1.db.objects ↔
      KeepsCap env w (.update faults commitFails now user objectId body) := by
  simp only [KeepsCap]
  rcases updateObject_cases env w.backend faults commitFails now user objectId body with
    ⟨e, st, he, -⟩ | ⟨u, o, st, bucket, categories, db', o', hu, hload, -, -, hpatch, he⟩
  · rw [he]
    refine iff_of_true h ?_
    rintro ⟨o', hok⟩
    cases hok
  · obtain ⟨hcategory, hid, hcap⟩ := patchedDatabase_cap hpatch
    obtain ⟨-, links, rfl⟩ := patchedDatabase_ok hpatch
    obtain ⟨ho, hoid, -⟩ := loadObject_ok hload
    obtain ⟨name, rfl, -⟩ := MediaObjectUpdate.eq_of_validated hu
    dsimp only at hcategory
    rw [he]
    constructor
    · rintro hafter - c hc q hq hqid
      obtain rfl := Table.eq_of_key_eq hq ho (hqid.trans hoid.symm)
      rw [hc] at hcategory
      obtain rfl : c = o'.category := Option.some.inj hcategory
      exact hcap.mp (withinCap_of_update hafter ho hid)
    · intro hkeeps
      refine h.update ho hid (hcap.mpr ?_)
      cases hbody : body.category with
      | none =>
        rw [hbody] at hcategory
        rw [← Option.some.inj hcategory]
        exact h o ho
      | some c =>
        rw [hbody] at hcategory
        exact hkeeps ⟨o', rfl⟩ o'.category (hbody.trans (congrArg some hcategory)) o ho hoid

theorem sizePolicy_scanResult_iff (hk : WellKept env w.backend.holdings)
    (h : SizePolicy env.settings w.backend.db.objects) (now : Timestamp) (objectId : UUID)
    (scanStatus : ScanStatus) :
    SizePolicy env.settings (answer env w (.scanResult now objectId scanStatus)).db.objects ↔
      KeepsCap env w (.scanResult now objectId scanStatus) := by
  simp only [answer]
  cases hscan : applyScanResult w.backend.db now objectId scanStatus with
  | error e =>
    refine iff_of_true h ?_
    rintro - o ho rfl
    obtain ⟨db', o', hok⟩ := applyScanResult_eq_ok hk ho now scanStatus
    cases hok.symm.trans hscan
  | ok res =>
    obtain ⟨db', o'⟩ := res
    obtain ⟨o, ho, rfl, hrow, outbox, rfl⟩ := applyScanResult_ok hscan
    change SizePolicy env.settings (w.backend.db.objects.update o') ↔ _
    rcases hrow with ⟨rfl, rfl⟩ | ⟨hne, rfl⟩
    · constructor
      · rintro hafter - q hq hid
        obtain rfl := Table.eq_of_key_eq hq ho hid
        exact (withinCap_of_update hafter ho rfl :)
      · exact fun hkeeps => h.update ho rfl (hkeeps rfl o ho rfl)
    · exact iff_of_true (h.update ho rfl (h o ho)) fun hclean => absurd hclean hne

theorem SizePolicy.deleteObject (h : SizePolicy env.settings b.db.objects) (faults : Faults)
    (commitFails : Bool) (now : Timestamp) (user : UserModel) (objectId : UUID) :
    SizePolicy env.settings
      (deleteObject env b faults commitFails now user objectId).1.db.objects := by
  rcases deleteObject_cases env b faults commitFails now user objectId with
    he | ⟨o, st, bucket, hload, -, -, ⟨e, he⟩ | ⟨db', -, hcommit, he⟩⟩
  · rw [he]
    exact h
  · rw [he]
    exact h
  · rw [he]
    obtain ⟨outbox, rfl⟩ := softDeletedDatabase_ok hcommit
    exact h.update (loadObject_ok hload).1 rfl fun hlive => by cases hlive

theorem SizePolicy.purgeObjects (h : SizePolicy env.settings b.db.objects) (faults : Faults)
    (os : List MediaObject) :
    SizePolicy env.settings (os.foldl (purgeObject faults) b).db.objects := by
  induction os generalizing b with
  | nil => exact h
  | cons o os ih => exact ih fun q hq => h q (mem_objects_purgeObject hq)

/-! ### Runs -/

/-- The requests that write object rows. -/
def Request.writesObjects : Request → Bool
  | .complete .. | .update .. | .delete .. | .scanResult .. | .hardPurge .. |
    .importCollection .. => true
  | _ => false

/-- The other requests leave the rows alone. -/
theorem objects_answer {r : Request} (hr : r.writesObjects = false) :
    (answer env w r).db.objects = w.backend.db.objects := by
  cases r with
  | complete | update | delete | scanResult | hardPurge | importCollection => cases hr
  | purgeStale => rfl
  | initiate faults now mediaId user body =>
    simp only [answer]
    cases h : initiateUpload env w.backend.db faults now mediaId user body with
    | error e => rfl
    | ok res =>
      obtain ⟨req, staged, -, -, -, hrec⟩ := initiateUpload_ok h
      obtain ⟨-, t, -, he⟩ := Database.insertSession_ok hrec
      show res.1.objects = w.backend.db.objects
      rw [he]
  | abort faults user sessionId =>
    simp only [answer, abortUpload]
    split
    · rfl
    · split <;> rfl
  | _ => exact (uploads_answer rfl).1

/-- A request keeps the policy exactly if it keeps to the cap. -/
theorem sizePolicy_serve_iff (hw : WorldInv env w)
    (h : SizePolicy env.settings w.backend.db.objects) (r : Request) :
    SizePolicy env.settings (serve env w r).backend.db.objects ↔ KeepsCap env w r := by
  rw [serve_backend]
  cases hr : r.writesObjects with
  | false =>
    rw [objects_answer hr]
    cases r with
    | update | scanResult => cases hr
    | _ => exact iff_of_true h trivial
  | true =>
    cases r with
    | complete faults now user sessionId body =>
      exact iff_of_true (h.completeUpload faults now user sessionId body) trivial
    | update faults commitFails now user objectId body =>
      exact sizePolicy_update_iff h faults commitFails now user objectId body
    | delete faults commitFails now user objectId =>
      exact iff_of_true (h.deleteObject faults commitFails now user objectId) trivial
    | scanResult now objectId scanStatus =>
      exact sizePolicy_scanResult_iff hw.kept h now objectId scanStatus
    | hardPurge faults now olderThan limit =>
      exact iff_of_true (h.purgeObjects faults _) trivial
    | importCollection ctx user source => exact iff_of_true (h.runImport ctx user source) trivial
    | _ => cases hr

/-- Every live object stays within the cap of its category, unless rejected, exactly if
no patch and no verdict lets one past it. -/
theorem sizePolicy_iff (env : Env) (rs : List Request) :
    Always (serve env) (fun w => SizePolicy env.settings w.backend.db.objects) World.initial rs ↔
      Guarded (serve env) (KeepsCap env) World.initial rs :=
  always_iff_guarded (I := WorldInv env) (A := fun _ _ => True)
    (fun _ r hw _ _ _ => hw.serve r) (fun _ r hw hP _ => sizePolicy_serve_iff hw hP r)
    (worldInv_initial env) (fun _ ho => absurd ho (Table.not_mem_empty _))
    (guarded_of_forall (fun _ _ _ => trivial) _)

/-- Avatars are smaller than a signature. -/
def Env.smallAvatars : Env :=
  .ascii { Settings.default with mediaMaxUploadSizeBytesPerCategory := [("avatar", 1)] }

/-- An asset of four bytes is made an avatar. -/
def becomesAvatar : List Request :=
  uploadRequests Env.smallAvatars 0 ⟨2⟩ (.ordinary 1) .private pngSignature ++
    [.update Faults.none false 1 (.ordinary 1) ⟨2⟩ ⟨none, none, some (some .avatar), none⟩]

theorem not_sizePolicy : ¬ Always (serve Env.smallAvatars)
    (fun w => SizePolicy Env.smallAvatars.settings w.backend.db.objects) World.initial
    becomesAvatar := by
  intro h
  have hrow : ∃ o ∈ (run (serve Env.smallAvatars) World.initial becomesAvatar).backend.db.objects,
      o.deletedAt = none ∧ o.status ≠ .rejected ∧
        ¬ o.sizeBytes ≤ maxSizeForCategory Env.smallAvatars.settings o.category.str := by
    decide +kernel
  obtain ⟨o, ho, hlive, hst, hcap⟩ := hrow
  exact hcap (h.last o ho hlive hst)

end MediaService
