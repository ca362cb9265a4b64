import MediaService.Lifecycle.Completion
import MediaService.Lifecycle.Service

/-! What rows say of their files. A name is checked wherever one enters, and a content
type wherever one is declared, so every session and every object has a portable name,
or none, and an allowed type. An import would take such a name as it is. -/

namespace MediaService

open Foundation

variable {env : Env} {f : String}

/-! ### Names -/

/-- What is documented of `unicodedata`: parts of normalised text are normalised, ASCII
text is, and no printable ASCII character is a control character. -/
structure NameLaws (env : Env) : Prop where
  nfc_infix : ∀ s t, t.toList <:+: (env.nfc s).toList → env.nfc t = t
  nfc_ascii : ∀ s, (∀ c ∈ s.toList, c.toNat < 128) → env.nfc s = s
  printable : ∀ c : Char, 0x20 ≤ c.toNat → c.toNat < 0x7f → env.isOtherCategory c = false

/-- A name that passed the check. -/
def PortableName (env : Env) (f : String) : Prop := ∃ value, validateFilename env value = some f

theorem strip_strip (s : String) : strip (strip s) = strip s := by
  rw [← String.toList_inj, toList_strip (strip s), toList_strip, trim_trim]

theorem infix_strip (s : String) : (strip s).toList <:+: s.toList := by
  rw [toList_strip]
  exact infix_trim isSpace s.toList

theorem validateFilename_eq_some {value : String} :
    validateFilename env value = some f ↔ f = strip (env.nfc value) ∧ isDots f = false ∧
      f.length ≤ maxFilenameLength ∧ f.toList.any (isForbiddenFilenameChar env) = false := by
  unfold validateFilename
  dsimp only
  constructor
  · intro h
    split at h
    · cases h
    · rename_i hdots
      split at h
      · cases h
      · rename_i hlen
        split at h
        · cases h
        · rename_i hchars
          cases h
          exact ⟨rfl, Bool.not_eq_true _ ▸ hdots, not_lt.mp hlen, Bool.not_eq_true _ ▸ hchars⟩
  · rintro ⟨rfl, hdots, hlen, hchars⟩
    rw [hdots, if_neg Bool.false_ne_true, if_neg (by omega), hchars, if_neg Bool.false_ne_true]

/-- A name that passed the check passes it again, unchanged. -/
theorem PortableName.validated (hnames : NameLaws env) (hf : PortableName env f) :
    validateFilename env f = some f := by
  obtain ⟨value, hvalue⟩ := hf
  obtain ⟨hstrip, hrest⟩ := validateFilename_eq_some.mp hvalue
  refine validateFilename_eq_some.mpr ⟨?_, hrest⟩
  rw [hnames.nfc_infix value f (hstrip ▸ infix_strip _), hstrip, strip_strip]

theorem not_forbidden {c : Char} (h : f.toList.any (isForbiddenFilenameChar env) = false)
    (hc : c ∈ f.toList) : isForbiddenFilenameChar env c = false := by
  simpa using List.any_eq_false.mp h c hc

/-- Sanitising leaves a name that passed the check alone. -/
theorem PortableName.sanitized (hnames : NameLaws env) (hf : PortableName env f) :
    sanitizeFilename env (some f) = f := by
  obtain ⟨hstrip, hdots, hlen, hchars⟩ := validateFilename_eq_some.mp (hf.validated hnames)
  obtain ⟨value, hvalue⟩ := hf
  have hnfc : env.nfc f = f :=
    hnames.nfc_infix value f ((validateFilename_eq_some.mp hvalue).1 ▸ infix_strip _)
  rw [hnfc] at hstrip
  have hsep : ∀ c ∈ f.toList, c ≠ '\\' ∧ c ≠ '/' := by
    intro c hc
    have hallowed := not_forbidden hchars hc
    constructor <;> rintro rfl <;>
      simp [isForbiddenFilenameChar, forbiddenFilenameChars] at hallowed
  have hreplace : replaceChar '\\' '/' f = f := by
    rw [replaceChar, List.map_congr_left fun c hc => if_neg (hsep c hc).1, List.map_id',
      String.ofList_toList]
  have hlast : lastSegment f = f := by
    rw [lastSegment, List.rtakeWhile_eq_self_iff.mpr fun c hc => by simpa using (hsep c hc).2,
      String.ofList_toList]
  have hmap : String.ofList
      (f.toList.map fun c => if isForbiddenFilenameChar env c then '_' else c) = f := by
    rw [List.map_congr_left fun c hc => if_neg (by rw [not_forbidden hchars hc]; simp),
      List.map_id', String.ofList_toList]
  have htake : String.ofList (f.toList.take maxFilenameLength) = f := by
    rw [List.take_of_length_le (by rwa [String.length_toList]), String.ofList_toList]
  unfold sanitizeFilename
  dsimp only
  rw [Option.getD_some, hnfc, ← hstrip, hreplace, hlast, hmap, ← hstrip, htake, ← hstrip, hdots]
  rfl

/-- The name an imported object has. -/
def importedName (name : Option String) : String := name.getD fallbackFilename

theorem portable_fallback (hnames : NameLaws env) : PortableName env fallbackFilename := by
  refine ⟨fallbackFilename, validateFilename_eq_some.mpr ⟨?_, by decide, by decide, ?_⟩⟩
  · have hascii : (fallbackFilename.toList.all fun c => decide (c.toNat < 128)) = true := by decide
    rw [hnames.nfc_ascii _ fun c hc => of_decide_eq_true (List.all_eq_true.mp hascii c hc)]
    decide
  · have hplain : (fallbackFilename.toList.all fun c => decide (0x20 ≤ c.toNat ∧ c.toNat < 0x7f ∧
        c ∉ forbiddenFilenameChars)) = true := by decide
    rw [List.any_eq_false]
    intro c hc
    obtain ⟨hlow, hhigh, hallowed⟩ := of_decide_eq_true (List.all_eq_true.mp hplain c hc)
    simp [isForbiddenFilenameChar, hallowed, hnames.printable c hlow hhigh]

/-- A missing name becomes the fallback. -/
theorem sanitize_none (hnames : NameLaws env) : sanitizeFilename env none = fallbackFilename := by
  have hempty : env.nfc "" = "" := hnames.nfc_ascii "" (by simp)
  unfold sanitizeFilename
  rw [Option.getD_none, hempty]
  simp [strip, replaceChar, lastSegment, isDots]

/-- What an import makes of the name of an object. -/
theorem validate_sanitize (hnames : NameLaws env) {name : Option String}
    (hname : ∀ f, name = some f → PortableName env f) :
    validateFilename env (sanitizeFilename env name) = some (importedName name) := by
  cases name with
  | none =>
    rw [sanitize_none hnames]
    exact (portable_fallback hnames).validated hnames
  | some f =>
    rw [(hname f rfl).sanitized hnames]
    exact (hname f rfl).validated hnames

/-! ### Rows -/

variable {b : Backend} {w : World}

def MediaObject.Declared (env : Env) (o : MediaObject) : Prop :=
  (∀ f, o.originalFilename = some f → PortableName env f) ∧
    isAllowedDeclaredMime o.mimeType = true

def UploadSession.Declared (env : Env) (s : UploadSession) : Prop :=
  (∀ f, s.originalFilename = some f → PortableName env f) ∧
    isAllowedDeclaredMime s.expectedMimeType = true

/-- Every row says of its file what passed the checks. -/
structure DeclaredRows (env : Env) (db : Database) : Prop where
  objects : ∀ o ∈ db.objects, o.Declared env
  sessions : ∀ s ∈ db.sessions, s.Declared env

theorem declaredRows_empty (env : Env) : DeclaredRows env Database.empty where
  objects _ ho := absurd ho (Table.not_mem_empty _)
  sessions _ hs := absurd hs (Table.not_mem_empty _)

theorem DeclaredRows.same {db db' : Database} (h : DeclaredRows env db)
    (hs : SameUploads db db') : DeclaredRows env db' where
  objects := hs.1 ▸ h.objects
  sessions := hs.2 ▸ h.sessions

/-- A row written over one that is there. -/
theorem DeclaredRows.updateObject {db : Database} (h : DeclaredRows env db) {o o' : MediaObject}
    (ho : o ∈ db.objects) (hid : o'.id = o.id) (ho' : o'.Declared env) :
    ∀ q ∈ db.objects.update o', q.Declared env :=
  Table.forall_update h.objects ho' (by rw [hid, Table.find_of_mem ho])

/-- A session that is checked before it is recorded. -/
theorem declared_stagedSession {db : Database} {user : UserModel} {body req : UploadInitiateRequest}
    {mediaId : UUID} {staged : StagedUpload} (hreq : body.validated env = some req)
    (hstage : stageUpload env db user req mediaId = .ok staged) (now expiresAt : Timestamp) :
    (stagedSession staged req now expiresAt).Declared env := by
  constructor
  · rintro f hf
    cases hf
    obtain ⟨name, hname, rfl⟩ := UploadInitiateRequest.validated_eq_some hreq
    exact ⟨_, hname⟩
  · unfold stageUpload at hstage
    by_cases hm : isAllowedDeclaredMime req.mimeType = true
    · exact hm
    · simp [hm, refuse, bind, Except.bind] at hstage

theorem DeclaredRows.completeUpload (h : DeclaredRows env b.db) (faults : Faults)
    (now : Timestamp) (user : UserModel) (sessionId : UUID) (req : UploadCompleteRequest) :
    DeclaredRows env (completeUpload env b faults now user sessionId req).1.db := by
  have hends := ends_completeUpload env b faults now user sessionId req
  generalize MediaService.completeUpload env b faults now user sessionId req = r at hends ⊢
  have hsession : ∀ {s s' : UploadSession}, loadOwnedSession b.db user sessionId = .ok s →
      s'.id = s.id → s'.Declared env → ∀ q ∈ b.db.sessions.update s', q.Declared env := by
    intro s s' hload hid hs'
    exact Table.forall_update h.sessions hs' (by rw [hid, (loadOwnedSession_ok hload).1])
  have hdeclared : ∀ {s : UploadSession}, loadOwnedSession b.db user sessionId = .ok s →
      s.Declared env := fun hload => h.sessions _ (Table.mem_of_find (loadOwnedSession_ok hload).1)
  cases hends with
  | refused _ _ hdb =>
    rcases hdb with rfl | ⟨s, hload, -, -, rfl⟩
    · exact h
    · have hs : s.Declared env := hdeclared hload
      exact ⟨h.objects, hsession hload rfl hs⟩
  | @rejected s _ size t _ _ hload _ _ ht _ _ =>
    have hs : s.Declared env := hdeclared hload
    have ho : (sessionObject s s.expectedMimeType size none .rejected now).Declared env := hs
    exact ⟨Table.forall_insert h.objects ho ht, hsession hload rfl hs⟩
  | @promoted s _ size sha256 t _ _ hload _ _ _ _ _ ht _ _ =>
    have hs : s.Declared env := hdeclared hload
    have ho : (sessionObject s s.expectedMimeType size sha256 .uploaded now).Declared env := hs
    exact ⟨Table.forall_insert h.objects ho ht, hsession hload rfl hs⟩

theorem DeclaredRows.fileInto {db : Database} (h : DeclaredRows env db) {o : MediaObject}
    (ho : o ∈ db.objects) (now : Timestamp) (categories : List Category) :
    DeclaredRows env (fileInto db now o categories) := by
  unfold MediaService.fileInto
  dsimp only
  split
  · exact h
  · exact ⟨h.updateObject ho rfl (h.objects o ho), h.sessions⟩

theorem DeclaredRows.importManifestEntry (h : DeclaredRows env b.db) (ctx : RowContext)
    (user : UserModel) (entry : ImportObjectEntry) (categories : List Category)
    (paths : List String) :
    DeclaredRows env (importManifestEntry b ctx user entry categories paths).1.db := by
  unfold MediaService.importManifestEntry
  split
  · exact h
  · exact h
  · rename_i o hmatch
    exact h.fileInto (importableMatch_eq_some hmatch).1 _ _

theorem DeclaredRows.importOneFile (h : DeclaredRows env b.db) (ctx : RowContext)
    (user : UserModel) (info : Option ZipInfo) (entry : ImportObjectEntry)
    (categories : List Category) (paths : List String) :
    DeclaredRows env (importOneFile env b ctx user info entry categories paths).1.db := by
  have hcomplete : ∀ st {body req staged}, UploadInitiateRequest.validated env body = some req →
      stageUpload env b.db user req entry.id = .ok staged → DeclaredRows env
        (recordAndComplete env ⟨b.db, st⟩ ctx user entry staged req categories paths).1.db := by
    intro st body req staged hreq hstage
    unfold recordAndComplete
    dsimp only
    split
    · exact h
    · rename_i db hrec
      obtain ⟨-, t, ht, rfl⟩ := Database.insertSession_ok hrec
      have hrecorded : DeclaredRows env { b.db with sessions := t } :=
        ⟨h.objects, Table.forall_insert h.sessions (declared_stagedSession hreq hstage _ _) ht⟩
      have hc := DeclaredRows.completeUpload (b := ⟨{ b.db with sessions := t }, st⟩) hrecorded
        ctx.faults ctx.completedAt user staged.mediaId
        ⟨entry.sha256, some (categories.map Category.id)⟩
      split <;> rename_i he <;> rw [he] at hc <;> exact hc
  rcases importOneFile_cases env b ctx user info entry categories paths with
    ⟨_, _, _, he⟩ | ⟨_, -, he⟩ | ⟨o, hmatch, he⟩ |
      ⟨_, req, staged, -, hreq, hstage, ⟨_, _, _, he⟩ | ⟨_, st, -, he⟩⟩
  · rw [he]
    exact h
  · rw [he]
    exact h
  · rw [he]
    exact h.fileInto (importableMatch_eq_some hmatch).1 _ _
  · rw [he]
    exact h
  · rw [he]
    exact hcomplete st hreq hstage

theorem DeclaredRows.runImport (h : DeclaredRows env b.db) (ctx : ℕ → RowContext)
    (user : UserModel) (source : ImportSource) :
    DeclaredRows env (runImport env b ctx user source).1.db := by
  have htree : SameUploads b.db (recreateTree env b.db user source.document).1 := by
    obtain ⟨_, _, _, he⟩ := onlyCategories_recreateTree env b.db user source.document
    rw [he]
    exact ⟨rfl, rfl⟩
  refine runImport_inv (I := fun b' : Backend => DeclaredRows env b'.db) h (h.same htree)
    fun _ _ i b' entry _ categories paths _ hb => ⟨?_, fun info => ?_⟩
  · exact hb.importManifestEntry (ctx i) user entry categories paths
  · exact hb.importOneFile (ctx i) user info entry categories paths

/-- A patch sets a name that was checked, or none. -/
theorem DeclaredRows.update (h : DeclaredRows env b.db) (faults : Faults) (commitFails : Bool)
    (now : Timestamp) (user : UserModel) (objectId : UUID) (body : MediaObjectUpdate) :
    DeclaredRows env (MediaService.updateObject env b faults commitFails now user objectId
      body).1.db := by
  rcases updateObject_cases env b faults commitFails now user objectId body with
    ⟨e, st, he, -⟩ | ⟨u, o, st, bucket, categories, db', o', hu, hload, -, -, hpatch, he⟩
  · rw [he]
    exact h
  · obtain ⟨⟨v, c, -, ho'⟩, links, rfl⟩ := patchedDatabase_ok hpatch
    obtain ⟨ho, -, -⟩ := loadObject_ok hload
    have hold := h.objects o ho
    rw [he]
    refine ⟨h.updateObject ho (by rw [ho']) ⟨fun f hf => ?_, by rw [ho']; exact hold.2⟩, h.sessions⟩
    rw [ho'] at hf
    obtain ⟨name, rfl, hname⟩ := MediaObjectUpdate.eq_of_validated hu
    cases name with
    | none => exact hold.1 f hf
    | some sent => exact hname f (congrArg some hf)

theorem DeclaredRows.purgeObjects (h : DeclaredRows env b.db) (faults : Faults)
    (os : List MediaObject) : DeclaredRows env (os.foldl (purgeObject faults) b).db := by
  induction os generalizing b with
  | nil => exact h
  | cons o os ih =>
    refine ih ⟨fun q hq => h.objects q (mem_objects_purgeObject hq), ?_⟩
    unfold purgeObject
    split
    · exact h.sessions
    · exact h.sessions

/-! ### Runs -/

theorem DeclaredRows.serve (h : DeclaredRows env w.backend.db) (r : Request) :
    DeclaredRows env (serve env w r).backend.db := by
  rw [serve_backend]
  cases r with
  | initiate faults now mediaId user body =>
    simp only [answer]
    cases hi : initiateUpload env w.backend.db faults now mediaId user body with
    | error e => exact h
    | ok res =>
      obtain ⟨req, staged, hreq, hstage, -, hrec⟩ := initiateUpload_ok hi
      obtain ⟨-, t, ht, he⟩ := Database.insertSession_ok hrec
      show DeclaredRows env res.1
      rw [he]
      exact ⟨h.objects, Table.forall_insert h.sessions (declared_stagedSession hreq hstage _ _) ht⟩
  | complete faults now user sessionId body => exact h.completeUpload faults now user sessionId body
  | abort faults user sessionId =>
    simp only [answer, abortUpload]
    split
    · exact h
    · rename_i s hload
      split
      · exact h
      · have hfind := (loadOwnedSession_ok hload).1
        exact ⟨h.objects, Table.forall_update h.sessions
          (h.sessions s (Table.mem_of_find hfind)) hfind⟩
  | purgeStale faults now =>
    refine ⟨h.objects, fun s hs => ?_⟩
    have hs : s ∈ w.backend.db.sessions.mapRows (expireStale now) (id_expireStale now) := hs
    obtain ⟨q, hq, rfl⟩ := Table.mem_mapRows.mp hs
    unfold expireStale
    split
    · exact h.sessions q hq
    · exact h.sessions q hq
  | update faults commitFails now user objectId body =>
    exact h.update faults commitFails now user objectId body
  | delete faults commitFails now user objectId =>
    rcases deleteObject_cases env w.backend faults commitFails now user objectId with
      he | ⟨o, st, bucket, hload, -, -, ⟨e, he⟩ | ⟨db', -, hcommit, he⟩⟩
    · simp only [answer, he]
      exact h
    · simp only [answer, he]
      exact h
    · simp only [answer, he]
      obtain ⟨outbox, rfl⟩ := softDeletedDatabase_ok hcommit
      have ho := (loadObject_ok hload).1
      exact ⟨h.updateObject ho rfl (h.objects o ho), h.sessions⟩
  | scanResult now objectId scanStatus =>
    simp only [answer]
    cases hscan : applyScanResult w.backend.db now objectId scanStatus with
    | error e => exact h
    | ok res =>
      obtain ⟨db', o'⟩ := res
      obtain ⟨o, ho, -, hrow, outbox, rfl⟩ := applyScanResult_ok hscan
      rcases hrow with ⟨-, rfl⟩ | ⟨-, rfl⟩ <;>
        exact ⟨h.updateObject ho rfl (h.objects o ho), h.sessions⟩
  | hardPurge faults now olderThan limit => exact h.purgeObjects faults _
  | importCollection ctx user source => exact h.runImport ctx user source
  | _ => exact h.same (uploads_answer rfl)

theorem declaredRows_run (env : Env) (rs : List Request) :
    DeclaredRows env (run (MediaService.serve env) World.initial rs).backend.db :=
  (always_of_inv (I := fun w : World => DeclaredRows env w.backend.db) (fun _ r hw => hw.serve r)
    (declaredRows_empty env) rs).last

end MediaService
