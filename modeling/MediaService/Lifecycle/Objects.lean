import MediaService.Controllers.Maintenance
import MediaService.Controllers.Variants
import MediaService.Lifecycle.Uploads

/-! The writes on existing objects make only moves of the lifecycle: a patch or a
soft delete copies the bytes before its commit and removes the source after it,
a purge and a sweep remove bytes that nothing held needs, and a worker's
registration adds a variant row. -/

namespace MediaService

open Foundation

variable {env : Env}

/-! ### Relocation -/

/-- The bytes of an object were copied to another bucket, or nothing happened. -/
def Relocates (st : Storage) (faults : Faults) (o : MediaObject) (st' : Storage) :
    Option String → Prop
  | none => st' = st
  | some bucket => bucket ≠ o.storageBucket ∧
      st.copyObject faults o.location ⟨bucket, o.objectKey⟩ = some st'

theorem relocates_of_relocateForVisibility {settings : Settings} {st st' : Storage}
    {faults : Faults} {o : MediaObject} {v : Option MediaVisibility} {bucket : Option String}
    (h : relocateForVisibility settings st faults o v = .ok (st', bucket)) :
    Relocates st faults o st' bucket := by
  unfold relocateForVisibility at h
  split at h
  · cases h
    rfl
  · dsimp only at h
    split at h
    · cases h
      rfl
    · rename_i hne
      split at h
      · exact absurd h refuse_ne_ok
      · rename_i hcopy
        cases h
        exact ⟨fun he => hne (.inr he), hcopy⟩

theorem relocates_of_archiveDeletedBytes (settings : Settings) (st : Storage) (faults : Faults)
    (o : MediaObject) : Relocates st faults o (archiveDeletedBytes settings st faults o).1
      (archiveDeletedBytes settings st faults o).2 := by
  unfold archiveDeletedBytes
  dsimp only
  split
  · rfl
  · rename_i hne
    split
    · rfl
    · rename_i hcopy
      exact ⟨fun he => hne he.symm, hcopy⟩

/-- Where an object's bytes are after it was relocated. -/
def relocated (o : MediaObject) (bucket : Option String) : Location :=
  ⟨bucket.getD o.storageBucket, o.objectKey⟩

/-- No object is where another bucket would hold this one. -/
theorem location_ne_of_bucket_ne {h : Holdings} (hk : WellKept env h) {o : MediaObject}
    (ho : o ∈ h.objects) {bucket : String} (hne : bucket ≠ o.storageBucket) :
    ∀ q ∈ h.objects, q.location ≠ ⟨bucket, o.objectKey⟩ := by
  intro q hq hl
  have hid := hk.id_eq_of_key_eq hq ho (congrArg Location.objectKey hl)
  obtain rfl := Table.eq_of_key_eq hq ho hid
  exact hne (congrArg Location.bucket hl).symm

theorem copyObject_content {st st' : Storage} {faults : Faults} {src dest : Location}
    (h : st.copyObject faults src dest = some st') :
    ∃ c ct, st.content src = some c ∧ st' = st.put ⟨dest, c, ct⟩ := by
  unfold Storage.copyObject at h
  split at h
  · cases h
  · obtain ⟨o, ho, rfl⟩ := Option.map_eq_some_iff.mp h
    exact ⟨o.content, o.contentType, by simp [Storage.content, ho], rfl⟩

/-- A relocation stores the object's bytes where no object is, and leaves the
object's own bytes alone. -/
theorem movesTo_relocates {b : Backend} (hk : WellKept env b.holdings) {faults : Faults}
    {o : MediaObject} (ho : o ∈ b.db.objects) {st : Storage} {bucket : Option String}
    (hr : Relocates b.storage faults o st bucket) :
    MovesTo env Move.Routine b.holdings ({ b with storage := st } : Backend).holdings ∧
      st.content (relocated o bucket) = st.content o.location := by
  cases bucket with
  | none =>
    obtain rfl : st = b.storage := hr
    exact ⟨.refl _, rfl⟩
  | some bucket =>
    obtain ⟨hne, hcopy⟩ := hr
    have hcontent := Storage.find_copyObject hcopy
    obtain ⟨c, ct, -, rfl⟩ := copyObject_content hcopy
    refine ⟨movesTo_put b c ct (location_ne_of_bucket_ne hk ho hne), ?_⟩
    have hloc : o.location ≠ ⟨bucket, o.objectKey⟩ := location_ne_of_bucket_ne hk ho hne o ho
    have hnew : relocated o (some bucket) = ⟨bucket, o.objectKey⟩ := rfl
    rw [hcontent, hcontent, if_pos hnew, if_neg hloc]

/-! ### Patch -/

theorem MediaObjectUpdate.apply_eq_some {u : MediaObjectUpdate} {o o' : MediaObject}
    (h : u.apply o = some o') :
    ∃ v c, u.visibility.getD (some o.visibility) = some v ∧
      o' = { o with
        visibility := v
        category := c
        originalFilename := u.originalFilename.getD o.originalFilename } := by
  unfold MediaObjectUpdate.apply at h
  split at h
  · rename_i v c hv hc
    exact ⟨v, c, hv, (Option.some.inj h).symm⟩
  · cases h

theorem patchedDatabase_eq_ok {db db' : Database} {now : Timestamp} {u : MediaObjectUpdate}
    {o o' : MediaObject} {bucket : Option String} {categories : Option (List Category)}
    (h : patchedDatabase db now u o bucket categories = .ok (db', o')) :
    u.apply { o with storageBucket := bucket.getD o.storageBucket, updatedAt := now } = some o' ∧
      db' = categories.elim ({ db with objects := db.objects.update o' } : Database) fun cs =>
        ({ db with objects := db.objects.update o' } : Database).setFiling o.id
          (cs.map Category.id) := by
  unfold patchedDatabase at h
  split at h
  · cases h
  · rename_i o₁ happly
    split at h
    · cases h
    · rename_i db₁ hupd
      obtain ⟨-, rfl⟩ := Database.updateObject_ok hupd
      split at h
      · cases h
        exact ⟨happly, rfl⟩
      · cases h
        exact ⟨happly, rfl⟩

theorem patchedDatabase_ok {db db' : Database} {now : Timestamp} {u : MediaObjectUpdate}
    {o o' : MediaObject} {bucket : Option String} {categories : Option (List Category)}
    (h : patchedDatabase db now u o bucket categories = .ok (db', o')) :
    (∃ v c, u.visibility.getD (some o.visibility) = some v ∧
      o' = { o with
        visibility := v
        category := c
        originalFilename := u.originalFilename.getD o.originalFilename
        storageBucket := bucket.getD o.storageBucket
        updatedAt := now }) ∧
    ∃ links, db' = { db with objects := db.objects.update o', links := links } := by
  obtain ⟨happly, rfl⟩ := patchedDatabase_eq_ok h
  obtain ⟨v, c, hv, rfl⟩ := MediaObjectUpdate.apply_eq_some happly
  refine ⟨⟨v, c, hv, rfl⟩, ?_⟩
  cases categories with
  | none => exact ⟨_, rfl⟩
  | some cs => exact ⟨_, rfl⟩

/-- Once its row points elsewhere, nothing is held at an object's old location. -/
theorem not_holds_after_update {h h' : Holdings} (hk : WellKept env h) {o o' : MediaObject}
    (ho : o ∈ h.objects) (hid : o'.id = o.id) (hobj : h'.objects = h.objects.update o')
    (haway : o'.deletedAt.isSome ∨ o'.location ≠ o.location) :
    ∀ q, h'.Holds q → q.location ≠ o.location := by
  rintro q ⟨hq, hlive, -⟩ hl
  rw [hobj] at hq
  rcases (Table.mem_update (by rw [hid, Table.find_of_mem ho])).mp hq with rfl | ⟨hq, hne⟩
  · rcases haway with hdel | haway
    · simp [hlive] at hdel
    · exact haway hl
  · exact hne ((hk.id_eq_of_key_eq hq ho (congrArg Location.objectKey hl)).trans hid.symm)

theorem loadObject_ok {db : Database} {user : UserModel} {id : UUID} {includeDeleted : Bool}
    {o : MediaObject} (h : loadObject db user id includeDeleted = .ok o) :
    o ∈ db.objects ∧ o.id = id ∧ (includeDeleted = false → o.deletedAt = none) ∧
      (user.isSuperuser ∨ o.ownerUserId = user.id) := by
  unfold loadObject fetchObject at h
  cases hf : db.objects.find id with
  | none => simp [hf, refuse] at h
  | some q =>
    simp only [hf] at h
    split at h
    · cases h
    · rename_i q' hq'
      split at hq'
      · exact absurd hq' refuse_ne_ok
      · rename_i hdel
        cases hq'
        split at h
        · exact absurd h refuse_ne_ok
        · rename_i howner
          cases h
          refine ⟨Table.mem_of_find hf, Table.key_of_find hf, ?_, ?_⟩
          · rintro rfl
            simpa using hdel
          · by_cases hsu : user.isSuperuser = true
            · exact .inl hsu
            · exact .inr (by_contra fun hne => howner ⟨by simpa using hsu, hne⟩)

/-- The source of a relocation after its commit. -/
def releaseSource (st : Storage) (faults : Faults) (o : MediaObject) : Option String → Storage
  | none => st
  | some _ => st.bestEffortRemove faults o.location

/-- An accepted body is the body sent, up to a filename that was checked. -/
theorem MediaObjectUpdate.eq_of_validated {body u : MediaObjectUpdate}
    (h : body.validated env = some u) :
    ∃ name, u = { body with originalFilename := name } ∧
      ∀ f, name = some (some f) → ∃ sent, validateFilename env sent = some f := by
  unfold MediaObjectUpdate.validated at h
  split at h
  · cases h
  · split at h
    · rename_i sent _
      obtain ⟨checked, hchecked, rfl⟩ := Option.map_eq_some_iff.mp h
      refine ⟨_, rfl, fun f hf => ⟨sent, ?_⟩⟩
      cases hf
      exact hchecked
    · rename_i hunnamed
      cases h
      exact ⟨_, rfl, fun f hf => absurd hf (hunnamed f)⟩

/-- An update that is refused leaves the rows alone and at most a removed copy
behind; one that is accepted has patched a live object of the caller's. -/
theorem updateObject_cases (env : Env) (b : Backend) (faults : Faults) (commitFails : Bool)
    (now : Timestamp) (user : UserModel) (objectId : UUID) (body : MediaObjectUpdate) :
    (∃ e st, updateObject env b faults commitFails now user objectId body = (⟨b.db, st⟩, .error e) ∧
      (st = b.storage ∨ ∃ o st₁ bucket, o ∈ b.db.objects ∧
        Relocates b.storage faults o st₁ (some bucket) ∧
        st = st₁.bestEffortRemove faults ⟨bucket, o.objectKey⟩)) ∨
    ∃ u o st bucket categories db' o', body.validated env = some u ∧
      loadObject b.db user objectId false = .ok o ∧ updateCategories b.db user u = .ok categories ∧
      Relocates b.storage faults o st bucket ∧
      patchedDatabase b.db now u o bucket categories = .ok (db', o') ∧
      updateObject env b faults commitFails now user objectId body =
        (⟨db', releaseSource st faults o bucket⟩, .ok o') := by
  unfold updateObject
  split
  · exact .inl ⟨_, _, rfl, .inl rfl⟩
  · rename_i u hu
    split
    · exact .inl ⟨_, _, rfl, .inl rfl⟩
    · rename_i o hload
      split
      · exact .inl ⟨_, _, rfl, .inl rfl⟩
      · rename_i categories hcategories
        split
        · exact .inl ⟨_, _, rfl, .inl rfl⟩
        · rename_i st bucket hrel
          have hrel := relocates_of_relocateForVisibility hrel
          split
          · split
            · exact .inl ⟨_, _, rfl, .inl hrel⟩
            · exact .inl ⟨_, _, rfl, .inr ⟨o, st, _, (loadObject_ok hload).1, hrel, rfl⟩⟩
          · rename_i db' o' hcommit
            split at hcommit
            · cases hcommit
            · right
              refine ⟨u, o, st, bucket, categories, db', o', hu, hload, hcategories, hrel, hcommit,
                ?_⟩
              cases bucket <;> rfl

theorem movesTo_updateObject {b : Backend} (hk : WellKept env b.holdings) (faults : Faults)
    (commitFails : Bool) (now : Timestamp) (user : UserModel) (objectId : UUID)
    (body : MediaObjectUpdate) :
    MovesTo env
      (fun m => m.Routine ∨ ∃ o o', o.id = objectId ∧ m = .patched o o' ∧
        (updateObject env b faults commitFails now user objectId body).2 = .ok o')
      b.holdings (updateObject env b faults commitFails now user objectId body).1.holdings := by
  rcases updateObject_cases env b faults commitFails now user objectId body with
    ⟨e, st, he, hst⟩ | ⟨u, o, st, bucket, categories, db', o', -, hload, -, hrel, hpatch, he⟩
  · rw [he]
    refine MovesTo.mono (C := Move.Routine) (fun _ => Or.inl) ?_
    rcases hst with rfl | ⟨o, st₁, bucket, ho, hrel, rfl⟩
    · exact .refl _
    · have hmove := (movesTo_relocates hk ho hrel).1
      refine hmove.trans (movesTo_bestEffortRemove ⟨b.db, st₁⟩ faults ?_)
      exact fun q hq => location_ne_of_bucket_ne hk ho hrel.1 q hq.1
  · rw [he]
    obtain ⟨ho, hid, hlive, -⟩ := loadObject_ok hload
    obtain ⟨hmove, hsame⟩ := movesTo_relocates hk ho hrel
    obtain ⟨⟨v, c, -, hpatched⟩, links, rfl⟩ := patchedDatabase_ok hpatch
    have hid' : o'.id = o.id := by rw [hpatched]
    have hloc : o'.location = relocated o bucket := by rw [hpatched]; rfl
    let b₁ : Backend := ⟨b.db, st⟩
    let b₂ : Backend := ⟨{ b.db with objects := b.db.objects.update o', links := links }, st⟩
    have hupd : Moves env (.patched o o') b₁.holdings b₂.holdings :=
      .patched (h := b₁.holdings) ho (hlive rfl) hpatched (by rw [hloc]; exact hsame)
    refine (hmove.mono fun _ => Or.inl).trans
      ((MovesTo.single (.inr ⟨o, o', hid, rfl, rfl⟩) hupd).trans ?_)
    cases bucket with
    | none => exact .refl _
    | some bucket =>
      refine MovesTo.mono (fun _ => Or.inl) (movesTo_bestEffortRemove b₂ faults ?_)
      refine not_holds_after_update hk ho hid' rfl (.inr ?_)
      rw [hloc]
      exact fun he => hrel.1 (congrArg Location.bucket he)

/-! ### Verdicts -/

/-- No constraint stands in the way of rewriting a row under its own key. -/
theorem updateObject_eq_ok {b : Backend} (hk : WellKept env b.holdings) {o o' : MediaObject}
    (ho : o ∈ b.db.objects) (hid : o'.id = o.id) (hkey : o'.objectKey = o.objectKey) :
    b.db.updateObject o' = .ok { b.db with objects := b.db.objects.update o' } := by
  have hfree : b.db.locationTaken o' = false := by
    rw [Database.locationTaken_eq_false]
    intro q hq hne hl
    refine hne ((hk.id_eq_of_key_eq hq ho ?_).trans hid.symm)
    rw [← hkey]
    exact congrArg Location.objectKey hl
  rw [Database.updateObject, hfree]
  rfl

theorem applyScanResult_ok {db db' : Database} {now : Timestamp} {objectId : UUID}
    {scanStatus : ScanStatus} {o' : MediaObject}
    (h : applyScanResult db now objectId scanStatus = .ok (db', o')) :
    ∃ o ∈ db.objects, o.id = objectId ∧
      (scanStatus = .clean ∧
          o' = { o with scanStatus := .clean, status := .ready, updatedAt := now } ∨
        scanStatus ≠ .clean ∧ o' = { o with scanStatus := .quarantined, updatedAt := now }) ∧
      ∃ outbox, db' = { db with objects := db.objects.update o', outbox := outbox } := by
  unfold applyScanResult fetchObject at h
  cases hf : db.objects.find objectId with
  | none => simp [hf, refuse] at h
  | some o =>
    simp only [hf, Bool.not_true, Bool.false_eq_true, false_and, ↓reduceIte] at h
    refine ⟨o, Table.mem_of_find hf, Table.key_of_find hf, ?_⟩
    split at h
    · rename_i hclean
      split at h
      · cases h
      · rename_i db₁ hupd
        cases h
        obtain ⟨-, rfl⟩ := Database.updateObject_ok hupd
        exact ⟨.inl ⟨hclean, rfl⟩, _, rfl⟩
    · rename_i hclean
      split at h
      · cases h
      · rename_i db₁ hupd
        cases h
        obtain ⟨-, rfl⟩ := Database.updateObject_ok hupd
        exact ⟨.inr ⟨hclean, rfl⟩, _, rfl⟩

/-- A verdict on a stored row always goes through. -/
theorem applyScanResult_eq_ok {b : Backend} (hk : WellKept env b.holdings) {o : MediaObject}
    (ho : o ∈ b.db.objects) (now : Timestamp) (scanStatus : ScanStatus) :
    ∃ db' o', applyScanResult b.db now o.id scanStatus = .ok (db', o') := by
  have hfetch : fetchObject b.db o.id true = .ok o := by
    rw [fetchObject, Table.find_of_mem ho]
    rfl
  have hupd : ∀ status scan, ∃ db', b.db.updateObject { o with
      status := status
      scanStatus := scan
      updatedAt := now } = .ok db' :=
    fun _ _ => ⟨_, updateObject_eq_ok hk ho rfl rfl⟩
  unfold applyScanResult
  simp only [hfetch]
  split
  · obtain ⟨db', h⟩ := hupd .ready .clean
    rw [h]
    exact ⟨_, _, rfl⟩
  · obtain ⟨db', h⟩ := hupd o.status .quarantined
    rw [h]
    exact ⟨_, _, rfl⟩

theorem movesTo_applyScanResult {b : Backend} {db' : Database} {now : Timestamp} {objectId : UUID}
    {scanStatus : ScanStatus} {o' : MediaObject}
    (h : applyScanResult b.db now objectId scanStatus = .ok (db', o')) :
    MovesTo env
      (fun m => ∃ o, o.id = objectId ∧ m = .judged o o' ∧
        (scanStatus = .clean ∧ o'.status = .ready ∧ o'.scanStatus = .clean ∨
          scanStatus ≠ .clean ∧ o'.status = o.status ∧ o'.scanStatus = .quarantined))
      b.holdings ({ b with db := db' } : Backend).holdings := by
  obtain ⟨o, ho, hid, hor, outbox, rfl⟩ := applyScanResult_ok h
  refine .single (m := .judged o o') ⟨o, hid, rfl, ?_⟩ ?_
  · rcases hor with ⟨hc, rfl⟩ | ⟨hc, rfl⟩
    · exact .inl ⟨hc, rfl, rfl⟩
    · exact .inr ⟨hc, rfl, rfl⟩
  · exact .judged (h := b.holdings) ho (hor.imp And.right And.right)

/-! ### Soft delete -/

theorem softDeletedDatabase_ok {db db' : Database} {now : Timestamp} {o : MediaObject}
    {bucket : Option String} (h : softDeletedDatabase db now o bucket = .ok db') :
    ∃ outbox, db' = { db with
      objects := db.objects.update { o with
        storageBucket := bucket.getD o.storageBucket
        deletedAt := some now
        status := .deleted
        updatedAt := now }
      usage := recordObjectRemoved db.usage o.scope o.sizeBytes now
      outbox := outbox } := by
  unfold softDeletedDatabase at h
  split at h
  · cases h
  · rename_i db₁ hupd
    obtain ⟨-, rfl⟩ := Database.updateObject_ok hupd
    cases h
    exact ⟨_, rfl⟩

/-- A delete that does anything has found a live object of the caller's. -/
theorem deleteObject_cases (env : Env) (b : Backend) (faults : Faults) (commitFails : Bool)
    (now : Timestamp) (user : UserModel) (objectId : UUID) :
    ((deleteObject env b faults commitFails now user objectId).1 = b) ∨
    ∃ o st bucket, loadObject b.db user objectId true = .ok o ∧ o.deletedAt = none ∧
      Relocates b.storage faults o st bucket ∧
      ((∃ e, deleteObject env b faults commitFails now user objectId = (⟨b.db, st⟩, .error e)) ∨
        ∃ db', commitFails = false ∧ softDeletedDatabase b.db now o bucket = .ok db' ∧
          deleteObject env b faults commitFails now user objectId =
            (⟨db', if bucket = none ∧ o.visibility ≠ .public then st
              else st.bestEffortRemove faults o.location⟩, .ok ())) := by
  unfold deleteObject
  split
  · exact .inl rfl
  · rename_i o hload
    split
    · exact .inl rfl
    · rename_i hlive
      have hrel := relocates_of_archiveDeletedBytes env.settings b.storage faults o
      right
      refine ⟨o, _, _, hload, by simpa using hlive, hrel, ?_⟩
      dsimp only
      split
      · exact .inl ⟨_, rfl⟩
      · rename_i db' hcommit
        split at hcommit
        · cases hcommit
        · rename_i hfails
          refine .inr ⟨db', by simpa using hfails, hcommit, ?_⟩
          split <;> rename_i hb
          · simp [hb]
          · by_cases hv : o.visibility = .public <;> simp [hb, hv]

/-- A delete by a caller entitled to it takes effect, unless its commit fails. -/
theorem deleteObject_effective {b : Backend} (hk : WellKept env b.holdings) (faults : Faults)
    (now : Timestamp) {user : UserModel} {objectId : UUID} {o : MediaObject}
    (hload : loadObject b.db user objectId true = .ok o) (hlive : o.deletedAt = none) :
    ∃ bucket db', softDeletedDatabase b.db now o bucket = .ok db' ∧
      (deleteObject env b faults false now user objectId).1.db = db' := by
  let bucket := (archiveDeletedBytes env.settings b.storage faults o).2
  let o' : MediaObject := { o with
    storageBucket := bucket.getD o.storageBucket
    deletedAt := some now
    status := .deleted
    updatedAt := now }
  have hupd : b.db.updateObject o' = .ok _ := updateObject_eq_ok hk (loadObject_ok hload).1 rfl rfl
  have hcommit : ∃ db', softDeletedDatabase b.db now o bucket = .ok db' := by
    rw [softDeletedDatabase, hupd]
    exact ⟨_, rfl⟩
  obtain ⟨db', hcommit⟩ := hcommit
  refine ⟨bucket, db', hcommit, ?_⟩
  simp only [deleteObject, hload, hlive, Option.isSome_none, Bool.false_eq_true, ↓reduceIte]
  rw [show softDeletedDatabase b.db now o (archiveDeletedBytes env.settings b.storage faults o).2 =
    .ok db' from hcommit]
  dsimp only
  split
  · rfl
  · split <;> rfl

theorem movesTo_deleteObject {b : Backend} (hk : WellKept env b.holdings) (faults : Faults)
    (commitFails : Bool) (now : Timestamp) (user : UserModel) (objectId : UUID) :
    MovesTo env
      (fun m => m.Routine ∨ ∃ o o', o.id = objectId ∧ m = .softDeleted o o' ∧
        loadObject b.db user objectId true = .ok o ∧ commitFails = false)
      b.holdings (deleteObject env b faults commitFails now user objectId).1.holdings := by
  rcases deleteObject_cases env b faults commitFails now user objectId with
    he | ⟨o, st, bucket, hload, hlive, hrel, ⟨e, he⟩ | ⟨db', hfails, hcommit, he⟩⟩
  · rw [he]
    exact .refl _
  · rw [he]
    exact (movesTo_relocates hk (loadObject_ok hload).1 hrel).1.mono fun _ => Or.inl
  · rw [he]
    obtain ⟨ho, hid, -, -⟩ := loadObject_ok hload
    have hmove := (movesTo_relocates hk ho hrel).1
    obtain ⟨outbox, rfl⟩ := softDeletedDatabase_ok hcommit
    let o' : MediaObject := { o with
      storageBucket := bucket.getD o.storageBucket
      deletedAt := some now
      status := .deleted
      updatedAt := now }
    let b₁ : Backend := ⟨b.db, st⟩
    let b₂ : Backend := ⟨{ b.db with
      objects := b.db.objects.update o'
      usage := recordObjectRemoved b.db.usage o.scope o.sizeBytes now
      outbox := outbox }, st⟩
    have htot : usageTotals (recordObjectRemoved b.db.usage o.scope o.sizeBytes now) =
        discharge (usageTotals b.db.usage) o :=
      funext (usageTotals_recordObjectRemoved _ _ _ _)
    have hdel : Moves env (.softDeleted o o') b₁.holdings b₂.holdings := by
      simp only [b₂, Backend.holdings, htot]
      exact .softDeleted (h := b₁.holdings) ho hlive rfl
    refine (hmove.mono fun _ => Or.inl).trans
      ((MovesTo.single (.inr ⟨o, o', hid, rfl, hload, hfails⟩) hdel).trans ?_)
    split
    · exact .refl _
    · refine MovesTo.mono (fun _ => Or.inl) (movesTo_bestEffortRemove b₂ faults ?_)
      exact @not_holds_after_update env b.holdings b₂.holdings hk o o' ho rfl rfl (.inl rfl)

/-! ### Hard purge -/

/-- Removing the bytes of variants, whose keys are no original's. -/
theorem movesTo_removeVariants {b : Backend} (hk : WellKept env b.holdings) (faults : Faults)
    (vs : List MediaVariant) (hvs : ∀ v ∈ vs, IsVariantKey env v.objectKey) :
    MovesTo env Move.Routine b.holdings ({ b with
      storage := vs.foldl (fun st v => st.bestEffortRemove faults v.location) b.storage } :
        Backend).holdings := by
  induction vs generalizing b with
  | nil => exact .refl _
  | cons v vs ih =>
    have hfree : ∀ o, b.holdings.Holds o → o.location ≠ v.location := fun o ho =>
      hk.location_ne_of_variantKey (l := v.location) (hvs v List.mem_cons_self) o ho.1
    have hremove := @movesTo_bestEffortRemove env b faults _ hfree
    exact hremove.trans (ih (hremove.wellKept hk) fun q hq => hvs q (List.mem_cons_of_mem _ hq))

/-- What a purge needs of a row it was given: its key is its own, and no live
row has its id. -/
def Purgeable (env : Env) (objects : Table MediaObject.id) (o : MediaObject) : Prop :=
  IsOriginalKey env o.scope o.id o.objectKey ∧ ∀ q ∈ objects, q.id = o.id → q.deletedAt.isSome

theorem movesTo_purgeObject {b : Backend} (hk : WellKept env b.holdings) (faults : Faults)
    {o : MediaObject} (ho : Purgeable env b.db.objects o) :
    MovesTo env Move.Routine b.holdings (purgeObject faults b o).holdings := by
  unfold purgeObject
  split
  · exact .refl _
  · dsimp only
    let b₁ : Backend := { b with storage := b.storage.bestEffortRemove faults o.location }
    have hremove : MovesTo env Move.Routine b.holdings b₁.holdings := by
      refine movesTo_bestEffortRemove b faults ?_
      rintro q ⟨hq, hlive, -⟩ hl
      have hkey : q.objectKey = o.objectKey := congrArg Location.objectKey hl
      have hid := (hk.object_key hq).id_eq (hkey ▸ ho.1)
      have := ho.2 q hq hid
      simp [hlive] at this
    have hvariants := movesTo_removeVariants (hremove.wellKept hk) faults (b.db.variantsOf o.id)
      fun v hv => hk.variant_key v (List.mem_filter.mp hv).1
    refine (hremove.trans hvariants).trans (.single (m := .purged o.id) trivial ?_)
    exact .purged (h := Backend.holdings ⟨b.db, _⟩) ho.2

theorem mem_objects_purgeObject {faults : Faults} {b : Backend} {o q : MediaObject}
    (hq : q ∈ (purgeObject faults b o).db.objects) : q ∈ b.db.objects := by
  unfold purgeObject at hq
  split at hq
  · exact hq
  · exact (Table.mem_erase.mp hq).1

theorem movesTo_purgeObjects {b : Backend} (hk : WellKept env b.holdings) (faults : Faults)
    (os : List MediaObject) (hos : ∀ o ∈ os, Purgeable env b.db.objects o) :
    MovesTo env Move.Routine b.holdings (os.foldl (purgeObject faults) b).holdings := by
  induction os generalizing b with
  | nil => exact .refl _
  | cons o os ih =>
    have hmove := movesTo_purgeObject hk faults (hos o List.mem_cons_self)
    refine hmove.trans (ih (hmove.wellKept hk) fun q hq => ?_)
    obtain ⟨hkey, hdel⟩ := hos q (List.mem_cons_of_mem _ hq)
    exact ⟨hkey, fun r hr => hdel r (mem_objects_purgeObject hr)⟩

theorem mem_purgeCandidates {db : Database} {cutoff : Timestamp} {limit : ℕ} {o : MediaObject}
    (h : o ∈ purgeCandidates db cutoff limit) : o ∈ db.objects ∧ isPurgeable cutoff o = true :=
  Table.mem_sorted.mp (List.mem_of_mem_take h)

theorem movesTo_hardPurgeExpired {b : Backend} (hk : WellKept env b.holdings) (faults : Faults)
    (now olderThan : ℤ) (limit : ℕ) :
    MovesTo env Move.Routine b.holdings
      (hardPurgeExpired b faults now olderThan limit).1.holdings := by
  refine movesTo_purgeObjects hk faults _ fun o ho => ?_
  obtain ⟨hmem, hp⟩ := mem_purgeCandidates ho
  refine ⟨hk.object_key hmem, fun q hq hid => ?_⟩
  obtain rfl := Table.eq_of_key_eq hq hmem hid
  simp only [isPurgeable, decide_eq_true_eq] at hp
  cases hdel : q.deletedAt with
  | none => simp [hdel] at hp
  | some _ => rfl

/-! ### Reconciliation -/

theorem location_ne_of_not_isClaimed {db : Database} {pending : List Location} {l : Location}
    (h : isClaimed db pending l = false) : l ∉ pending ∧ ∀ o ∈ db.objects, o.location ≠ l := by
  simp only [isClaimed, decide_eq_false_iff_not, not_or] at h
  refine ⟨h.1, fun o ho hl => h.2 ?_⟩
  rw [List.any_eq_true]
  exact ⟨o, ho, by simpa using hl⟩

theorem movesTo_sweepKeys (db : Database) (pending : List Location) (faults : Faults) (limit : ℕ)
    (repair : Bool) (bucket : String) (sw : Sweep) (keys : List String) :
    MovesTo env Move.Routine (Backend.holdings ⟨db, sw.storage⟩)
      (Backend.holdings
        ⟨db, (sweepKeys db pending faults limit repair bucket sw keys).storage⟩) := by
  induction keys generalizing sw with
  | nil => exact .refl _
  | cons key keys ih =>
    rw [sweepKeys]
    split
    · exact .refl _
    · split
      · exact ih sw
      · rename_i hclaim
        dsimp only
        split
        · refine MovesTo.trans ?_ (ih _)
          refine movesTo_bestEffortRemove ⟨db, sw.storage⟩ faults fun o ho => ?_
          exact (location_ne_of_not_isClaimed (by simpa using hclaim)).2 o ho.1
        · exact ih { sw with orphans := sw.orphans ++ [⟨⟨bucket, key⟩, none, none⟩] }

theorem movesTo_reconcileOrphans (b : Backend) (faults : Faults) (now : Timestamp)
    (buckets : List String) (grace : ℤ) (limit : ℕ) (repair : Bool) :
    MovesTo env Move.Routine b.holdings
      (reconcileOrphans env b faults now buckets grace limit repair).1.holdings := by
  have hfold : ∀ sw : Sweep, MovesTo env Move.Routine (Backend.holdings ⟨b.db, sw.storage⟩)
      (Backend.holdings ⟨b.db, (buckets.foldl (fun sw bucket => sweepKeys b.db
        (pendingKeys b.db now) faults limit repair bucket sw
          (sw.storage.listObjectKeys env bucket)) sw).storage⟩) := by
    induction buckets with
    | nil => exact fun sw => .refl _
    | cons bucket buckets ih => exact fun sw => (movesTo_sweepKeys _ _ _ _ _ _ _ _).trans (ih _)
  exact hfold ⟨b.storage, [], 0⟩

/-! ### Variants -/

/-- An accepted request enqueues one job for an object of the caller's: its outputs
are those the preset names resolve to. -/
theorem generateVariants_ok {db db' : Database} {now : Timestamp} {jobId : UUID}
    {user : UserModel} {objectId : UUID} {req : VariantGenerateRequest} {job : VariantJobPayload}
    (h : generateVariants env db now jobId user objectId req = .ok (db', job)) :
    (∃ t, db' = { db with variantJobs := t }) ∧
      ∃ o ∈ db.objects, o.id = objectId ∧ job.mediaObjectId = o.id ∧
        resolvePresets env db user req.names o = .ok job.specs := by
  unfold generateVariants at h
  split at h
  · cases h
  · rename_i o hload
    obtain ⟨ho, hid, -⟩ := loadObject_ok hload
    split at h
    · exact absurd h refuse_ne_ok
    · split at h
      · exact absurd h refuse_ne_ok
      · split at h
        · cases h
        · rename_i specs hspecs
          split at h
          · cases h
          · cases h
            exact ⟨⟨_, rfl⟩, o, ho, hid, rfl, hspecs⟩

/-- A registration rewrites the row of its name or inserts a new one, and stages its
event. -/
theorem registerVariant_cases {db db' : Database} {now : Timestamp} {freshId objectId : UUID}
    {req : VariantRegisterRequest} {v : MediaVariant}
    (h : registerVariant db now freshId objectId req = .ok (db', v)) :
    (∃ o ∈ db.objects, o.id = objectId) ∧ db.variantTaken v = false ∧ ∃ t,
      db' = { db with
        variants := t
        outbox := db.outbox ++ [stagedEvent now eventVariantReady objectId
          [("variant_name", v.variantName), ("format", v.format)]] } ∧
      ((∃ v₀, (db.variants.rows.find? fun v =>
          v.mediaObjectId = objectId ∧ v.variantName = req.variantName) = some v₀ ∧
          v = registeredVariant req objectId v₀.id v₀.createdAt ∧ t = db.variants.update v) ∨
        (db.variants.rows.find? fun v =>
          v.mediaObjectId = objectId ∧ v.variantName = req.variantName) = none ∧
          v = registeredVariant req objectId freshId now ∧ db.variants.insert v = some t) := by
  unfold registerVariant at h
  split at h
  · cases h
  · rename_i o hfetch
    have hobj : ∃ o ∈ db.objects, o.id = objectId := by
      unfold fetchObject at hfetch
      cases hf : db.objects.find objectId with
      | none => simp [hf, refuse] at hfetch
      | some q => exact ⟨q, Table.mem_of_find hf, Table.key_of_find hf⟩
    dsimp only at h
    split at h
    · cases h
    · rename_i db₁ v₁ hwritten
      cases h
      split at hwritten
      · rename_i v₀ hv₀
        unfold Database.updateVariant at hwritten
        split at hwritten
        · cases hwritten
        · rename_i htaken
          cases hwritten
          exact ⟨hobj, Bool.not_eq_true _ ▸ htaken, _, rfl, .inl ⟨v₀, hv₀, rfl, rfl⟩⟩
      · rename_i hnone
        unfold Database.insertVariant at hwritten
        split at hwritten
        · cases hwritten
        · rename_i htaken
          split at hwritten
          · cases hwritten
          · rename_i t ht
            cases hwritten
            exact ⟨hobj, Bool.not_eq_true _ ▸ htaken, t, rfl, .inr ⟨hnone, rfl, ht⟩⟩

/-- A registration writes one variant row, under the name and at the location it
was sent, for an object that exists. -/
theorem registerVariant_ok {db db' : Database} {now : Timestamp} {freshId objectId : UUID}
    {req : VariantRegisterRequest} {v : MediaVariant}
    (h : registerVariant db now freshId objectId req = .ok (db', v)) :
    v.mediaObjectId = objectId ∧ v.location = req.location ∧
      (∃ o ∈ db.objects, o.id = objectId) ∧
      ∃ t outbox, (∀ q, q ∈ t ↔ q = v ∨ q ∈ db.variants ∧ q.id ≠ v.id) ∧
        db' = { db with variants := t, outbox := outbox } := by
  obtain ⟨hobj, -, t, rfl, ⟨v₀, hv₀, rfl, rfl⟩ | ⟨-, rfl, ht⟩⟩ := registerVariant_cases h
  · have hmem : v₀ ∈ db.variants := List.mem_of_find?_eq_some hv₀
    have hfind : db.variants.find (registeredVariant req objectId v₀.id v₀.createdAt).id =
      some v₀ := Table.find_of_mem hmem
    exact ⟨rfl, rfl, hobj, _, _, fun q => Table.mem_update hfind, rfl⟩
  · refine ⟨rfl, rfl, hobj, t, _, fun q => ?_, rfl⟩
    rw [Table.mem_insert ht, or_comm]
    have hfree := Table.find_eq_none.mp (Table.find_none_of_insert ht)
    exact or_congr_right ⟨fun hq => ⟨hq, hfree q hq⟩, And.left⟩

theorem movesTo_registerVariant {b : Backend} {db' : Database} {now : Timestamp}
    {freshId objectId : UUID} {req : VariantRegisterRequest} {v : MediaVariant}
    (hkey : IsVariantKey env req.objectKey)
    (h : registerVariant b.db now freshId objectId req = .ok (db', v)) :
    MovesTo env (fun m => m = .registered v ∧ v.mediaObjectId = objectId ∧
      v.location = req.location) b.holdings ({ b with db := db' } : Backend).holdings := by
  obtain ⟨hid, hloc, hobj, t, outbox, ht, rfl⟩ := registerVariant_ok h
  refine .single (m := .registered v) ⟨rfl, hid, hloc⟩ (.registered (h := b.holdings) ?_ ?_ ht)
  · rw [show v.objectKey = req.objectKey from congrArg Location.objectKey hloc]
    exact hkey
  · rw [hid]
    exact hobj

theorem movesTo_deleteVariant {b : Backend} (hk : WellKept env b.holdings) (faults : Faults)
    (user : UserModel) (objectId variantId : UUID) :
    MovesTo env Move.Routine b.holdings
      (deleteVariant b faults user objectId variantId).1.holdings := by
  unfold deleteVariant
  split
  · exact .refl _
  · split
    · exact .refl _
    · rename_i v hv
      split
      · exact .refl _
      · let b₁ : Backend := { b with db := { b.db with variants := b.db.variants.erase variantId } }
        have hdrop : MovesTo env Move.Routine b.holdings b₁.holdings :=
          .single (m := .unregistered variantId) trivial (.unregistered (h := b.holdings))
        refine hdrop.trans (movesTo_bestEffortRemove b₁ faults fun o ho => ?_)
        exact hk.location_ne_of_variantKey (l := v.location)
          (hk.variant_key v (Table.mem_of_find hv)) o ho.1

end MediaService
