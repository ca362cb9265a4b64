import MediaService.Lifecycle.Service

/-! Relocation. A patch or a deletion copies the bytes, commits the row and then
removes the source, and may stop for good after any of these. Through every
sequence of such requests, whatever fails in them and wherever they stop, a live
object's bytes are where its row says. -/

namespace MediaService

open Foundation

/-! ### Requests that stop anywhere -/

/-- The backends `update_object` leaves behind it, step by step: after the copy,
after the commit or its rollback, after the removal. -/
def updateObjectSteps (env : Env) (b : Backend) (faults : Faults) (commitFails : Bool)
    (now : Timestamp) (user : UserModel) (objectId : UUID) (body : MediaObjectUpdate) :
    List Backend :=
  match body.validated env with
  | none => []
  | some u =>
    match loadObject b.db user objectId false with
    | .error _ => []
    | .ok o =>
      match updateCategories b.db user u with
      | .error _ => []
      | .ok categories =>
        match relocateForVisibility env.settings b.storage faults o u.visibility.join with
        | .error _ => []
        | .ok (st, bucket) =>
          match (if commitFails then .error .integrityError
            else patchedDatabase b.db now u o bucket categories) with
          | .error _ =>
            match bucket with
            | none => [⟨b.db, st⟩]
            | some newBucket =>
              [⟨b.db, st⟩, ⟨b.db, st.bestEffortRemove faults ⟨newBucket, o.objectKey⟩⟩]
          | .ok (db, _) =>
            match bucket with
            | none => [⟨b.db, st⟩, ⟨db, st⟩]
            | some _ => [⟨b.db, st⟩, ⟨db, st⟩, ⟨db, st.bestEffortRemove faults o.location⟩]

/-- The backends `delete_object` leaves behind it, step by step. -/
def deleteObjectSteps (env : Env) (b : Backend) (faults : Faults) (commitFails : Bool)
    (now : Timestamp) (user : UserModel) (objectId : UUID) : List Backend :=
  match loadObject b.db user objectId true with
  | .error _ => []
  | .ok o =>
    if o.deletedAt.isSome then []
    else
      match archiveDeletedBytes env.settings b.storage faults o with
      | (st, bucket) =>
        match (if commitFails then .error .integrityError
          else softDeletedDatabase b.db now o bucket) with
        | .error _ => [⟨b.db, st⟩]
        | .ok db =>
          if bucket.isSome ∨ o.visibility = .public then
            [⟨b.db, st⟩, ⟨db, st⟩, ⟨db, st.bestEffortRemove faults o.location⟩]
          else [⟨b.db, st⟩, ⟨db, st⟩]

inductive RelocationRequest where
  | update (user : UserModel) (objectId : UUID) (body : MediaObjectUpdate)
  | delete (user : UserModel) (objectId : UUID)

/-- A request as it went: what failed in it, and after how many steps it crashed. -/
structure Attempt where
  request : RelocationRequest
  faults : Faults
  commitFails : Bool
  now : Timestamp
  crash : Option ℕ

def Attempt.steps (env : Env) (b : Backend) (a : Attempt) : List Backend :=
  match a.request with
  | .update user objectId body =>
    updateObjectSteps env b a.faults a.commitFails a.now user objectId body
  | .delete user objectId => deleteObjectSteps env b a.faults a.commitFails a.now user objectId

/-- The backend an attempt leaves: after its last step, or the last before the
crash. -/
def Attempt.leaves (env : Env) (b : Backend) (a : Attempt) : Backend :=
  let steps := a.steps env b
  (steps.take (a.crash.getD steps.length)).getLastD b

/-- The backend after the request as the controller runs it. -/
def Attempt.completed (env : Env) (b : Backend) (a : Attempt) : Backend :=
  match a.request with
  | .update user objectId body =>
    (updateObject env b a.faults a.commitFails a.now user objectId body).1
  | .delete user objectId => (deleteObject env b a.faults a.commitFails a.now user objectId).1

theorem updateObjectSteps_last (env : Env) (b : Backend) (faults : Faults) (commitFails : Bool)
    (now : Timestamp) (user : UserModel) (objectId : UUID) (body : MediaObjectUpdate) :
    (updateObjectSteps env b faults commitFails now user objectId body).getLastD b =
      (updateObject env b faults commitFails now user objectId body).1 := by
  unfold updateObjectSteps updateObject
  cases body.validated env with
  | none => rfl
  | some u =>
    dsimp only
    cases loadObject b.db user objectId false with
    | error e => rfl
    | ok o =>
      dsimp only
      cases updateCategories b.db user u with
      | error e => rfl
      | ok categories =>
        dsimp only
        cases relocateForVisibility env.settings b.storage faults o u.visibility.join with
        | error e => rfl
        | ok res =>
          obtain ⟨st, bucket⟩ := res
          dsimp only
          generalize (if commitFails then .error .integrityError
            else patchedDatabase b.db now u o bucket categories :
              Except Failure (Database × MediaObject)) = commit
          cases commit with
          | error e => cases bucket <;> rfl
          | ok res => cases bucket <;> rfl

theorem deleteObjectSteps_last (env : Env) (b : Backend) (faults : Faults) (commitFails : Bool)
    (now : Timestamp) (user : UserModel) (objectId : UUID) :
    (deleteObjectSteps env b faults commitFails now user objectId).getLastD b =
      (deleteObject env b faults commitFails now user objectId).1 := by
  unfold deleteObjectSteps deleteObject
  cases loadObject b.db user objectId true with
  | error e => rfl
  | ok o =>
    dsimp only
    split
    · rfl
    · cases archiveDeletedBytes env.settings b.storage faults o with
      | mk st bucket =>
        dsimp only
        generalize (if commitFails then .error .integrityError
          else softDeletedDatabase b.db now o bucket : Except Failure Database) = commit
        cases commit with
        | error e => rfl
        | ok db =>
          cases bucket with
          | none =>
            simp only [Option.isSome_none, Bool.false_eq_true, false_or]
            split <;> rfl
          | some newBucket => rfl

/-- An attempt that does not crash is the controller's run. -/
theorem Attempt.leaves_of_not_crash (env : Env) (b : Backend) {a : Attempt}
    (ha : a.crash = none) : a.leaves env b = a.completed env b := by
  have hall : a.leaves env b = (a.steps env b).getLastD b := by
    simp [Attempt.leaves, ha]
  rw [hall]
  unfold Attempt.steps Attempt.completed
  cases a.request with
  | update user objectId body => exact updateObjectSteps_last _ _ _ _ _ _ _ _
  | delete user objectId => exact deleteObjectSteps_last _ _ _ _ _ _ _

/-! ### Keeping bytes -/

/-- A key belongs to one object. -/
def KeysApart (b : Backend) : Prop :=
  ∀ o ∈ b.db.objects, ∀ q ∈ b.db.objects, o.objectKey = q.objectKey → o = q

/-- Every row was there before, and what is live still has the bytes it had, where
its row points now. -/
def Keeps (b b' : Backend) : Prop :=
  ∀ o' ∈ b'.db.objects, ∃ o ∈ b.db.objects, o.id = o'.id ∧ o.objectKey = o'.objectKey ∧
    (o'.deletedAt = none → o.deletedAt = none ∧
      ∀ c, b.storage.content o.location = some c → b'.storage.content o'.location = some c)

theorem Keeps.refl (b : Backend) : Keeps b b :=
  fun o ho => ⟨o, ho, rfl, rfl, fun h => ⟨h, fun _ => id⟩⟩

theorem Keeps.trans {b b' b'' : Backend} (h : Keeps b b') (h' : Keeps b' b'') : Keeps b b'' := by
  intro o'' ho''
  obtain ⟨o', ho', hid', hkey', hlive'⟩ := h' o'' ho''
  obtain ⟨o, ho, hid, hkey, hlive⟩ := h o' ho'
  refine ⟨o, ho, hid.trans hid', hkey.trans hkey', fun hl => ?_⟩
  obtain ⟨hl', hc'⟩ := hlive' hl
  obtain ⟨hl₀, hc⟩ := hlive hl'
  exact ⟨hl₀, fun c h => hc' c (hc c h)⟩

theorem KeysApart.keeps {b b' : Backend} (hk : KeysApart b) (h : Keeps b b') : KeysApart b' := by
  intro o' ho' q' hq' he
  obtain ⟨o, ho, hid, hkey, -⟩ := h o' ho'
  obtain ⟨q, hq, hqid, hqkey, -⟩ := h q' hq'
  obtain rfl := hk o ho q hq (hkey.trans (he.trans hqkey.symm))
  exact Table.eq_of_key_eq ho' hq' (hid.symm.trans hqid)

/-- A storage operation that spares where the live objects are keeps their bytes. -/
theorem keeps_storage {b : Backend} {st : Storage}
    (h : ∀ o ∈ b.db.objects, o.deletedAt = none →
      st.content o.location = b.storage.content o.location) : Keeps b ⟨b.db, st⟩ :=
  fun o ho => ⟨o, ho, rfl, rfl, fun hl => ⟨hl, fun _ hc => (h o ho hl).trans hc⟩⟩

/-- So does a commit that rewrites one row to where its bytes are as well. -/
theorem keeps_commit {b : Backend} {o o' : MediaObject} (ho : o ∈ b.db.objects)
    (hid : o'.id = o.id) (hkey : o'.objectKey = o.objectKey) {db : Database}
    (hdb : db.objects = b.db.objects.update o')
    (hbytes : o'.deletedAt = none → o.deletedAt = none ∧
      b.storage.content o'.location = b.storage.content o.location) : Keeps b ⟨db, b.storage⟩ := by
  intro q hq
  change q ∈ db.objects at hq
  rw [hdb] at hq
  rcases (Table.mem_update (by rw [hid, Table.find_of_mem ho])).mp hq with rfl | ⟨hq, -⟩
  · exact ⟨o, ho, hid.symm, hkey.symm,
      fun hl => ⟨(hbytes hl).1, fun _ hc => (hbytes hl).2.trans hc⟩⟩
  · exact ⟨q, hq, rfl, rfl, fun hl => ⟨hl, fun _ hc => hc⟩⟩

/-- Removing another copy of an object's bytes spares every live object. -/
theorem keeps_bestEffortRemove {b : Backend} (hk : KeysApart b) (faults : Faults) {o : MediaObject}
    (ho : o ∈ b.db.objects) {l : Location} (hkey : l.objectKey = o.objectKey)
    (haway : o.deletedAt = none → o.location ≠ l) :
    Keeps b ⟨b.db, b.storage.bestEffortRemove faults l⟩ := by
  refine keeps_storage fun q hq hl => ?_
  have hne : q.location ≠ l := by
    rintro rfl
    obtain rfl := hk q hq o ho hkey
    exact haway hl rfl
  rw [Storage.content_bestEffortRemove, if_neg]
  rintro ⟨-, he⟩
  exact hne he

/-! ### Steps -/

/-- The copy of a relocation lands where no object is. -/
theorem keeps_relocates {b : Backend} (hk : KeysApart b) {faults : Faults} {o : MediaObject}
    (ho : o ∈ b.db.objects) {st : Storage} {bucket : Option String}
    (hr : Relocates b.storage faults o st bucket) :
    Keeps b ⟨b.db, st⟩ ∧ st.content (relocated o bucket) = b.storage.content o.location ∧
      st.content o.location = b.storage.content o.location := by
  cases bucket with
  | none =>
    obtain rfl : st = b.storage := hr
    exact ⟨.refl _, rfl, rfl⟩
  | some bucket =>
    obtain ⟨hne, hcopy⟩ := hr
    have hcontent := Storage.find_copyObject hcopy
    have hfree : ∀ q ∈ b.db.objects, q.location ≠ ⟨bucket, o.objectKey⟩ := by
      intro q hq he
      obtain rfl := hk q hq o ho (congrArg Location.objectKey he)
      exact hne (congrArg Location.bucket he).symm
    refine ⟨keeps_storage fun q hq _ => ?_, ?_, ?_⟩
    · rw [hcontent, if_neg (hfree q hq)]
    · exact (hcontent _).trans (if_pos rfl)
    · rw [hcontent, if_neg (hfree o ho)]

theorem keeps_updateObjectSteps {env : Env} {b : Backend} (hk : KeysApart b) (faults : Faults)
    (commitFails : Bool) (now : Timestamp) (user : UserModel) (objectId : UUID)
    (body : MediaObjectUpdate) :
    ∀ b' ∈ updateObjectSteps env b faults commitFails now user objectId body, Keeps b b' := by
  unfold updateObjectSteps
  split
  · exact fun _ h => nomatch h
  · rename_i u hu
    split
    · exact fun _ h => nomatch h
    · rename_i o hload
      obtain ⟨ho, hid, hlive, -⟩ := loadObject_ok hload
      split
      · exact fun _ h => nomatch h
      · rename_i categories _
        split
        · exact fun _ h => nomatch h
        · rename_i st bucket hrel
          have hr := relocates_of_relocateForVisibility hrel
          obtain ⟨hcopy, hnew, hold⟩ := keeps_relocates hk ho hr
          have hk₁ := hk.keeps hcopy
          split
          · cases bucket with
            | none => simpa using hcopy
            | some newBucket =>
              -- the rollback removes the copy, and the row still points at the source
              have hcleanup := keeps_bestEffortRemove (b := ⟨b.db, st⟩) hk₁ faults ho
                (l := ⟨newBucket, o.objectKey⟩) rfl
                fun _ he => hr.1 (congrArg Location.bucket he).symm
              simpa using ⟨hcopy, hcopy.trans hcleanup⟩
          · rename_i db o' hcommit
            split at hcommit
            · cases hcommit
            · obtain ⟨⟨v, c, -, hpatched⟩, links, rfl⟩ := patchedDatabase_ok hcommit
              have hid' : o'.id = o.id := by rw [hpatched]
              have hkey : o'.objectKey = o.objectKey := by rw [hpatched]
              have hloc : o'.location = relocated o bucket := by rw [hpatched]; rfl
              have hpatch : Keeps ⟨b.db, st⟩ ⟨{ b.db with
                  objects := b.db.objects.update o', links := links }, st⟩ :=
                keeps_commit (b := ⟨b.db, st⟩) ho hid' hkey rfl fun _ =>
                  ⟨hlive rfl, by rw [hloc]; exact hnew.trans hold.symm⟩
              have hmem : o' ∈ b.db.objects.update o' :=
                Table.mem_of_find (Table.find_update_self (by rw [hid', Table.find_of_mem ho]))
              cases bucket with
              | none => simpa using ⟨hcopy, hcopy.trans hpatch⟩
              | some newBucket =>
                -- the row points at the copy by now, and the source is removed
                have hremove := keeps_bestEffortRemove (b := ⟨_, st⟩) (hk₁.keeps hpatch) faults hmem
                  (l := o.location) hkey.symm fun _ he => by
                    rw [hloc] at he
                    exact hr.1 (congrArg Location.bucket he)
                simpa using ⟨hcopy, hcopy.trans hpatch, (hcopy.trans hpatch).trans hremove⟩

theorem keeps_deleteObjectSteps {env : Env} {b : Backend} (hk : KeysApart b) (faults : Faults)
    (commitFails : Bool) (now : Timestamp) (user : UserModel) (objectId : UUID) :
    ∀ b' ∈ deleteObjectSteps env b faults commitFails now user objectId, Keeps b b' := by
  unfold deleteObjectSteps
  split
  · exact fun _ h => nomatch h
  · rename_i o hload
    obtain ⟨ho, hid, -, -⟩ := loadObject_ok hload
    split
    · exact fun _ h => nomatch h
    · have hr := relocates_of_archiveDeletedBytes env.settings b.storage faults o
      split
      rename_i st bucket hs
      rw [hs] at hr
      obtain ⟨hcopy, -, -⟩ := keeps_relocates hk ho hr
      split
      · simpa using hcopy
      · rename_i db hcommit
        split at hcommit
        · cases hcommit
        · obtain ⟨outbox, rfl⟩ := softDeletedDatabase_ok hcommit
          let o' : MediaObject := { o with
            storageBucket := bucket.getD o.storageBucket
            deletedAt := some now
            status := .deleted
            updatedAt := now }
          let db' : Database := { b.db with
            objects := b.db.objects.update o'
            usage := recordObjectRemoved b.db.usage o.scope o.sizeBytes now
            outbox := outbox }
          have hdelete : Keeps ⟨b.db, st⟩ ⟨db', st⟩ :=
            keeps_commit (b := ⟨b.db, st⟩) ho (rfl : o'.id = o.id) rfl rfl fun h => nomatch h
          have hfind : b.db.objects.find o'.id = some o := Table.find_of_mem ho
          have hmem : o' ∈ b.db.objects.update o' :=
            Table.mem_of_find (Table.find_update_self hfind)
          -- the row is deleted by now, so its bytes may go
          have hremove := keeps_bestEffortRemove (b := ⟨db', st⟩)
            ((hk.keeps hcopy).keeps hdelete) faults hmem (l := o.location) rfl fun h => nomatch h
          have hcommitted := hcopy.trans hdelete
          split
          · simpa using ⟨hcopy, hcommitted, hcommitted.trans hremove⟩
          · simpa using ⟨hcopy, hcommitted⟩

theorem keeps_leaves (env : Env) {b : Backend} (hk : KeysApart b) (a : Attempt) :
    Keeps b (a.leaves env b) := by
  have hsteps : ∀ b' ∈ a.steps env b, Keeps b b' := by
    unfold Attempt.steps
    split
    · exact keeps_updateObjectSteps hk _ _ _ _ _ _
    · exact keeps_deleteObjectSteps hk _ _ _ _ _
  unfold Attempt.leaves
  dsimp only
  generalize htake : (a.steps env b).take _ = taken
  cases taken with
  | nil => exact .refl b
  | cons b₁ bs =>
    rw [List.getLastD_cons]
    refine hsteps _ (List.mem_of_mem_take (i := a.crash.getD (a.steps env b).length) ?_)
    rw [htake]
    exact List.getLastD_mem_cons

/-! ### Histories -/

theorem keeps_run {env : Env} {b : Backend} (hk : KeysApart b) (attempts : List Attempt) :
    Keeps b (run (Attempt.leaves env) b attempts) := by
  induction attempts generalizing b with
  | nil => exact .refl b
  | cons a attempts ih =>
    have hstep := keeps_leaves env hk a
    exact hstep.trans (ih (hk.keeps hstep))

theorem keysApart_run (env : Env) (rs : List Request) :
    KeysApart (run (serve env) World.initial rs).backend := by
  have hk := (worldInv_run env rs).kept
  intro o ho q hq he
  exact Table.eq_of_key_eq ho hq (hk.id_eq_of_key_eq ho hq he)

theorem patchedDatabase_error {db : Database} {now : Timestamp} {u : MediaObjectUpdate}
    {o : MediaObject} {bucket : Option String} {categories : Option (List Category)} {e : Failure}
    (h : patchedDatabase db now u o bucket categories = .error e) : e = .integrityError := by
  unfold patchedDatabase at h
  split at h
  · cases h
    rfl
  · split at h
    · rename_i e' hupd
      unfold Database.updateObject at hupd
      split at hupd
      · cases hupd
        cases h
        rfl
      · cases hupd
    · split at h <;> cases h

/-- A refusal is decided before anything moves, or by the copy that failed. -/
theorem updateObject_refused {env : Env} {b : Backend} {faults : Faults} {commitFails : Bool}
    {now : Timestamp} {user : UserModel} {objectId : UUID} {body : MediaObjectUpdate}
    {e : HTTPException}
    (h : (updateObject env b faults commitFails now user objectId body).2 = .error (.http e)) :
    (updateObject env b faults commitFails now user objectId body).1 = b := by
  revert h
  unfold updateObject
  cases body.validated env with
  | none => exact fun _ => rfl
  | some u =>
    dsimp only
    cases loadObject b.db user objectId false with
    | error e' => exact fun _ => rfl
    | ok o =>
      dsimp only
      cases updateCategories b.db user u with
      | error e' => exact fun _ => rfl
      | ok categories =>
        dsimp only
        cases relocateForVisibility env.settings b.storage faults o u.visibility.join with
        | error e' => exact fun _ => rfl
        | ok res =>
          obtain ⟨st, bucket⟩ := res
          dsimp only
          split
          · rename_i e' hcommit
            have he : e' = .integrityError := by
              split at hcommit
              · cases hcommit
                rfl
              · exact patchedDatabase_error hcommit
            subst he
            cases bucket <;> exact fun h => nomatch h
          · cases bucket <;> exact fun h => nomatch h

/-- After every history of patches and deletions, crashes among them, the bytes a
live object had are where its row points; and a refused patch leaves everything
as it was. -/
theorem relocation_safe (env : Env) :
    (∀ (rs : List Request) (attempts : List Attempt),
      ∀ o ∈ (run (Attempt.leaves env) (run (serve env) World.initial rs).backend
          attempts).db.objects, o.deletedAt = none →
      ∀ o₀ ∈ (run (serve env) World.initial rs).backend.db.objects, o₀.id = o.id →
      ∀ c, (run (serve env) World.initial rs).backend.storage.content o₀.location = some c →
        (run (Attempt.leaves env) (run (serve env) World.initial rs).backend
          attempts).storage.content o.location = some c) ∧
    ∀ (b : Backend) (faults : Faults) (commitFails : Bool) (now : Timestamp) (user : UserModel)
      (objectId : UUID) (body : MediaObjectUpdate) (e : HTTPException),
      (updateObject env b faults commitFails now user objectId body).2 = .error (.http e) →
      (updateObject env b faults commitFails now user objectId body).1 = b := by
  refine ⟨fun rs attempts o ho hl o₀ ho₀ hid c hc => ?_,
    fun _ _ _ _ _ _ _ _ => updateObject_refused⟩
  obtain ⟨q, hq, hqid, -, hlive⟩ := keeps_run (keysApart_run env rs) attempts o ho
  obtain rfl := Table.eq_of_key_eq hq ho₀ (hqid.trans hid.symm)
  exact (hlive hl).2 c hc

end MediaService
