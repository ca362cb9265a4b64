import MediaService.Controllers.Objects
import MediaService.Foundation.Interleaving
import MediaService.Scenario

/-! Patches and deletions of one object, cut at every storage operation and every
commit. A request decides on the row as it read it, copies from where that row
put the bytes, writes the columns that it changed against it into the row as it
stands, and removes the bytes where it first read them to be. -/

namespace MediaService

open Foundation

/-! ### The requests, step by step -/

inductive ObjectRequest where
  | update (user : UserModel) (body : MediaObjectUpdate)
  | delete (user : UserModel)

/-- What a request does next, with what it has read so far. -/
inductive RelocationPlace where
  | read (request : ObjectRequest)
  | copyFor (u : MediaObjectUpdate) (o : MediaObject) (categories : Option (List Category))
  | commitPatch (u : MediaObjectUpdate) (o : MediaObject) (categories : Option (List Category))
      (bucket : Option String)
  | archive (o : MediaObject)
  | commitDelete (o : MediaObject) (bucket : Option String)
  | reread
  | drop (l : Location) (answer : Except Failure Unit)
  | finished (answer : Except Failure Unit)

/-- The row a patch writes: read as `o`, now standing as `current`; `none` where a
null meets a column that forbids it. -/
def MediaObjectUpdate.write (u : MediaObjectUpdate) (o current : MediaObject)
    (bucket : Option String) (now : Timestamp) : Option MediaObject :=
  match u.visibility.getD (some o.visibility), u.category.getD (some o.category) with
  | some v, some c => some { current with
      visibility := column v o.visibility current.visibility
      category := column c o.category current.category
      originalFilename :=
        column (u.originalFilename.getD o.originalFilename) o.originalFilename
          current.originalFilename
      storageBucket := bucket.getD current.storageBucket
      updatedAt := now }
  | _, _ => none

/-- The commit of a patch. -/
def commitPatchedRow (db : Database) (now : Timestamp) (u : MediaObjectUpdate) (o : MediaObject)
    (categories : Option (List Category)) (bucket : Option String) : Except Failure Database :=
  match (db.objects.find o.id).bind fun current => u.write o current bucket now with
  | none => .error .integrityError
  | some o' =>
    match db.updateObject o' with
    | .error e => .error e
    | .ok db =>
      match categories with
      | none => .ok db
      | some cs => .ok (db.setFiling o.id (cs.map Category.id))

/-- The commit of a deletion: the row, the totals and the event. -/
def commitDeletedRow (db : Database) (now : Timestamp) (o : MediaObject)
    (bucket : Option String) : Except Failure Database :=
  match db.objects.find o.id with
  | none => .error .integrityError
  | some current =>
    match db.updateObject { current with
        storageBucket := bucket.getD current.storageBucket
        deletedAt := some now
        status := column .deleted o.status current.status
        updatedAt := now } with
    | .error e => .error e
    | .ok db =>
      .ok (({ db with usage := recordObjectRemoved db.usage o.scope o.sizeBytes now } :
        Database).recordEvent now eventObjectDeleted o.id [("visibility", o.visibility.str)])

/-! ### What the commits write -/

theorem write_row {u : MediaObjectUpdate} {q current q' : MediaObject} {bucket : Option String}
    {now : Timestamp} (h : u.write q current bucket now = some q') :
    q'.id = current.id ∧ q'.ownerUserId = current.ownerUserId ∧
      q'.location = ⟨bucket.getD current.storageBucket, current.objectKey⟩ := by
  unfold MediaObjectUpdate.write at h
  split at h
  · cases h
    exact ⟨rfl, rfl, rfl⟩
  · cases h

theorem commitPatchedRow_ok {now : Timestamp} {u : MediaObjectUpdate}
    {q current : MediaObject} {categories : Option (List Category)} {bucket : Option String}
    {db db' : Database} (h : commitPatchedRow db now u q categories bucket = .ok db')
    (hrow : db.objects.find q.id = some current) :
    ∃ q', u.write q current bucket now = some q' ∧ db'.objects = db.objects.update q' ∧
      db'.categories = db.categories ∧ db'.sessions = db.sessions := by
  unfold commitPatchedRow at h
  rw [hrow, Option.bind_some] at h
  split at h
  · cases h
  · rename_i q' hwrite
    split at h
    · cases h
    · rename_i db'' hupdate
      obtain ⟨-, rfl⟩ := Database.updateObject_ok hupdate
      split at h
      · cases h
        exact ⟨q', hwrite, rfl, rfl, rfl⟩
      · cases h
        exact ⟨q', hwrite, rfl, rfl, rfl⟩

theorem commitDeletedRow_ok {now : Timestamp} {q current : MediaObject}
    {bucket : Option String} {db db' : Database}
    (h : commitDeletedRow db now q bucket = .ok db')
    (hrow : db.objects.find q.id = some current) :
    db'.objects = db.objects.update { current with
        storageBucket := bucket.getD current.storageBucket
        deletedAt := some now
        status := column .deleted q.status current.status
        updatedAt := now } ∧
      db'.categories = db.categories ∧ db'.sessions = db.sessions := by
  unfold commitDeletedRow at h
  rw [hrow] at h
  dsimp only at h
  split at h
  · cases h
  · rename_i db'' hupdate
    obtain ⟨-, rfl⟩ := Database.updateObject_ok hupdate
    cases h
    exact ⟨rfl, rfl, rfl⟩

/-! ### The steps -/

/-- The first read of a request, and the refusals that need no other. -/
def readObjectStep (env : Env) (b : Backend) (objectId : UUID) :
    ObjectRequest → RelocationPlace
  | .update user body =>
    match body.validated env with
    | none => .finished (.error .invalidRequest)
    | some u =>
      match loadObject b.db user objectId false with
      | .error e => .finished (.error e)
      | .ok o =>
        match updateCategories b.db user u with
        | .error e => .finished (.error e)
        | .ok categories => .copyFor u o categories
  | .delete user =>
    match loadObject b.db user objectId true with
    | .error e => .finished (.error e)
    | .ok o => if o.deletedAt.isSome then .finished (.ok ()) else .archive o

/-- One step of a request on the object `objectId`. -/
def relocationStep (env : Env) (objectId : UUID) (b : Backend) :
    RelocationPlace → Moment → Backend × RelocationPlace
  | .read request, _ => (b, readObjectStep env b objectId request)
  | .copyFor u o categories, m =>
    match relocateForVisibility env.settings b.storage m.faults o u.visibility.join with
    | .error e => (b, .finished (.error e))
    | .ok (storage, bucket) => ({ b with storage := storage }, .commitPatch u o categories bucket)
  | .commitPatch u o categories bucket, m =>
    match commitPatchedRow b.db m.now u o categories bucket with
    | .error e =>
      match bucket with
      | none => (b, .finished (.error e))
      | some newBucket => (b, .drop ⟨newBucket, o.objectKey⟩ (.error e))
    | .ok db =>
      ({ b with db := db },
        match bucket with
        | none => .finished (.ok ())
        | some _ => .drop o.location (.ok ()))
  | .archive o, m =>
    match archiveDeletedBytes env.settings b.storage m.faults o with
    | (storage, bucket) => ({ b with storage := storage }, .commitDelete o bucket)
  | .commitDelete o bucket, m =>
    match commitDeletedRow b.db m.now o bucket with
    | .error e => (b, .finished (.error e))
    | .ok db =>
      ({ b with db := db },
        match bucket with
        | none => .reread
        | some _ => .drop o.location (.ok ()))
  | .reread, _ =>
    -- the commit expired the row the request had read
    match b.db.objects.find objectId with
    | none => (b, .finished (.ok ()))
    | some current =>
      (b, if current.visibility = .public then .drop current.location (.ok ())
        else .finished (.ok ()))
  | .drop l answer, m =>
    ({ b with storage := b.storage.bestEffortRemove m.faults l }, .finished answer)
  | .finished answer, _ => (b, .finished answer)

/-- The two requests on one object as parties on the backend. -/
abbrev relocationTurn (env : Env) (objectId : UUID) :
    Parties Bool Backend RelocationPlace → Bool × Moment → Parties Bool Backend RelocationPlace :=
  turn fun _ => relocationStep env objectId

/-- Both requests still before their first read. -/
def relocationStart (b : Backend) (requests : Bool → ObjectRequest) :
    Parties Bool Backend RelocationPlace :=
  ⟨b, fun i => .read (requests i)⟩

/-- The storage operation or the commit of a step goes through. -/
def StepSucceeds (env : Env) (b : Backend) : RelocationPlace → Moment → Prop
  | .copyFor u o _, m =>
    (relocateForVisibility env.settings b.storage m.faults o u.visibility.join).isOk = true
  | .commitPatch u o categories bucket, m =>
    (commitPatchedRow b.db m.now u o categories bucket).isOk = true
  | .archive o, m => o.storageBucket = bucketForStorageClass env.settings .archive ∨
    (archiveDeletedBytes env.settings b.storage m.faults o).2.isSome = true
  | .commitDelete o bucket, m => (commitDeletedRow b.db m.now o bucket).isOk = true
  | .drop l _, m => m.faults .remove l = false
  | _, _ => True

instance (env : Env) (b : Backend) :
    (p : RelocationPlace) → (m : Moment) → Decidable (StepSucceeds env b p m)
  | .copyFor _ _ _, _ => inferInstanceAs (Decidable (_ = _))
  | .commitPatch _ _ _ _, _ => inferInstanceAs (Decidable (_ = _))
  | .archive _, _ => inferInstanceAs (Decidable (_ ∨ _))
  | .commitDelete _ _, _ => inferInstanceAs (Decidable (_ = _))
  | .drop _ _, _ => inferInstanceAs (Decidable (_ = _))
  | .read _, _ | .reread, _ | .finished _, _ => inferInstanceAs (Decidable True)

def RelocationPlace.Ended : RelocationPlace → Prop
  | .finished _ => True
  | _ => False

/-- The row's location holds the object's bytes, and the public bucket holds a
copy only of a live public object. -/
def BytesLawful (settings : Settings) (id : UUID) (c : Bytes) (b : Backend) : Prop :=
  ∃ o, b.db.objects.find id = some o ∧ b.storage.content o.location = some c ∧
    ((b.storage.content ⟨settings.s3BucketPublic, o.objectKey⟩).isSome = true →
      o.deletedAt = none ∧ o.visibility = .public)

end MediaService
