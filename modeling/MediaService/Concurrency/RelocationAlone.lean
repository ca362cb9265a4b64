import MediaService.Concurrency.RelocationRace
import MediaService.Lifecycle.Objects

/-! A patch or a deletion that nothing interrupts is its controller: the steps,
taken in a row, leave the backend and the answer of `update_object` and of
`delete_object`. -/

namespace MediaService

open Foundation

variable {env : Env} {id : UUID} {b : Backend} {m : Moment}

/-- The steps of one request, nothing else running. -/
abbrev aloneStep (env : Env) (id : UUID) (p : Backend × RelocationPlace) (m : Moment) :
    Backend × RelocationPlace :=
  relocationStep env id p.1 p.2 m

/-- The backend and the answer of a controller, as the place a request ends at. -/
def answered {α : Type} (r : Backend × Except Failure α) : Backend × RelocationPlace :=
  (r.1, .finished (r.2.map fun _ => ()))

theorem alone_finished (answer : Except Failure Unit) (n : ℕ) :
    run (aloneStep env id) (b, .finished answer) (List.replicate n m) = (b, .finished answer) :=
  run_replicate_of_eq _ rfl n

theorem alone_drop (l : Location) (answer : Except Failure Unit) (n : ℕ) :
    run (aloneStep env id) (b, .drop l answer) (List.replicate (n + 1) m) =
      ({ b with storage := b.storage.bestEffortRemove m.faults l }, .finished answer) := by
  rw [List.replicate_succ, run_cons]
  exact alone_finished answer n

/-- Against the row it read, a patch writes what `update_object` does. -/
theorem write_self (u : MediaObjectUpdate) (o : MediaObject) (bucket : Option String)
    (now : Timestamp) : u.write o o bucket now =
      u.apply { o with storageBucket := bucket.getD o.storageBucket, updatedAt := now } := by
  unfold MediaObjectUpdate.write
  simp only [column_self]
  rfl

theorem commitPatchedRow_self {o : MediaObject} (ho : b.db.objects.find o.id = some o)
    (now : Timestamp) (u : MediaObjectUpdate) (categories : Option (List Category))
    (bucket : Option String) : commitPatchedRow b.db now u o categories bucket =
      (patchedDatabase b.db now u o bucket categories).map Prod.fst := by
  unfold commitPatchedRow patchedDatabase
  rw [ho, Option.bind_some, write_self]
  cases u.apply { o with storageBucket := bucket.getD o.storageBucket, updatedAt := now } with
  | none => rfl
  | some o' =>
    dsimp only
    cases b.db.updateObject o' with
    | error e => rfl
    | ok db => cases categories <;> rfl

theorem commitDeletedRow_self {o : MediaObject} (ho : b.db.objects.find o.id = some o)
    (now : Timestamp) (bucket : Option String) :
    commitDeletedRow b.db now o bucket = softDeletedDatabase b.db now o bucket := by
  unfold commitDeletedRow
  rw [ho]
  dsimp only
  rw [column_self]
  rfl

/-- A patch alone is `update_object`. -/
theorem alone_update (user : UserModel) (body : MediaObjectUpdate) :
    run (aloneStep env id) (b, .read (.update user body)) (List.replicate 4 m) =
      answered (updateObject env b m.faults false m.now user id body) := by
  unfold updateObject
  rw [List.replicate_succ, run_cons]
  simp only [aloneStep, relocationStep, readObjectStep]
  cases body.validated env with
  | none => exact alone_finished _ _
  | some u =>
    dsimp only
    cases hload : loadObject b.db user id false with
    | error e => exact alone_finished _ _
    | ok o =>
      have ho : b.db.objects.find o.id = some o := Table.find_of_mem (loadObject_ok hload).1
      dsimp only
      cases updateCategories b.db user u with
      | error e => exact alone_finished _ _
      | ok categories =>
        dsimp only
        rw [List.replicate_succ, run_cons]
        simp only [aloneStep, relocationStep]
        cases relocateForVisibility env.settings b.storage m.faults o u.visibility.join with
        | error e => exact alone_finished _ _
        | ok res =>
          obtain ⟨storage, bucket⟩ := res
          dsimp only
          rw [List.replicate_succ, run_cons]
          simp only [aloneStep, relocationStep, commitPatchedRow_self ho, Bool.false_eq_true,
            if_false]
          cases patchedDatabase b.db m.now u o bucket categories with
          | error e =>
            cases bucket with
            | none => exact alone_finished _ _
            | some newBucket => exact alone_drop _ _ _
          | ok res =>
            cases bucket with
            | none => exact alone_finished _ _
            | some newBucket => exact alone_drop _ _ _

/-- A deletion alone is `delete_object`. -/
theorem alone_delete (user : UserModel) :
    run (aloneStep env id) (b, .read (.delete user)) (List.replicate 5 m) =
      answered (deleteObject env b m.faults false m.now user id) := by
  unfold deleteObject
  rw [List.replicate_succ, run_cons]
  simp only [aloneStep, relocationStep, readObjectStep]
  cases hload : loadObject b.db user id true with
  | error e => exact alone_finished _ _
  | ok o =>
    have ho : b.db.objects.find o.id = some o := Table.find_of_mem (loadObject_ok hload).1
    dsimp only
    split
    · exact alone_finished _ _
    · rw [List.replicate_succ, run_cons]
      simp only [aloneStep, relocationStep]
      rcases archiveDeletedBytes env.settings b.storage m.faults o with ⟨storage, bucket⟩
      dsimp only
      rw [List.replicate_succ, run_cons]
      simp only [aloneStep, relocationStep, commitDeletedRow_self ho, Bool.false_eq_true, if_false]
      cases hdelete : softDeletedDatabase b.db m.now o bucket with
      | error e => exact alone_finished _ _
      | ok db =>
        cases bucket with
        | some newBucket => exact alone_drop _ _ _
        | none =>
          -- the row read again is the one the deletion wrote
          obtain ⟨outbox, rfl⟩ := softDeletedDatabase_ok hdelete
          obtain rfl : o.id = id := (loadObject_ok hload).2.1
          have hrow := @Table.find_update_self _ _ _ _ b.db.objects { o with
            storageBucket := o.storageBucket
            deletedAt := some m.now
            status := .deleted
            updatedAt := m.now } o ho
          dsimp only at hrow ⊢
          rw [List.replicate_succ, run_cons]
          simp only [aloneStep, relocationStep, Option.getD_none, hrow]
          by_cases hpub : o.visibility = .public
          · rw [if_pos hpub, if_pos hpub]
            exact alone_drop _ _ 0
          · rw [if_neg hpub, if_neg hpub]
            exact alone_finished _ _

end MediaService
