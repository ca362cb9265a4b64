import Mathlib.Data.Finset.Prod
import MediaService.DbModels.Rows
import MediaService.Foundation.Table

/-! The database: one table for each kind of row, and the constraints that
span rows. Primary keys are the tables' own; `(storage_bucket, object_key)` is
unique among objects, sessions and variants, and a variant name among one
object's variants, a null being distinct from every value. A write that breaks
one of these is an integrity error and writes nothing. -/

namespace MediaService

open Foundation

/-- A column the request leaves as it read it is not written. -/
def column {α : Type} [DecidableEq α] (new read current : α) : α :=
  if new = read then current else new

@[simp] theorem column_self {α : Type} [DecidableEq α] (new read : α) :
    column new read read = new := by
  unfold column
  split
  · rename_i h
    rw [h]
  · rfl

structure Database where
  objects : Table MediaObject.id
  sessions : Table UploadSession.id
  usage : Table StorageUsage.scope
  categories : Table Category.id
  /-- The id the category sequence hands out next. -/
  categorySeq : ℤ
  /-- Filings of media objects into categories. -/
  links : Finset (UUID × ℤ)
  variants : Table MediaVariant.id
  variantJobs : Table VariantJob.id
  exportJobs : Table ExportJob.id
  shares : Table ShareToken.id
  presets : Table ImagePreset.id
  outbox : List OutboxEvent

namespace Database

def empty : Database where
  objects := ∅
  sessions := ∅
  usage := ∅
  categories := ∅
  categorySeq := 1
  links := ∅
  variants := ∅
  variantJobs := ∅
  exportJobs := ∅
  shares := ∅
  presets := ∅
  outbox := []

variable (db : Database)

/-! ### Upload sessions -/

def insertSession (s : UploadSession) : Except Failure Database :=
  if ∃ s' ∈ db.sessions.rows, s'.location = s.location then .error .integrityError
  else
    match db.sessions.insert s with
    | none => .error .integrityError
    | some t => .ok { db with sessions := t }

def updateSession (s : UploadSession) : Database :=
  { db with sessions := db.sessions.update s }

/-! ### Media objects -/

/-- Whether another object's row already holds this object's location. -/
def locationTaken (o : MediaObject) : Bool :=
  db.objects.rows.any fun o' => o'.id ≠ o.id ∧ o'.location = o.location

def insertObject (o : MediaObject) : Except Failure Database :=
  if db.locationTaken o then .error .integrityError
  else
    match db.objects.insert o with
    | none => .error .integrityError
    | some t => .ok { db with objects := t }

def updateObject (o : MediaObject) : Except Failure Database :=
  if db.locationTaken o then .error .integrityError
  else .ok { db with objects := db.objects.update o }

/-- Replace an object's whole filing. -/
def setFiling (id : UUID) (categoryIds : List ℤ) : Database :=
  { db with links :=
      db.links.filter (fun l => l.1 ≠ id) ∪ (categoryIds.map fun c => (id, c)).toFinset }

/-- The ids of the categories an object is filed into. -/
def filing (id : UUID) : List ℤ :=
  (db.categories.rows.map Category.id).filter fun c => (id, c) ∈ db.links

/-- Delete an object's row; its filings and share links cascade. -/
def deleteObjectRow (id : UUID) : Database :=
  { db with
    objects := db.objects.erase id
    links := db.links.filter fun l => l.1 ≠ id
    shares := db.shares.filter fun s => s.mediaObjectId ≠ id }

/-! ### Variants -/

/-- Whether another variant's row holds this variant's name or location. -/
def variantTaken (v : MediaVariant) : Bool :=
  db.variants.rows.any fun v' => v'.id ≠ v.id ∧
    (v'.location = v.location ∨
      v'.mediaObjectId = v.mediaObjectId ∧ v'.variantName = v.variantName)

def insertVariant (v : MediaVariant) : Except Failure Database :=
  if db.variantTaken v then .error .integrityError
  else
    match db.variants.insert v with
    | none => .error .integrityError
    | some t => .ok { db with variants := t }

def updateVariant (v : MediaVariant) : Except Failure Database :=
  if db.variantTaken v then .error .integrityError
  else .ok { db with variants := db.variants.update v }

/-- The variants of one object, in table order. -/
def variantsOf (id : UUID) : List MediaVariant :=
  db.variants.rows.filter fun v => v.mediaObjectId = id

/-! ### Usage -/

def findUsage (scope : Scope) : Option StorageUsage := db.usage.find scope

def putUsage (u : StorageUsage) : Database := { db with usage := db.usage.put u }

/-! ### Outbox -/

/-- `record_event`: stage an event, pending and due now. -/
def recordEvent (now : Timestamp) (eventType : String) (objectId : UUID)
    (payload : List (String × String)) : Database :=
  { db with outbox := db.outbox ++ [{
      eventType := eventType
      objectId := objectId
      payload := payload
      status := .pending
      attempts := 0
      nextAttemptAt := now
      deliveredAt := none }] }

end Database

/-- The row `record_event` stages. -/
def stagedEvent (now : Timestamp) (eventType : String) (objectId : UUID)
    (payload : List (String × String)) : OutboxEvent where
  eventType := eventType
  objectId := objectId
  payload := payload
  status := .pending
  attempts := 0
  nextAttemptAt := now
  deliveredAt := none

/-! ### What an accepted write changes -/

section Writes

variable {db db' : Database}

theorem Database.insertSession_ok {s : UploadSession} (h : db.insertSession s = .ok db') :
    (∀ s' ∈ db.sessions, s'.location ≠ s.location) ∧
      ∃ t, db.sessions.insert s = some t ∧ db' = { db with sessions := t } := by
  unfold insertSession at h
  split at h
  · cases h
  · rename_i hfree
    split at h
    · cases h
    · rename_i t ht
      cases h
      exact ⟨fun s' hs' he => hfree ⟨s', hs', he⟩, t, ht, rfl⟩

theorem Database.locationTaken_eq_false {o : MediaObject} :
    db.locationTaken o = false ↔ ∀ o' ∈ db.objects, o'.id ≠ o.id → o'.location ≠ o.location := by
  simp [locationTaken, Table.mem_def]

theorem Database.insertObject_ok {o : MediaObject} (h : db.insertObject o = .ok db') :
    (∀ o' ∈ db.objects, o'.id ≠ o.id → o'.location ≠ o.location) ∧
      ∃ t, db.objects.insert o = some t ∧ db' = { db with objects := t } := by
  unfold insertObject at h
  split at h
  · cases h
  · rename_i hfree
    split at h
    · cases h
    · rename_i t ht
      cases h
      exact ⟨locationTaken_eq_false.mp (by simpa using hfree), t, ht, rfl⟩

theorem Database.updateObject_ok {o : MediaObject} (h : db.updateObject o = .ok db') :
    (∀ o' ∈ db.objects, o'.id ≠ o.id → o'.location ≠ o.location) ∧
      db' = { db with objects := db.objects.update o } := by
  unfold updateObject at h
  split at h
  · cases h
  · rename_i hfree
    cases h
    exact ⟨locationTaken_eq_false.mp (by simpa using hfree), rfl⟩

end Writes

end MediaService
