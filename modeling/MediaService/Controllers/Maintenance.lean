import Mathlib.Data.List.Sort
import MediaService.Controllers.Admin

/-! Housekeeping: the hard purge of soft-deleted objects past their grace, and
the reconciliation of stored bytes against rows. A repairing reconciliation
removes the stored keys it finds no row for, up to a limit, sparing initiated
sessions and the archives of completed exports inside their window. -/

namespace MediaService

open Foundation

/-! ### Hard purge -/

/-- Soft-deleted before the cutoff. -/
def isPurgeable (cutoff : Timestamp) (o : MediaObject) : Bool :=
  o.status = .deleted ∧ o.deletedAt.any (· < cutoff)

/-- The rows one purge selects, oldest deletion first. Of rows deleted at one time the query
may give any first; here it is the table's order. -/
def purgeCandidates (db : Database) (cutoff : Timestamp) (limit : ℕ) : List MediaObject :=
  ((db.objects.rows.filter (isPurgeable cutoff)).insertionSort fun o o' =>
    o.deletedAt.getD 0 ≤ o'.deletedAt.getD 0).take limit

/-- Remove one object's bytes and its variants' bytes best-effort, then the
variants, the jobs and the row. -/
def purgeObject (faults : Faults) (b : Backend) (o : MediaObject) : Backend :=
  if o.status ≠ .deleted ∨ o.deletedAt = none then b
  else
    let st := b.storage.bestEffortRemove faults o.location
    let st := (b.db.variantsOf o.id).foldl (fun st v => st.bestEffortRemove faults v.location) st
    let db : Database := { b.db with
      variants := b.db.variants.filter fun v => v.mediaObjectId ≠ o.id
      variantJobs := b.db.variantJobs.filter fun j => j.mediaObjectId ≠ o.id }
    ⟨db.deleteObjectRow o.id, st⟩

def hardPurgeExpired (b : Backend) (faults : Faults) (now olderThan : ℤ) (limit : ℕ) :
    Backend × ℕ :=
  let candidates := purgeCandidates b.db (now - olderThan) limit
  (candidates.foldl (purgeObject faults) b, candidates.length)

/-! ### Reconciliation -/

structure OrphanRecord where
  location : Location
  objectId : Option UUID
  ownerUserId : Option UUID
  deriving DecidableEq

/-- `_find_db_orphans`: live rows past the grace whose bytes are missing. -/
def findDbOrphans (b : Backend) (faults : Faults) (cutoff : Timestamp) (limit : ℕ) :
    List OrphanRecord :=
  let live := ((b.db.objects.rows.filter fun o => o.deletedAt = none ∧ o.createdAt < cutoff)
    |>.insertionSort fun o o' => o.createdAt ≤ o'.createdAt).take limit
  (live.filter fun o => (b.storage.statObject faults o.location).isNone).map fun o =>
    ⟨o.location, some o.id, some o.ownerUserId⟩

/-- `_live_export_keys`: archives of completed exports inside their window. -/
def liveExportKeys (db : Database) (now : Timestamp) : List Location :=
  (db.exportJobs.rows.filter fun j => j.status = .completed ∧ j.expiresAt.any (now < ·)).map
    fun j => ⟨j.storageBucket.getD "None", j.objectKey.getD "None"⟩

/-- Locations that have no row by design. -/
def pendingKeys (db : Database) (now : Timestamp) : List Location :=
  (db.sessions.rows.filter fun s => s.status = .initiated).map UploadSession.location ++
    liveExportKeys db now

/-- Whether the sweep finds an owner for a stored location. -/
def isClaimed (db : Database) (pending : List Location) (l : Location) : Bool :=
  l ∈ pending ∨ db.objects.rows.any fun o => o.location = l

structure Sweep where
  storage : Storage
  orphans : List OrphanRecord
  repaired : ℕ

/-- One bucket's keys in listing order; the limit ends the bucket. -/
def sweepKeys (db : Database) (pending : List Location) (faults : Faults) (limit : ℕ)
    (repair : Bool) (bucket : String) : Sweep → List String → Sweep
  | sw, [] => sw
  | sw, key :: keys =>
    if sw.orphans.length ≥ limit then sw
    else if isClaimed db pending ⟨bucket, key⟩ then
      sweepKeys db pending faults limit repair bucket sw keys
    else
      let orphans := sw.orphans ++ [⟨⟨bucket, key⟩, none, none⟩]
      let sw :=
        if repair then
          ⟨sw.storage.bestEffortRemove faults ⟨bucket, key⟩, orphans, sw.repaired + 1⟩
        else { sw with orphans := orphans }
      sweepKeys db pending faults limit repair bucket sw keys

/-- `_find_storage_orphans`. -/
def findStorageOrphans (env : Env) (b : Backend) (faults : Faults) (now : Timestamp)
    (buckets : List String) (limit : ℕ) (repair : Bool) : Sweep :=
  let pending := pendingKeys b.db now
  buckets.foldl (fun sw bucket =>
      sweepKeys b.db pending faults limit repair bucket sw (sw.storage.listObjectKeys env bucket))
    ⟨b.storage, [], 0⟩

structure OrphanReport where
  dbOrphans : List OrphanRecord
  storageOrphans : List OrphanRecord
  repaired : ℕ

/-- `reconcile_orphans`; the grace bounds the row direction only. -/
def reconcileOrphans (env : Env) (b : Backend) (faults : Faults) (now : Timestamp)
    (buckets : List String) (grace : ℤ) (limit : ℕ) (repair : Bool) : Backend × OrphanReport :=
  let sweep := findStorageOrphans env b faults now buckets limit repair
  ({ b with storage := sweep.storage },
    ⟨findDbOrphans b faults (now - grace) limit, sweep.orphans, sweep.repaired⟩)

end MediaService
