import MediaService.Core.Quotas
import MediaService.Storage.ObjectStorage

/-! Admin operations on usage rows and on stale upload sessions. -/

namespace MediaService

open Foundation

/-- The overrides a body sets; an explicit null clears one. -/
structure QuotaUpdateRequest where
  quotaBytes : Option (Option ℤ)
  quotaObjects : Option (Option ℤ)

/-- Reading a scope's quota creates its row. -/
def getQuota (db : Database) (scope : Scope) (now : Timestamp) : Database × StorageUsage :=
  let row := getOrCreateUsage db.usage scope now
  (db.putUsage row, row)

/-- Overrides leave the accounting totals untouched. -/
def setQuota (db : Database) (scope : Scope) (now : Timestamp) (update : QuotaUpdateRequest) :
    Database × StorageUsage :=
  let row := getOrCreateUsage db.usage scope now
  let row := { row with
    quotaBytes := update.quotaBytes.getD row.quotaBytes
    quotaObjects := update.quotaObjects.getD row.quotaObjects
    updatedAt := now }
  (db.putUsage row, row)

/-- Past expiry and still initiated. -/
def isStale (now : Timestamp) (s : UploadSession) : Bool :=
  s.status = .initiated ∧ s.expiresAt < now

def getStaleUploads (db : Database) (now : Timestamp) : List UploadSession :=
  db.sessions.rows.filter (isStale now)

def expireStale (now : Timestamp) (s : UploadSession) : UploadSession :=
  if isStale now s then { s with status := .expired } else s

theorem id_expireStale (now : Timestamp) (s : UploadSession) : (expireStale now s).id = s.id := by
  unfold expireStale
  split <;> rfl

/-- `purge_stale_uploads`: remove each stale session's bytes best-effort and mark
it expired, in one commit. -/
def purgeStaleUploads (b : Backend) (faults : Faults) (now : Timestamp) : Backend × ℕ :=
  let stale := getStaleUploads b.db now
  (⟨{ b.db with sessions := b.db.sessions.mapRows (expireStale now) (id_expireStale now) },
      stale.foldl (fun st s => st.bestEffortRemove faults s.location) b.storage⟩,
    stale.length)

end MediaService
