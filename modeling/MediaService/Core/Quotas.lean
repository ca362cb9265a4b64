import MediaService.DbModels.Database
import MediaService.Core.Config

/-! Storage accounting. A scope's totals live in its usage row, which the first
credit or debit creates; a missing row counts as nothing used. A reservation
checks the actual size against the effective ceilings and credits it, a
removal debits with a floor at zero. -/

namespace MediaService

open Foundation

abbrev UsageTable := Table StorageUsage.scope

variable (settings : Settings)

/-! ### Ceilings -/

/-- The per-scope override, else the settings default. -/
def effectiveQuotaBytes (usage : Option StorageUsage) : Option ℤ :=
  match usage.bind StorageUsage.quotaBytes with
  | some q => some q
  | none => settings.mediaDefaultQuotaBytes.map Nat.cast

def effectiveQuotaObjects (usage : Option StorageUsage) : Option ℤ :=
  match usage.bind StorageUsage.quotaObjects with
  | some q => some q
  | none => settings.mediaDefaultQuotaObjects.map Nat.cast

/-- Whether a total is past a ceiling; without one, nothing is. -/
def exceeds (quota : Option ℤ) (total : ℤ) : Bool :=
  match quota with
  | some q => total > q
  | none => false

theorem exceeds_mono {quota : Option ℤ} {m n : ℤ} (hle : m ≤ n) (h : exceeds quota n = false) :
    exceeds quota m = false := by
  cases quota with
  | none => rfl
  | some q =>
    simp only [exceeds, decide_eq_false_iff_not, not_lt] at h ⊢
    omega

/-- `check_quota`: the projected totals against the ceilings, changing nothing. -/
def checkQuota (usage : UsageTable) (scope : Scope) (additionalBytes : ℕ) : Except Failure Unit :=
  let row := usage.find scope
  let currentBytes := (row.map StorageUsage.totalBytes).getD 0
  let currentCount := (row.map StorageUsage.objectCount).getD 0
  if exceeds (effectiveQuotaBytes settings row) (currentBytes + additionalBytes) then
    refuse 413 "Storage byte quota exceeded."
  else if exceeds (effectiveQuotaObjects settings row) (currentCount + 1) then
    refuse 409 "Storage object-count quota exceeded."
  else .ok ()

/-! ### Usage rows -/

/-- A usage row as it is created: nothing stored, no override. -/
def freshUsage (scope : Scope) (now : Timestamp) : StorageUsage where
  ownerUserId := scope.ownerUserId
  tenantId := scope.tenantId
  totalBytes := 0
  objectCount := 0
  quotaBytes := none
  quotaObjects := none
  updatedAt := now

/-- `get_or_create_usage`; `_lock_or_create_usage` finds the same row when
nothing runs beside it. -/
def getOrCreateUsage (usage : UsageTable) (scope : Scope) (now : Timestamp) : StorageUsage :=
  (usage.find scope).getD (freshUsage scope now)

/-- Why the actual size does not fit, if it does not. -/
def reserveRefusal (row : StorageUsage) (sizeBytes : ℕ) : Option UploadRejectReason :=
  if exceeds (effectiveQuotaBytes settings (some row)) (row.totalBytes + sizeBytes) then
    some .quotaBytesExceeded
  else if exceeds (effectiveQuotaObjects settings (some row)) (row.objectCount + 1) then
    some .quotaObjectsExceeded
  else none

def StorageUsage.credit (row : StorageUsage) (sizeBytes : ℕ) (now : Timestamp) : StorageUsage :=
  { row with
    totalBytes := row.totalBytes + sizeBytes
    objectCount := row.objectCount + 1
    updatedAt := now }

def StorageUsage.debit (row : StorageUsage) (sizeBytes : ℕ) (now : Timestamp) : StorageUsage :=
  { row with
    totalBytes := max 0 (row.totalBytes - sizeBytes)
    objectCount := max 0 (row.objectCount - 1)
    updatedAt := now }

/-- `reserve_storage_for_object`. A refusal credits nothing but keeps the row it
may have created, which the caller's next commit persists. -/
def reserveStorageForObject (usage : UsageTable) (scope : Scope) (sizeBytes : ℕ)
    (now : Timestamp) : UsageTable × Option UploadRejectReason :=
  let row := getOrCreateUsage usage scope now
  match reserveRefusal settings row sizeBytes with
  | some reason => (usage.put row, some reason)
  | none => (usage.put (row.credit sizeBytes now), none)

/-- `record_object_removed`. -/
def recordObjectRemoved (usage : UsageTable) (scope : Scope) (sizeBytes : ℕ) (now : Timestamp) :
    UsageTable :=
  usage.put ((getOrCreateUsage usage scope now).debit sizeBytes now)

/-! ### Totals -/

/-- Bytes and objects a scope is charged for; nothing without a row. -/
def usageTotals (usage : UsageTable) (scope : Scope) : ℤ × ℤ :=
  match usage.find scope with
  | some row => (row.totalBytes, row.objectCount)
  | none => (0, 0)

variable {settings}

@[simp] theorem usageTotals_empty (scope : Scope) : usageTotals ∅ scope = (0, 0) := rfl

@[simp] theorem scope_freshUsage (scope : Scope) (now : Timestamp) :
    (freshUsage scope now).scope = scope := rfl

@[simp] theorem scope_getOrCreateUsage (usage : UsageTable) (scope : Scope) (now : Timestamp) :
    (getOrCreateUsage usage scope now).scope = scope := by
  unfold getOrCreateUsage
  cases h : usage.find scope with
  | none => rfl
  | some row => exact Table.key_of_find h

@[simp] theorem scope_credit (row : StorageUsage) (n : ℕ) (now : Timestamp) :
    (row.credit n now).scope = row.scope := rfl

@[simp] theorem scope_debit (row : StorageUsage) (n : ℕ) (now : Timestamp) :
    (row.debit n now).scope = row.scope := rfl

theorem totals_getOrCreateUsage (usage : UsageTable) (scope : Scope) (now : Timestamp) :
    ((getOrCreateUsage usage scope now).totalBytes,
      (getOrCreateUsage usage scope now).objectCount) = usageTotals usage scope := by
  unfold getOrCreateUsage usageTotals
  cases usage.find scope <;> rfl

theorem usageTotals_put (usage : UsageTable) (row : StorageUsage) (scope : Scope) :
    usageTotals (usage.put row) scope =
      if scope = row.scope then (row.totalBytes, row.objectCount)
      else usageTotals usage scope := by
  unfold usageTotals
  rw [Table.find_put]
  by_cases h : scope = row.scope <;> simp [h]

/-- Writing a scope's own totals back changes no total. -/
theorem usageTotals_put_same {usage : UsageTable} {row : StorageUsage}
    (h : (row.totalBytes, row.objectCount) = usageTotals usage row.scope) :
    usageTotals (usage.put row) = usageTotals usage := by
  funext scope
  rw [usageTotals_put]
  split
  · rename_i hs
    rw [h, hs]
  · rfl

/-- A reservation leaves the rows of other scopes alone. -/
theorem find_reserve_ne {usage : UsageTable} {scope scope' : Scope} (h : scope' ≠ scope) (n : ℕ)
    (now : Timestamp) :
    (reserveStorageForObject settings usage scope n now).1.find scope' = usage.find scope' := by
  have hput : ∀ row : StorageUsage, row.scope = scope →
      (usage.put row).find scope' = usage.find scope' := fun row hrow => by
    rw [Table.find_put, if_neg (hrow ▸ h)]
  unfold reserveStorageForObject
  dsimp only
  split
  · exact hput _ (scope_getOrCreateUsage usage scope now)
  · exact hput _ ((scope_credit _ n now).trans (scope_getOrCreateUsage usage scope now))

/-- A refused reservation leaves every total where it was. -/
theorem usageTotals_reserve_refused {usage : UsageTable} {scope : Scope} {n : ℕ}
    {now : Timestamp} {reason : UploadRejectReason}
    (h : (reserveStorageForObject settings usage scope n now).2 = some reason) (scope' : Scope) :
    usageTotals (reserveStorageForObject settings usage scope n now).1 scope' =
      usageTotals usage scope' := by
  unfold reserveStorageForObject at h ⊢
  dsimp only at h ⊢
  split at h
  · rw [usageTotals_put_same]
    rw [scope_getOrCreateUsage, totals_getOrCreateUsage]
  · cases h

/-- A granted reservation credits its scope with the object and no other scope. -/
theorem usageTotals_reserve_granted {usage : UsageTable} {scope : Scope} {n : ℕ}
    {now : Timestamp} (h : (reserveStorageForObject settings usage scope n now).2 = none)
    (scope' : Scope) :
    usageTotals (reserveStorageForObject settings usage scope n now).1 scope' =
      usageTotals usage scope' + if scope' = scope then ((n : ℤ), 1) else 0 := by
  unfold reserveStorageForObject at h ⊢
  dsimp only at h ⊢
  split at h
  · cases h
  · rw [usageTotals_put, scope_credit, scope_getOrCreateUsage]
    split
    · rename_i hs
      rw [hs, ← totals_getOrCreateUsage usage scope now]
      rfl
    · rw [add_zero]

theorem usageTotals_recordObjectRemoved (usage : UsageTable) (scope : Scope) (n : ℕ)
    (now : Timestamp) (scope' : Scope) :
    usageTotals (recordObjectRemoved usage scope n now) scope' =
      if scope' = scope then
        (max 0 ((usageTotals usage scope).1 - n), max 0 ((usageTotals usage scope).2 - 1))
      else usageTotals usage scope' := by
  rw [recordObjectRemoved, usageTotals_put, scope_debit, scope_getOrCreateUsage,
    ← totals_getOrCreateUsage usage scope now]
  rfl

end MediaService
