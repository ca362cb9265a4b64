import Mathlib.Algebra.BigOperators.Group.Finset.Piecewise
import MediaService.Core.Quotas
import MediaService.Foundation.Interleaving

/-! The usage row of one scope under concurrent transactions. A completion finds
the row `FOR UPDATE`, or creates it where its statement found none, checks the
actual size against the ceilings and credits it; a deletion reads the row without
a lock and debits it. Both write back what they computed from what they read, at
the commit. A statement sees committed rows only; `FOR UPDATE` waits for the rows
it found and reads them again; the unique constraint waits for another's row that
is not committed yet and refuses a second one, but a null tenant is distinct from
every other. -/

namespace MediaService

open Foundation

/-! ### Transactions -/

inductive Transaction where
  | completion (sizeBytes : ℕ)
  | deletion (sizeBytes : ℕ)
  deriving DecidableEq

/-- Bytes and objects a committed transaction adds to its scope. -/
def Transaction.change : Transaction → ℤ × ℤ
  | completion n => (n, 1)
  | deletion n => (-n, -1)

/-- How a transaction ends: committed, rejected over quota, or rolled back. -/
inductive Outcome where
  | committed
  | refused
  | failed
  deriving DecidableEq

/-- What a transaction does next, with the row it read; `none` for the row's
position is a row of its own that no other transaction sees yet. -/
inductive UsagePlace where
  | select (tx : Transaction)
  | lock (sizeBytes : ℕ) (found : ℕ)
  | insert (sizeBytes : ℕ)
  | reserve (sizeBytes : ℕ) (position : Option ℕ) (row : StorageUsage)
  | debit (sizeBytes : ℕ) (position : Option ℕ) (row : StorageUsage)
  | finished (tx : Transaction) (outcome : Outcome)
  deriving DecidableEq

namespace UsagePlace

def tx : UsagePlace → Transaction
  | select tx | finished tx _ => tx
  | lock n _ | insert n | reserve n _ _ => .completion n
  | debit n _ _ => .deletion n

/-- What the transaction has added to the scope so far. -/
def change : UsagePlace → ℤ × ℤ
  | finished tx .committed => tx.change
  | _ => 0

end UsagePlace

/-! ### The rows of the scope -/

/-- A committed row and the transaction that holds its lock. -/
structure UsageRow (ι : Type*) where
  usage : StorageUsage
  holder : Option ι

/-- The committed rows, and the transaction whose uncommitted row the unique
constraint makes others wait for. -/
structure UsageRows (ι : Type*) where
  rows : List (UsageRow ι)
  inserter : Option ι

/-- One turn of a transaction: the position of the row that the database returns
first, the time, and whether the commit fails. -/
structure UsageTurn where
  position : ℕ
  now : Timestamp
  fails : Bool

/-- The columns that changed against the row as it was read. -/
def StorageUsage.write (new read current : StorageUsage) : StorageUsage :=
  { current with
    totalBytes := column new.totalBytes read.totalBytes current.totalBytes
    objectCount := column new.objectCount read.objectCount current.objectCount
    updatedAt := column new.updatedAt read.updatedAt current.updatedAt }

section Rows

variable {ι : Type*} [DecidableEq ι]

/-- Whether the row is locked by another transaction. -/
def UsageRow.heldByOther (i : ι) (r : UsageRow ι) : Bool := r.holder.any (· ≠ i)

def UsageRow.release (i : ι) (r : UsageRow ι) : UsageRow ι :=
  { r with holder := if r.holder = some i then none else r.holder }

namespace UsageRows

variable (s : UsageRows ι) (i : ι)

/-- Lock the first `found` rows. -/
def lock (found : ℕ) : UsageRows ι :=
  { s with rows :=
      (s.rows.take found).map (fun r => { r with holder := some i }) ++ s.rows.drop found }

/-- The end of a transaction: its locks and its claim to the unique key are gone. -/
def release : UsageRows ι where
  rows := s.rows.map (UsageRow.release i)
  inserter := if s.inserter = some i then none else s.inserter

/-- The commit of a transaction that read `read` at the position and made it `new`. -/
def store (position : Option ℕ) (read new : StorageUsage) : UsageRows ι :=
  match position with
  | some k =>
    ({ s with rows := s.rows.modify k fun r => { r with usage := new.write read r.usage } } :
      UsageRows ι).release i
  | none => { s.release i with rows := (s.release i).rows ++ [⟨new, none⟩] }

end UsageRows

/-! ### Steps -/

variable (settings : Settings) (scope : Scope)

/-- `_lock_or_create_usage`'s statement, and `get_or_create_usage`'s. -/
def selectStep (s : UsageRows ι) (tx : Transaction) (m : UsageTurn) : UsagePlace :=
  match tx with
  | .completion n => if s.rows = [] then .insert n else .lock n s.rows.length
  | .deletion n =>
    match s.rows[m.position]? with
    | some r => .debit n (some m.position) r.usage
    | none => if s.rows = [] then .debit n none (freshUsage scope m.now) else .select tx

/-- One turn of a transaction; a turn in which it has to wait changes nothing. -/
def usageStep (i : ι) (s : UsageRows ι) : UsagePlace → UsageTurn → UsageRows ι × UsagePlace
  | .select tx, m => (s, selectStep scope s tx m)
  | .lock n found, m =>
    match s.rows[m.position]? with
    | some r =>
      if m.position < found ∧ (s.rows.take found).any (UsageRow.heldByOther i) = false then
        (s.lock i found, .reserve n (some m.position) r.usage)
      else (s, .lock n found)
    | none => (s, .lock n found)
  | .insert n, m =>
    if scope.tenantId = none then (s, .reserve n none (freshUsage scope m.now))
    else if s.rows ≠ [] then (s, .finished (.completion n) .failed)
    else if s.inserter ≠ none then (s, .insert n)
    else ({ s with inserter := some i }, .reserve n none (freshUsage scope m.now))
  | .reserve n position row, m =>
    if m.fails then (s.release i, .finished (.completion n) .failed)
    else
      match reserveRefusal settings row n with
      | some _ => (s.store i position row row, .finished (.completion n) .refused)
      | none => (s.store i position row (row.credit n m.now), .finished (.completion n) .committed)
  | .debit n position row, m =>
    if m.fails then (s, .finished (.deletion n) .failed)
    else
      match position with
      | some k =>
        if s.rows[k]?.any (UsageRow.heldByOther i) then (s, .debit n position row)
        else (s.store i position row (row.debit n m.now), .finished (.deletion n) .committed)
      | none =>
        if scope.tenantId = none then
          (s.store i none row (row.debit n m.now), .finished (.deletion n) .committed)
        else if s.rows ≠ [] then (s, .finished (.deletion n) .failed)
        else if s.inserter ≠ none then (s, .debit n position row)
        else (s.store i none row (row.debit n m.now), .finished (.deletion n) .committed)
  | .finished tx outcome, _ => (s, .finished tx outcome)

/-! ### One transaction alone -/

section Alone

variable {settings : Settings} {scope : Scope}

theorem StorageUsage.write_self (row : StorageUsage) : row.write row row = row := by
  simp only [StorageUsage.write, column_self]

theorem StorageUsage.write_credit (row : StorageUsage) (n : ℕ) (now : Timestamp) :
    (row.credit n now).write row row = row.credit n now := by
  simp only [StorageUsage.write, column_self]
  rfl

theorem StorageUsage.write_debit (row : StorageUsage) (n : ℕ) (now : Timestamp) :
    (row.debit n now).write row row = row.debit n now := by
  simp only [StorageUsage.write, column_self]
  rfl

/-- The scope's row in a usage table, unlocked. -/
def usageRows (ι : Type*) (usage : UsageTable) (scope : Scope) : UsageRows ι :=
  ⟨(usage.find scope).toList.map fun u => ⟨u, none⟩, none⟩

omit [DecidableEq ι] in
theorem usageRows_put (usage : UsageTable) {row : StorageUsage} (hrow : row.scope = scope) :
    usageRows ι (usage.put row) scope = ⟨[⟨row, none⟩], none⟩ := by
  rw [usageRows, Table.find_put, if_pos hrow.symm]
  rfl

theorem select_absent (i : ι) (inserter : Option ι) (n : ℕ) (m : UsageTurn) :
    usageStep settings scope i ⟨[], inserter⟩ (.select (.completion n)) m =
      (⟨[], inserter⟩, .insert n) := rfl

theorem select_present (i : ι) (r : UsageRow ι) (inserter : Option ι) (n : ℕ) (m : UsageTurn) :
    usageStep settings scope i ⟨[r], inserter⟩ (.select (.completion n)) m =
      (⟨[r], inserter⟩, .lock n 1) := rfl

theorem lock_present (i : ι) (u : StorageUsage) (inserter : Option ι) (n : ℕ) {m : UsageTurn}
    (hm : m.position = 0) :
    usageStep settings scope i ⟨[⟨u, none⟩], inserter⟩ (.lock n 1) m =
      (⟨[⟨u, some i⟩], inserter⟩, .reserve n (some 0) u) := by
  simp [usageStep, hm, UsageRow.heldByOther, UsageRows.lock]

theorem insert_untenanted (h : scope.tenantId = none) (i : ι) (s : UsageRows ι) (n : ℕ)
    (m : UsageTurn) :
    usageStep settings scope i s (.insert n) m =
      (s, .reserve n none (freshUsage scope m.now)) := by
  rw [usageStep, if_pos h]

theorem insert_tenanted (h : scope.tenantId ≠ none) (i : ι) (n : ℕ) (m : UsageTurn) :
    usageStep settings scope i ⟨[], none⟩ (.insert n) m =
      (⟨[], some i⟩, .reserve n none (freshUsage scope m.now)) := by
  rw [usageStep, if_neg h, if_neg (by simp), if_neg (by simp)]

/-- The last step of a completion, from the row it locked or from its own. -/
theorem alone_reserve (i : ι) {s : UsageRows ι} {position : Option ℕ} {row : StorageUsage}
    (hstore : ∀ new, new.write row row = new →
      s.store i position row new = ⟨[⟨new, none⟩], none⟩)
    {usage : UsageTable} {n : ℕ} {m : UsageTurn} (hm : m.fails = false)
    (hrow : getOrCreateUsage usage scope m.now = row) :
    usageStep settings scope i s (.reserve n position row) m =
      (usageRows ι (reserveStorageForObject settings usage scope n m.now).1 scope,
        .finished (.completion n)
          (if (reserveStorageForObject settings usage scope n m.now).2 = none then .committed
          else .refused)) := by
  have hscope : row.scope = scope := by rw [← hrow, scope_getOrCreateUsage]
  simp only [usageStep, reserveStorageForObject, hrow, hm, Bool.false_eq_true, if_false]
  cases reserveRefusal settings row n with
  | some reason =>
    dsimp only
    rw [hstore row (StorageUsage.write_self row), usageRows_put usage hscope, if_neg (by simp)]
  | none =>
    dsimp only
    rw [hstore _ (StorageUsage.write_credit row n m.now),
      usageRows_put usage ((scope_credit row n m.now).trans hscope), if_pos rfl]

/-- A completion alone is `reserve_storage_for_object`. -/
theorem alone_completion (i : ι) (usage : UsageTable) (n : ℕ) (now : Timestamp) :
    run (fun p m => usageStep settings scope i p.1 p.2 m)
        (usageRows ι usage scope, .select (.completion n)) (List.replicate 3 ⟨0, now, false⟩) =
      (usageRows ι (reserveStorageForObject settings usage scope n now).1 scope,
        .finished (.completion n)
          (if (reserveStorageForObject settings usage scope n now).2 = none then .committed
          else .refused)) := by
  simp only [List.replicate, run_cons, run_nil]
  cases hfind : usage.find scope with
  | none =>
    have hrow : getOrCreateUsage usage scope now = freshUsage scope now := by
      rw [getOrCreateUsage, hfind, Option.getD_none]
    rw [show usageRows ι usage scope = ⟨[], none⟩ by rw [usageRows, hfind]; rfl, select_absent]
    by_cases htenant : scope.tenantId = none
    · rw [insert_untenanted htenant]
      exact alone_reserve i (fun _ _ => rfl) rfl hrow
    · rw [insert_tenanted htenant]
      exact alone_reserve i (fun _ _ => by simp [UsageRows.store, UsageRows.release]) rfl hrow
  | some row =>
    have hrow : getOrCreateUsage usage scope now = row := by
      rw [getOrCreateUsage, hfind, Option.getD_some]
    rw [show usageRows ι usage scope = ⟨[⟨row, none⟩], none⟩ by rw [usageRows, hfind]; rfl,
      select_present, lock_present i row none n rfl]
    refine alone_reserve i (fun new hnew => ?_) rfl hrow
    simp [UsageRows.store, UsageRows.release, UsageRow.release, hnew]

/-- A deletion alone is `record_object_removed`. -/
theorem alone_deletion (i : ι) (usage : UsageTable) (n : ℕ) (now : Timestamp) :
    run (fun p m => usageStep settings scope i p.1 p.2 m)
        (usageRows ι usage scope, .select (.deletion n)) (List.replicate 2 ⟨0, now, false⟩) =
      (usageRows ι (recordObjectRemoved usage scope n now) scope,
        .finished (.deletion n) .committed) := by
  have hscope : ((getOrCreateUsage usage scope now).debit n now).scope = scope := by
    rw [scope_debit, scope_getOrCreateUsage]
  rw [recordObjectRemoved, usageRows_put usage hscope]
  simp only [List.replicate, run_cons, run_nil]
  cases hfind : usage.find scope with
  | none =>
    have hrow : getOrCreateUsage usage scope now = freshUsage scope now := by
      rw [getOrCreateUsage, hfind, Option.getD_none]
    rw [show usageRows ι usage scope = ⟨[], none⟩ by rw [usageRows, hfind]; rfl, hrow]
    by_cases htenant : scope.tenantId = none <;>
      simp [usageStep, selectStep, htenant, UsageRows.store, UsageRows.release]
  | some row =>
    have hrow : getOrCreateUsage usage scope now = row := by
      rw [getOrCreateUsage, hfind, Option.getD_some]
    rw [show usageRows ι usage scope = ⟨[⟨row, none⟩], none⟩ by rw [usageRows, hfind]; rfl, hrow]
    simp [usageStep, selectStep, UsageRow.heldByOther, UsageRows.store, UsageRows.release,
      UsageRow.release, StorageUsage.write_debit]

end Alone

/-! ### Many transactions -/

abbrev UsageRace (ι : Type*) := Parties ι (UsageRows ι) UsagePlace

abbrev usageAct (settings : Settings) (scope : Scope) (i : ι) (s : UsageRows ι) (p : UsagePlace)
    (m : UsageTurn) : UsageRows ι × UsagePlace :=
  usageStep settings scope i s p m

abbrev usageTurn (settings : Settings) (scope : Scope) :
    UsageRace ι → ι × UsageTurn → UsageRace ι :=
  turn (usageAct settings scope)

/-- Before any transaction: the scope's row, where it has one. -/
def usageStart (initial : Option StorageUsage) (txs : ι → Transaction) : UsageRace ι :=
  ⟨⟨initial.toList.map fun u => ⟨u, none⟩, none⟩, fun i => .select (txs i)⟩

end Rows

end MediaService
