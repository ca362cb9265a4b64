import Mathlib.Algebra.BigOperators.Fin
import MediaService.Concurrency.QuotaRace

/-! The ledger of a scope with one row. While the scope has a row, or a tenant
whose key only one insertion can win, the row's lock puts the credits in order:
each is checked against and added to what the others committed. A debit is
computed from a row read without the lock, so it keeps the ledger where nothing
is committed between the read and the write. -/

namespace MediaService

open Foundation

/-! ### Totals and ceilings -/

/-- Bytes and objects a scope is charged for; nothing without a row. -/
def totalsOf (usage : Option StorageUsage) : ℤ × ℤ :=
  ((usage.map StorageUsage.totalBytes).getD 0, (usage.map StorageUsage.objectCount).getD 0)

def ceilingsOf (settings : Settings) (usage : Option StorageUsage) : Option ℤ × Option ℤ :=
  (effectiveQuotaBytes settings usage, effectiveQuotaObjects settings usage)

/-- Whether totals are within ceilings. -/
def Within (ceilings : Option ℤ × Option ℤ) (totals : ℤ × ℤ) : Prop :=
  exceeds ceilings.1 totals.1 = false ∧ exceeds ceilings.2 totals.2 = false

instance (ceilings : Option ℤ × Option ℤ) (totals : ℤ × ℤ) : Decidable (Within ceilings totals) :=
  inferInstanceAs (Decidable (_ ∧ _))

section Totals

variable {settings : Settings} {scope : Scope}

theorem Within.mono {ceilings : Option ℤ × Option ℤ} {a b : ℤ × ℤ} (hab : a ≤ b)
    (h : Within ceilings b) : Within ceilings a :=
  ⟨exceeds_mono hab.1 h.1, exceeds_mono hab.2 h.2⟩

/-- The check of a reservation, read over totals and ceilings. -/
theorem reserveRefusal_eq_none {row : StorageUsage} {n : ℕ} :
    reserveRefusal settings row n = none ↔
      Within (ceilingsOf settings (some row))
        (totalsOf (some row) + (Transaction.completion n).change) := by
  simp only [reserveRefusal, Within, ceilingsOf, totalsOf, Transaction.change, Option.map_some,
    Option.getD_some, Prod.mk_add_mk]
  cases exceeds (effectiveQuotaBytes settings (some row)) (row.totalBytes + n) with
  | true => simp
  | false =>
    cases exceeds (effectiveQuotaObjects settings (some row)) (row.objectCount + 1) <;> simp

end Totals

/-! ### What is charged -/

/-- What the committed transactions have added to the scope. -/
def charged {ι : Type*} [Fintype ι] (s : UsageRace ι) : ℤ × ℤ := ∑ i, (s.place i).change

/-- Where something is promoted, the scope's totals with it are within its
ceilings; a scope already past one promotes nothing. -/
def QuotaKept (settings : Settings) (initial : Option StorageUsage) (added : ℤ × ℤ) : Prop :=
  0 < added.2 → Within (ceilingsOf settings initial) (totalsOf initial + added)

/-! ### One row -/

section Sole

variable {ι : Type*} {settings : Settings} {scope : Scope}

/-- The scope's committed row. -/
def UsageRows.usage (s : UsageRows ι) : Option StorageUsage := s.rows.head?.map UsageRow.usage

/-- What a transaction stands on while the scope has at most one row: it locked
that row, or it won the key before there was one. -/
def UsagePlace.Stands (scope : Scope) (i : ι) (s : UsageRows ι) : UsagePlace → Prop
  | .select (.completion _) => scope.tenantId = none → s.rows ≠ []
  | .select (.deletion _) | .lock _ _ => s.rows ≠ []
  | .insert _ => scope.tenantId ≠ none
  | .reserve _ none row => s.rows = [] ∧ s.inserter = some i ∧ ∃ now, row = freshUsage scope now
  | .reserve _ (some k) row => k = 0 ∧ s.rows = [⟨row, some i⟩]
  | .debit _ position _ => position = some 0 ∧ s.rows ≠ []
  | .finished _ _ => True

/-- At most one row, and every transaction with something to stand on. -/
structure Sole (scope : Scope) (s : UsageRace ι) : Prop where
  length_le : s.shared.rows.length ≤ 1
  stands : ∀ i, (s.place i).Stands scope i s.shared

/-- What a turn of another transaction leaves of what `j` stands on. -/
structure KeepsStanding (j : ι) (s s' : UsageRows ι) : Prop where
  present : s.rows ≠ [] → s'.rows ≠ []
  locked : ∀ row, s.rows = [⟨row, some j⟩] → s'.rows = [⟨row, some j⟩]
  claimed : s.rows = [] → s.inserter = some j → s'.rows = [] ∧ s'.inserter = some j

theorem KeepsStanding.refl (j : ι) (s : UsageRows ι) : KeepsStanding j s s :=
  ⟨id, fun _ h => h, fun h₁ h₂ => ⟨h₁, h₂⟩⟩

theorem KeepsStanding.stands {j : ι} {s s' : UsageRows ι} (h : KeepsStanding j s s')
    {p : UsagePlace} (hp : p.Stands scope j s) : p.Stands scope j s' := by
  cases p with
  | select tx =>
    cases tx with
    | completion n => exact fun hnull => h.present (hp hnull)
    | deletion n => exact h.present hp
  | lock n found => exact h.present hp
  | insert n => exact hp
  | reserve n position row =>
    cases position with
    | none => exact ⟨(h.claimed hp.1 hp.2.1).1, (h.claimed hp.1 hp.2.1).2, hp.2.2⟩
    | some k => exact ⟨hp.1, h.locked row hp.2⟩
  | debit n position row => exact ⟨hp.1, h.present hp.2⟩
  | finished tx outcome => trivial

theorem rows_cases {s : UsageRows ι} (hlen : s.rows.length ≤ 1) :
    s.rows = [] ∨ ∃ u h, s.rows = [⟨u, h⟩] := by
  rcases hrows : s.rows with _ | ⟨⟨u, h⟩, _ | ⟨r, rs⟩⟩
  · exact .inl rfl
  · exact .inr ⟨u, h, rfl⟩
  · rw [hrows] at hlen
    simp at hlen

theorem UsageRows.usage_nil {s : UsageRows ι} (h : s.rows = []) : s.usage = none := by
  rw [usage, h]
  rfl

theorem UsageRows.usage_singleton {s : UsageRows ι} {u : StorageUsage} {h : Option ι}
    (hrows : s.rows = [⟨u, h⟩]) : s.usage = some u := by
  rw [usage, hrows]
  rfl

variable [DecidableEq ι]

/-- The claim to the unique key that is left once `i` has ended. -/
def claimLeft (i : ι) (s : UsageRows ι) : Option ι :=
  if s.inserter = some i then none else s.inserter

theorem usageStep_lock {i : ι} {s : UsageRows ι} {u : StorageUsage} {h : Option ι}
    (hrows : s.rows = [⟨u, h⟩]) (n found : ℕ) (m : UsageTurn) :
    usageStep settings scope i s (.lock n found) m =
      if m.position = 0 ∧ 0 < found ∧ h.any (· ≠ i) = false then
        (⟨[⟨u, some i⟩], s.inserter⟩, .reserve n (some 0) u)
      else (s, .lock n found) := by
  rcases hpos : m.position with _ | k
  · rcases found with _ | found
    · simp [usageStep, hrows, hpos]
    · simp [usageStep, hrows, hpos, UsageRow.heldByOther, UsageRows.lock]
  · simp [usageStep, hrows, hpos]

theorem usageStep_insert (htenant : scope.tenantId ≠ none) (i : ι) (s : UsageRows ι) (n : ℕ)
    (m : UsageTurn) :
    usageStep settings scope i s (.insert n) m =
      if s.rows ≠ [] then (s, .finished (.completion n) .failed)
      else if s.inserter ≠ none then (s, .insert n)
      else ({ s with inserter := some i }, .reserve n none (freshUsage scope m.now)) := by
  rw [usageStep, if_neg htenant]

/-- A reservation on the locked row leaves that row, credited or as it was. -/
theorem usageStep_reserve_locked {i : ι} {s : UsageRows ι} {row : StorageUsage}
    (hrows : s.rows = [⟨row, some i⟩]) (n : ℕ) (m : UsageTurn) :
    usageStep settings scope i s (.reserve n (some 0) row) m =
      if m.fails then
        (⟨[⟨row, none⟩], claimLeft i s⟩, .finished (.completion n) .failed)
      else if (reserveRefusal settings row n).isSome then
        (⟨[⟨row, none⟩], claimLeft i s⟩, .finished (.completion n) .refused)
      else
        (⟨[⟨row.credit n m.now, none⟩], claimLeft i s⟩, .finished (.completion n) .committed) := by
  cases hfails : m.fails with
  | true => simp [usageStep, hfails, hrows, UsageRows.release, UsageRow.release, claimLeft]
  | false =>
    cases hrefusal : reserveRefusal settings row n <;>
      simp [usageStep, hfails, hrefusal, hrows, UsageRows.store, UsageRows.release,
        UsageRow.release, claimLeft, StorageUsage.write_self, StorageUsage.write_credit]

/-- A reservation on a row of its own leaves that row, unless it fails. -/
theorem usageStep_reserve_own {i : ι} {s : UsageRows ι} (hrows : s.rows = [])
    (row : StorageUsage) (n : ℕ) (m : UsageTurn) :
    usageStep settings scope i s (.reserve n none row) m =
      if m.fails then (⟨[], claimLeft i s⟩, .finished (.completion n) .failed)
      else if (reserveRefusal settings row n).isSome then
        (⟨[⟨row, none⟩], claimLeft i s⟩, .finished (.completion n) .refused)
      else
        (⟨[⟨row.credit n m.now, none⟩], claimLeft i s⟩, .finished (.completion n) .committed) := by
  cases hfails : m.fails with
  | true => simp [usageStep, hfails, hrows, UsageRows.release, claimLeft]
  | false =>
    cases hrefusal : reserveRefusal settings row n <;>
      simp [usageStep, hfails, hrefusal, hrows, UsageRows.store, UsageRows.release, claimLeft]

theorem usageStep_debit {i : ι} {s : UsageRows ι} {u : StorageUsage} {h : Option ι}
    (hrows : s.rows = [⟨u, h⟩]) (row : StorageUsage) (n : ℕ) (m : UsageTurn) :
    usageStep settings scope i s (.debit n (some 0) row) m =
      if m.fails then (s, .finished (.deletion n) .failed)
      else if h.any (· ≠ i) then (s, .debit n (some 0) row)
      else (⟨[⟨(row.debit n m.now).write row u, if h = some i then none else h⟩], claimLeft i s⟩,
        .finished (.deletion n) .committed) := by
  cases hfails : m.fails with
  | true => simp [usageStep, hfails]
  | false =>
    simp [usageStep, hfails, hrows, UsageRow.heldByOther, UsageRows.store, UsageRows.release,
      UsageRow.release, claimLeft]

/-- No turn of one transaction takes what another stands on. -/
theorem usageStep_keeps {i j : ι} (hij : i ≠ j) {s : UsageRows ι} (hlen : s.rows.length ≤ 1)
    {p : UsagePlace} (hp : p.Stands scope i s) (m : UsageTurn) :
    KeepsStanding j s (usageStep settings scope i s p m).1 := by
  have hne : some i ≠ some j := fun he => hij (Option.some.inj he)
  cases p with
  | select tx => exact .refl j s
  | lock n found =>
    obtain ⟨u, h, hrows⟩ := (rows_cases hlen).resolve_left hp
    rw [usageStep_lock hrows]
    split
    · rename_i hfree
      refine ⟨fun _ => by simp, fun row hrow => ?_, fun hnil => by simp [hrows] at hnil⟩
      rw [hrows] at hrow
      cases hrow
      have := hfree.2.2
      simp [hij.symm] at this
    · exact .refl j s
  | insert n =>
    rw [usageStep_insert hp]
    split
    · exact .refl j s
    · split
      · exact .refl j s
      · rename_i hins
        refine ⟨id, fun _ h => h, fun _ hj => ?_⟩
        rw [hj] at hins
        simp at hins
  | reserve n position row =>
    cases position with
    | none =>
      obtain ⟨hrows, hins, -⟩ := hp
      refine ⟨fun h => absurd hrows h, fun _ h => ?_, fun _ hj => ?_⟩
      · rw [hrows] at h
        cases h
      · exact absurd (hins.symm.trans hj) hne
    | some k =>
      obtain ⟨rfl, hrows⟩ := hp
      refine ⟨fun _ => ?_, fun row' h => ?_, fun h => ?_⟩
      · rw [usageStep_reserve_locked hrows]
        split <;> [simp; split <;> simp]
      · rw [hrows] at h
        cases h
        exact absurd rfl hij
      · rw [hrows] at h
        cases h
  | debit n position row =>
    obtain ⟨rfl, hpresent⟩ := hp
    obtain ⟨u, h, hrows⟩ := (rows_cases hlen).resolve_left hpresent
    rw [usageStep_debit hrows]
    split
    · exact .refl j s
    · split
      · exact .refl j s
      · rename_i hfree
        refine ⟨fun _ => by simp, fun row' hrow => ?_, fun hnil => absurd hnil hpresent⟩
        rw [hrows] at hrow
        cases hrow
        simp [hij.symm] at hfree
  | finished tx outcome => exact .refl j s

/-- A transaction stays what it is. -/
theorem usageStep_tx (i : ι) (s : UsageRows ι) (p : UsagePlace) (m : UsageTurn) :
    (usageStep settings scope i s p m).2.tx = p.tx := by
  cases p with
  | select tx =>
    cases tx with
    | completion n =>
      simp only [usageStep, selectStep]
      split <;> rfl
    | deletion n =>
      simp only [usageStep, selectStep]
      split
      · rfl
      · split <;> rfl
  | lock n found =>
    simp only [usageStep]
    split
    · split <;> rfl
    · rfl
  | insert n =>
    simp only [usageStep]
    split_ifs <;> rfl
  | reserve n position row =>
    simp only [usageStep]
    split_ifs
    · rfl
    · split <;> rfl
  | debit n position row =>
    cases position <;>
    · simp only [usageStep]
      split_ifs <;> rfl
  | finished tx outcome => rfl

/-- No row goes. -/
theorem usageStep_length_le (i : ι) (s : UsageRows ι) (p : UsagePlace) (m : UsageTurn) :
    s.rows.length ≤ (usageStep settings scope i s p m).1.rows.length := by
  have hrelease : (s.release i).rows.length = s.rows.length := List.length_map _
  have hstore : ∀ position read new,
      s.rows.length ≤ (s.store i position read new).rows.length := by
    intro position read new
    cases position with
    | none => simp [UsageRows.store, hrelease]
    | some k => simp [UsageRows.store, UsageRows.release]
  cases p with
  | lock n found =>
    simp only [usageStep]
    split
    · split
      · simp only [UsageRows.lock, List.length_append, List.length_map, List.length_take,
          List.length_drop]
        omega
      · exact le_refl _
    · exact le_refl _
  | insert n =>
    simp only [usageStep]
    split_ifs <;> exact le_refl _
  | reserve n position row =>
    simp only [usageStep]
    split
    · rw [hrelease]
    · split <;> exact hstore _ _ _
  | debit n position row =>
    cases position <;>
    · simp only [usageStep]
      split_ifs <;> first | exact le_refl _ | exact hstore _ _ _
  | _ => exact le_refl _

/-- A turn leaves at most one row, and the transaction with something to stand on. -/
theorem usageStep_stands {i : ι} {s : UsageRows ι} (hlen : s.rows.length ≤ 1) {p : UsagePlace}
    (hp : p.Stands scope i s) (m : UsageTurn) :
    (usageStep settings scope i s p m).1.rows.length ≤ 1 ∧
      (usageStep settings scope i s p m).2.Stands scope i (usageStep settings scope i s p m).1 := by
  cases p with
  | select tx =>
    refine ⟨hlen, ?_⟩
    cases tx with
    | completion n =>
      simp only [usageStep, selectStep]
      split
      · rename_i hnil
        exact fun hnull => hp hnull hnil
      · assumption
    | deletion n =>
      simp only [usageStep, selectStep]
      split
      · rename_i r hr
        obtain ⟨hlt, -⟩ := List.getElem?_eq_some_iff.mp hr
        exact ⟨by rw [show m.position = 0 by omega], hp⟩
      · rw [if_neg hp]
        exact hp
  | lock n found =>
    obtain ⟨u, h, hrows⟩ := (rows_cases hlen).resolve_left hp
    rw [usageStep_lock hrows]
    split
    · exact ⟨Nat.le_refl 1, rfl, rfl⟩
    · exact ⟨hlen, hp⟩
  | insert n =>
    rw [usageStep_insert hp]
    split
    · exact ⟨hlen, trivial⟩
    · rename_i hnil
      split
      · exact ⟨hlen, hp⟩
      · exact ⟨hlen, not_not.mp hnil, rfl, m.now, rfl⟩
  | reserve n position row =>
    cases position with
    | none =>
      rw [usageStep_reserve_own hp.1]
      split_ifs <;> exact ⟨by simp, trivial⟩
    | some k =>
      obtain ⟨rfl, hrows⟩ := hp
      rw [usageStep_reserve_locked hrows]
      split_ifs <;> exact ⟨by simp, trivial⟩
  | debit n position row =>
    obtain ⟨rfl, hpresent⟩ := hp
    obtain ⟨u, h, hrows⟩ := (rows_cases hlen).resolve_left hpresent
    rw [usageStep_debit hrows]
    split
    · exact ⟨hlen, trivial⟩
    · split
      · exact ⟨hlen, rfl, hpresent⟩
      · exact ⟨Nat.le_refl 1, trivial⟩
  | finished tx outcome => exact ⟨hlen, trivial⟩

theorem Sole.turn {s : UsageRace ι} (hs : Sole scope s) (m : ι × UsageTurn) :
    Sole scope (usageTurn settings scope s m) := by
  have hinv : (usageTurn settings scope s m).shared.rows.length ≤ 1 ∧ ∀ i,
      ((usageTurn settings scope s m).place i).Stands scope i
        (usageTurn settings scope s m).shared :=
    turn_inv (G := fun s => s.rows.length ≤ 1) (L := fun i s (p : UsagePlace) => p.Stands scope i s)
      (fun _ _ _ m hlen hp => (usageStep_stands hlen hp m).1)
      (fun _ _ _ m hlen hp => (usageStep_stands hlen hp m).2)
      (fun _ _ _ _ _ m hij hlen hp hq => (usageStep_keeps hij hlen hp m).stands hq)
      ⟨hs.length_le, hs.stands⟩ m
  exact ⟨hinv.1, hinv.2⟩

/-! ### What a turn adds -/

/-- What a turn does to the totals: nothing, or it commits the credit of a size
that fits, or a debit computed from the row as it was read. -/
inductive UsageEffect (settings : Settings) (s : UsageRows ι) (p : UsagePlace) (m : UsageTurn)
    (s' : UsageRows ι) (p' : UsagePlace) : Prop
  | quiet (totals : totalsOf s'.usage = totalsOf s.usage) (change : p'.change = p.change)
  | credited (n : ℕ) (tx : p.tx = .completion n) (before : p.change = 0)
      (after : p'.change = (Transaction.completion n).change)
      (totals : totalsOf s'.usage = totalsOf s.usage + (Transaction.completion n).change)
      (within : Within (ceilingsOf settings s.usage) (totalsOf s'.usage))
  | debited (n : ℕ) (row u : StorageUsage) (place : p = .debit n (some 0) row)
      (after : p'.change = (Transaction.deletion n).change) (read : s.usage = some u)
      (written : s'.usage = some ((row.debit n m.now).write row u))

theorem usageStep_effect (settings : Settings) {i : ι} {s : UsageRows ι}
    (hlen : s.rows.length ≤ 1) {p : UsagePlace}
    (hp : p.Stands scope i s) (m : UsageTurn) :
    UsageEffect settings s p m (usageStep settings scope i s p m).1
        (usageStep settings scope i s p m).2 ∧
      ceilingsOf settings (usageStep settings scope i s p m).1.usage =
        ceilingsOf settings s.usage := by
  cases p with
  | select tx =>
    refine ⟨.quiet rfl ?_, rfl⟩
    cases tx with
    | completion n =>
      simp only [usageStep, selectStep]
      split <;> rfl
    | deletion n =>
      simp only [usageStep, selectStep]
      split
      · rfl
      · split <;> rfl
  | lock n found =>
    obtain ⟨u, h, hrows⟩ := (rows_cases hlen).resolve_left hp
    have husage := UsageRows.usage_singleton hrows
    rw [usageStep_lock hrows]
    split
    · exact ⟨.quiet (by rw [husage]; rfl) rfl, by rw [husage]; rfl⟩
    · exact ⟨.quiet rfl rfl, rfl⟩
  | insert n =>
    rw [usageStep_insert hp]
    split_ifs <;> exact ⟨.quiet rfl rfl, rfl⟩
  | reserve n position row =>
    cases position with
    | none =>
      obtain ⟨hrows, -, now, rfl⟩ := hp
      have husage := UsageRows.usage_nil hrows
      rw [usageStep_reserve_own hrows]
      split
      · exact ⟨.quiet (by rw [husage]; rfl) rfl, by rw [husage]; rfl⟩
      · split
        · exact ⟨.quiet (by rw [husage]; rfl) rfl, by rw [husage]; rfl⟩
        · rename_i hfits
          rw [Option.not_isSome_iff_eq_none] at hfits
          exact ⟨.credited n rfl rfl rfl (by rw [husage]; rfl)
            (by rw [husage]; exact reserveRefusal_eq_none.mp hfits), by rw [husage]; rfl⟩
    | some k =>
      obtain ⟨rfl, hrows⟩ := hp
      have husage := UsageRows.usage_singleton hrows
      rw [usageStep_reserve_locked hrows]
      split
      · exact ⟨.quiet (by rw [husage]; rfl) rfl, by rw [husage]; rfl⟩
      · split
        · exact ⟨.quiet (by rw [husage]; rfl) rfl, by rw [husage]; rfl⟩
        · rename_i hfits
          rw [Option.not_isSome_iff_eq_none] at hfits
          exact ⟨.credited n rfl rfl rfl (by rw [husage]; rfl)
            (by rw [husage]; exact reserveRefusal_eq_none.mp hfits), by rw [husage]; rfl⟩
  | debit n position row =>
    obtain ⟨rfl, hpresent⟩ := hp
    obtain ⟨u, h, hrows⟩ := (rows_cases hlen).resolve_left hpresent
    have husage := UsageRows.usage_singleton hrows
    rw [usageStep_debit hrows]
    split
    · exact ⟨.quiet rfl rfl, rfl⟩
    · split
      · exact ⟨.quiet rfl rfl, rfl⟩
      · exact ⟨.debited n row u rfl rfl husage rfl, by rw [husage]; rfl⟩
  | finished tx outcome => exact ⟨.quiet rfl rfl, rfl⟩

/-- A deletion holds the row as the statement returned it. -/
theorem usageStep_reads {i : ι} {s : UsageRows ι} (hlen : s.rows.length ≤ 1) {p : UsagePlace}
    (hp : p.Stands scope i s) {m : UsageTurn} {n : ℕ} {position : Option ℕ} {row : StorageUsage}
    (h : (usageStep settings scope i s p m).2 = .debit n position row) :
    p = .debit n position row ∨ p = .select (.deletion n) ∧ s.usage = some row := by
  cases p with
  | select tx =>
    cases tx with
    | completion k =>
      simp only [usageStep, selectStep] at h
      split at h <;> cases h
    | deletion k =>
      obtain ⟨u, holder, hrows⟩ := (rows_cases hlen).resolve_left hp
      simp only [usageStep, selectStep] at h
      split at h
      · rename_i r hr
        cases h
        refine .inr ⟨rfl, ?_⟩
        obtain ⟨hlt, rfl⟩ := List.getElem?_eq_some_iff.mp hr
        simp [UsageRows.usage, hrows]
      · rw [if_neg hp] at h
        cases h
  | lock k found =>
    obtain ⟨u, holder, hrows⟩ := (rows_cases hlen).resolve_left hp
    rw [usageStep_lock hrows] at h
    split at h <;> cases h
  | insert k =>
    rw [usageStep_insert hp] at h
    split_ifs at h
  | reserve k found u =>
    simp only [usageStep] at h
    split at h
    · cases h
    · split at h <;> cases h
  | debit k found u =>
    refine .inl ?_
    obtain ⟨rfl, hpresent⟩ := hp
    obtain ⟨v, holder, hrows⟩ := (rows_cases hlen).resolve_left hpresent
    rw [usageStep_debit hrows] at h
    split at h
    · cases h
    · split at h
      · exact h
      · cases h
  | finished tx outcome => cases h

end Sole

/-! ### The ledger of a run -/

section Ledger

variable {ι : Type*} [Fintype ι] [DecidableEq ι] {settings : Settings} {scope : Scope}
  {initial : Option StorageUsage} {txs : ι → Transaction}

/-- What is asked of the transactions: at most one deletion, and beside one no
completion that fits the row as the run finds it. -/
structure LoneDeletion (settings : Settings) (initial : Option StorageUsage)
    (txs : ι → Transaction) : Prop where
  one_deletion : ∀ i j m n, txs i = .deletion m → txs j = .deletion n → i = j
  no_credit : ∀ i j m n, txs i = .deletion m → txs j = .completion n →
    ¬ Within (ceilingsOf settings initial) (totalsOf initial + (txs j).change)

/-- The row's totals are what the scope had and what was committed since, within
the ceilings; and until a deletion commits, that is nothing. -/
structure Ledger (settings : Settings) (scope : Scope) (initial : Option StorageUsage)
    (txs : ι → Transaction) (s : UsageRace ι) : Prop where
  sole : Sole scope s
  present : initial ≠ none → s.shared.rows ≠ []
  tx : ∀ i, (s.place i).tx = txs i
  totals : totalsOf s.shared.usage = totalsOf initial + charged s
  ceilings : ceilingsOf settings s.shared.usage = ceilingsOf settings initial
  kept : QuotaKept settings initial (charged s)
  untouched : ∀ i n, txs i = .deletion n → (s.place i).change = 0 → charged s = 0
  reads : ∀ i n position row, s.place i = .debit n position row →
    totalsOf (some row) = totalsOf initial

theorem charged_turn (settings : Settings) (scope : Scope) (s : UsageRace ι) (i : ι)
    (m : UsageTurn) :
    charged (usageTurn settings scope s (i, m)) =
      charged s + ((usageStep settings scope i s.shared (s.place i) m).2.change -
        (s.place i).change) :=
  sum_place_turn UsagePlace.change s i m

/-- A debit of what was read, where that is what still stands. -/
theorem totalsOf_write_debit {row u : StorageUsage} {n : ℕ} {now : Timestamp}
    (hread : totalsOf (some row) = totalsOf (some u))
    (hclamp : ((n : ℤ), (1 : ℤ)) ≤ totalsOf (some u)) :
    totalsOf (some ((row.debit n now).write row u)) =
      totalsOf (some u) + (Transaction.deletion n).change := by
  obtain ⟨hbytes, hcount⟩ := Prod.mk.inj hread
  simp only [Option.map_some, Option.getD_some] at hbytes hcount
  obtain ⟨hn, hone⟩ := hclamp
  simp only [totalsOf, Option.map_some, Option.getD_some] at hn hone
  simp only [totalsOf, Transaction.change, StorageUsage.write, StorageUsage.debit, hbytes, hcount,
    column_self, Option.map_some, Option.getD_some, Prod.mk_add_mk, Prod.mk.injEq]
  omega

theorem Ledger.turn (hlone : LoneDeletion settings initial txs)
    (hclamp : ∀ i n, txs i = .deletion n → ((n : ℤ), (1 : ℤ)) ≤ totalsOf initial)
    {s : UsageRace ι} (hs : Ledger settings scope initial txs s) (m : ι × UsageTurn) :
    Ledger settings scope initial txs (usageTurn settings scope s m) := by
  obtain ⟨i, m⟩ := m
  have hstands := hs.sole.stands i
  have hlen := hs.sole.length_le
  obtain ⟨heffect, hceilings⟩ := usageStep_effect settings hlen hstands m
  have hcharged := charged_turn settings scope s i m
  have htx : ∀ j, ((usageTurn settings scope s (i, m)).place j).tx = txs j := by
    intro j
    by_cases hj : j = i
    · subst hj
      rw [usageTurn, turn_place_self, ← hs.tx j]
      exact usageStep_tx j s.shared (s.place j) m
    · rw [usageTurn, turn_place_ne s hj]
      exact hs.tx j
  have hreads : ∀ j n position row,
      (usageTurn settings scope s (i, m)).place j = .debit n position row →
        totalsOf (some row) = totalsOf initial := by
    intro j n position row hplace
    by_cases hj : j = i
    · subst hj
      rw [usageTurn, turn_place_self] at hplace
      rcases usageStep_reads hlen hstands hplace with hold | ⟨hselect, husage⟩
      · exact hs.reads j n position row hold
      · have htxj := hs.tx j
        rw [hselect] at htxj
        have hzero := hs.untouched j n htxj.symm (by rw [hselect]; rfl)
        rw [← husage, hs.totals, hzero, add_zero]
    · rw [usageTurn, turn_place_ne s hj] at hplace
      exact hs.reads j n position row hplace
  have hother : ∀ j, j ≠ i → (usageTurn settings scope s (i, m)).place j = s.place j :=
    fun j hj => turn_place_ne s hj m
  have hown : ((usageTurn settings scope s (i, m)).place i) =
      (usageStep settings scope i s.shared (s.place i) m).2 := turn_place_self s i m
  have hsole : Sole scope (usageTurn settings scope s (i, m)) := hs.sole.turn _
  have hpresent : initial ≠ none → (usageTurn settings scope s (i, m)).shared.rows ≠ [] := by
    intro hinitial
    have hle : s.shared.rows.length ≤ (usageTurn settings scope s (i, m)).shared.rows.length :=
      usageStep_length_le i s.shared (s.place i) m
    have hpos := List.length_pos_iff.mpr (hs.present hinitial)
    exact List.length_pos_iff.mp (by omega)
  have hceilings' : ceilingsOf settings (usageTurn settings scope s (i, m)).shared.usage =
      ceilingsOf settings initial := hceilings.trans hs.ceilings
  cases heffect with
  | quiet htotals hchange =>
    have hsame : charged (usageTurn settings scope s (i, m)) = charged s := by
      rw [hcharged, hchange, sub_self, add_zero]
    refine ⟨hsole, hpresent, htx, ?_, hceilings', by rw [hsame]; exact hs.kept, ?_, hreads⟩
    · rw [hsame, ← hs.totals]
      exact htotals
    · intro j n hj hzero
      rw [hsame]
      by_cases hji : j = i
      · subst hji
        rw [hown, hchange] at hzero
        exact hs.untouched j n hj hzero
      · rw [hother j hji] at hzero
        exact hs.untouched j n hj hzero
  | credited n htxi hbefore hafter htotals hwithin =>
    have hadd : charged (usageTurn settings scope s (i, m)) =
        charged s + (Transaction.completion n).change := by
      rw [hcharged, hafter, hbefore, sub_zero]
    rw [hs.tx i] at htxi
    rw [htotals, hs.ceilings, hs.totals, add_assoc] at hwithin
    refine ⟨hsole, hpresent, htx, ?_, hceilings', by rw [hadd]; exact fun _ => hwithin, ?_, hreads⟩
    · rw [hadd, ← add_assoc, ← hs.totals]
      exact htotals
    · intro j k hj hzero
      have hji : j ≠ i := by
        rintro rfl
        rw [htxi] at hj
        cases hj
      rw [hother j hji] at hzero
      rw [hs.untouched j k hj hzero, zero_add, ← htxi] at hwithin
      exact absurd hwithin (hlone.no_credit j i k n hj htxi)
  | debited n row u hplace hafter hread hwritten =>
    have htxi := hs.tx i
    rw [hplace] at htxi
    have hzero := hs.untouched i n htxi.symm (by rw [hplace]; rfl)
    have hadd : charged (usageTurn settings scope s (i, m)) = (Transaction.deletion n).change := by
      rw [hcharged, hafter, hplace, hzero, zero_add]
      exact sub_zero _
    have hu : totalsOf (some u) = totalsOf initial := by
      rw [← hread, hs.totals, hzero, add_zero]
    refine ⟨hsole, hpresent, htx, ?_, hceilings', ?_, ?_, hreads⟩
    · rw [hadd]
      refine (congrArg totalsOf hwritten).trans ?_
      rw [totalsOf_write_debit ((hs.reads i n _ row hplace).trans hu.symm)
        (by rw [hu]; exact hclamp i n htxi.symm), hu]
    · rw [hadd]
      intro hpos
      exact absurd hpos (by decide : ¬ (0 : ℤ) < -1)
    · intro j k hj hzero'
      have hji : j = i := hlone.one_deletion j i k n hj htxi.symm
      rw [hji, hown, hafter] at hzero'
      exact absurd (congrArg Prod.snd hzero') (by decide : ¬ (-1 : ℤ) = 0)

/-- Throughout every run the row's totals are what was committed. -/
theorem ledger_run (hlone : LoneDeletion settings initial txs)
    (hclamp : ∀ i n, txs i = .deletion n → ((n : ℤ), (1 : ℤ)) ≤ totalsOf initial)
    (hrow : scope.tenantId = none → initial ≠ none)
    (hdeletion : ∀ i n, txs i = .deletion n → initial ≠ none) (ms : List (ι × UsageTurn)) :
    Ledger settings scope initial txs
      (run (usageTurn settings scope) (usageStart initial txs) ms) := by
  refine (always_of_inv (I := Ledger settings scope initial txs)
    (fun s m hs => hs.turn hlone hclamp m) ?_ ms).last
  have hzero : charged (usageStart initial txs) = 0 := Finset.sum_eq_zero fun i _ => rfl
  have husage : (usageStart initial txs).shared.usage = initial := by
    cases initial <;> rfl
  have hpresent : initial ≠ none → (usageStart initial txs).shared.rows ≠ [] := by
    intro h
    cases initial with
    | none => exact absurd rfl h
    | some u => simp [usageStart]
  refine ⟨⟨?_, fun i => ?_⟩, hpresent, fun i => rfl, by rw [hzero, add_zero, husage],
    by rw [husage], ?_,
    fun _ _ _ _ => hzero, fun i n position row h => by cases h⟩
  · cases initial <;> simp [usageStart]
  · show UsagePlace.Stands scope i _ (.select (txs i))
    cases htx : txs i with
    | completion n => exact fun hnull => hpresent (hrow hnull)
    | deletion n => exact hpresent (hdeletion i n htx)
  · rw [hzero]
    exact fun h => absurd h (lt_irrefl _)

end Ledger

end MediaService
