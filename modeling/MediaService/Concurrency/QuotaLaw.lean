import Mathlib.Algebra.Order.BigOperators.Group.Finset
import Mathlib.Algebra.Order.Group.Int
import Mathlib.Algebra.Order.Monoid.Prod
import MediaService.Concurrency.QuotaLedger
import MediaService.Scenario

/-! Where concurrent transactions keep the quota and the totals. A scope without
tenant and row gets a row from each completion that looked before the first
commit, each with the whole quota to itself; everywhere else the quota is kept.
The totals are kept unless a deletion stands beside another deletion or beside a
completion that fits: it reads without the lock, and writes over what was
committed since. -/

namespace MediaService

open Foundation

variable {ι : Type*} {settings : Settings} {scope : Scope}

/-! ### The quota -/

def completions (sizes : ι → ℕ) (i : ι) : Transaction := .completion (sizes i)

/-- What the completions add that fit an empty scope on their own. -/
def fitting [Fintype ι] (settings : Settings) (scope : Scope) (sizes : ι → ℕ) : ℤ × ℤ :=
  ∑ i, if reserveRefusal settings (freshUsage scope 0) (sizes i) = none then
    (completions sizes i).change else 0

/-- A row the scope's transactions may have created: no ceilings of its own, and
no debt. -/
structure Plain (u : StorageUsage) : Prop where
  quotaBytes : u.quotaBytes = none
  quotaObjects : u.quotaObjects = none
  totals : 0 ≤ totalsOf (some u)

theorem plain_freshUsage (now : Timestamp) : Plain (freshUsage scope now) :=
  ⟨rfl, rfl, le_refl _⟩

theorem Plain.credit {u : StorageUsage} (h : Plain u) (n : ℕ) (now : Timestamp) :
    Plain (u.credit n now) := by
  refine ⟨h.quotaBytes, h.quotaObjects, ?_⟩
  obtain ⟨hbytes, hcount⟩ := h.totals
  simp only [totalsOf, Option.map_some, Option.getD_some] at hbytes hcount
  constructor
  · simp only [totalsOf, StorageUsage.credit, Option.map_some, Option.getD_some, Prod.fst_zero]
    simp at hbytes
    omega
  · simp only [totalsOf, StorageUsage.credit, Option.map_some, Option.getD_some, Prod.snd_zero]
    simp at hcount
    omega

theorem Plain.write {new read current : StorageUsage} (hnew : Plain new)
    (hcurrent : Plain current) :
    Plain (new.write read current) := by
  refine ⟨hcurrent.quotaBytes, hcurrent.quotaObjects, ?_⟩
  have hcolumn : ∀ a r c : ℤ, 0 ≤ a → 0 ≤ c → 0 ≤ column a r c := by
    intro a r c ha hc
    unfold column
    split <;> assumption
  exact ⟨hcolumn _ _ _ hnew.totals.1 hcurrent.totals.1,
    hcolumn _ _ _ hnew.totals.2 hcurrent.totals.2⟩

/-- What fits beside others fits alone. -/
theorem Plain.fits {u : StorageUsage} (h : Plain u) {n : ℕ}
    (hfits : reserveRefusal settings u n = none) :
    reserveRefusal settings (freshUsage scope 0) n = none := by
  have hceilings : ceilingsOf settings (some u) = ceilingsOf settings none := by
    simp only [ceilingsOf, effectiveQuotaBytes, effectiveQuotaObjects, Option.bind_some,
      Option.bind_none, h.quotaBytes, h.quotaObjects]
  rw [reserveRefusal_eq_none, hceilings] at hfits
  exact reserveRefusal_eq_none.mpr (hfits.mono (add_le_add_left h.totals _))

/-- A completion that has gone by plain rows only. -/
def UsagePlace.Plainly (settings : Settings) (scope : Scope) : UsagePlace → Prop
  | .reserve _ _ row => Plain row
  | .finished (.completion n) .committed => reserveRefusal settings (freshUsage scope 0) n = none
  | _ => True

section Rows

variable [DecidableEq ι] {s : UsageRows ι}

theorem plain_release (hs : ∀ r ∈ s.rows, Plain r.usage) (i : ι) :
    ∀ r ∈ (s.release i).rows, Plain r.usage := by
  intro r hr
  obtain ⟨q, hq, rfl⟩ := List.mem_map.mp hr
  exact hs q hq

theorem plain_store (hs : ∀ r ∈ s.rows, Plain r.usage) (i : ι) (position : Option ℕ)
    (read : StorageUsage) {new : StorageUsage} (hnew : Plain new) :
    ∀ r ∈ (s.store i position read new).rows, Plain r.usage := by
  cases position with
  | none =>
    intro r hr
    rcases List.mem_append.mp hr with hr | hr
    · exact plain_release hs i r hr
    · rw [List.mem_singleton.mp hr]
      exact hnew
  | some k =>
    refine plain_release (fun r hr => ?_) i
    obtain ⟨j, hj⟩ := List.mem_iff_getElem?.mp hr
    rw [List.getElem?_modify] at hj
    obtain ⟨q, hq, rfl⟩ := Option.map_eq_some_iff.mp hj
    have hplain := hs q (List.mem_of_getElem? hq)
    split
    · exact hnew.write hplain
    · exact hplain

/-- A completion's turn keeps every row plain, and the completion as well. -/
theorem plain_step (hs : ∀ r ∈ s.rows, Plain r.usage) (i : ι) {p : UsagePlace} {k : ℕ}
    (htx : p.tx = .completion k) (hp : p.Plainly settings scope) (m : UsageTurn) :
    (∀ r ∈ (usageStep settings scope i s p m).1.rows, Plain r.usage) ∧
      (usageStep settings scope i s p m).2.Plainly settings scope := by
  cases p with
  | select tx =>
    cases htx
    refine ⟨hs, ?_⟩
    simp only [usageStep, selectStep]
    split <;> trivial
  | lock n found =>
    simp only [usageStep]
    split
    · rename_i r hr
      split
      · refine ⟨fun q hq => ?_, hs r (List.mem_of_getElem? hr)⟩
        rcases List.mem_append.mp hq with hq | hq
        · obtain ⟨q', hq', rfl⟩ := List.mem_map.mp hq
          exact hs q' (List.mem_of_mem_take hq')
        · exact hs q (List.mem_of_mem_drop hq)
      · exact ⟨hs, trivial⟩
    · exact ⟨hs, trivial⟩
  | insert n =>
    simp only [usageStep]
    split_ifs
    · exact ⟨hs, plain_freshUsage m.now⟩
    · exact ⟨hs, trivial⟩
    · exact ⟨hs, trivial⟩
    · exact ⟨hs, plain_freshUsage m.now⟩
  | reserve n position row =>
    simp only [usageStep]
    split
    · exact ⟨plain_release hs i, trivial⟩
    · split
      · exact ⟨plain_store hs i position row hp, trivial⟩
      · rename_i hfits
        exact ⟨plain_store hs i position row (Plain.credit hp n m.now), Plain.fits hp hfits⟩
  | debit n position row => cases htx
  | finished tx outcome => exact ⟨hs, hp⟩

end Rows

variable [Fintype ι] [DecidableEq ι]

/-- Without a row to start from, nothing is added that would not fit alone. -/
theorem charged_le_fitting (sizes : ι → ℕ) (ms : List (ι × UsageTurn)) :
    charged (run (usageTurn settings scope) (usageStart none (completions sizes)) ms) ≤
      fitting settings scope sizes := by
  let I : UsageRace ι → Prop := fun s => (∀ r ∈ s.shared.rows, Plain r.usage) ∧ ∀ i,
    (s.place i).tx = completions sizes i ∧ (s.place i).Plainly settings scope
  have hturn : ∀ s m, I s → I (usageTurn settings scope s m) := fun s m hs =>
    turn_inv (G := fun s => ∀ r ∈ s.rows, Plain r.usage)
      (L := fun i _ (p : UsagePlace) => p.tx = completions sizes i ∧ p.Plainly settings scope)
      (fun i _ _ m hs hp => (plain_step hs i hp.1 hp.2 m).1)
      (fun i s p m hs hp => ⟨(usageStep_tx i s p m).trans hp.1, (plain_step hs i hp.1 hp.2 m).2⟩)
      (fun _ _ _ _ _ _ _ _ _ hq => hq) hs m
  have hstart : I (usageStart none (completions sizes)) :=
    ⟨fun _ hr => absurd hr List.not_mem_nil, fun i => ⟨rfl, trivial⟩⟩
  obtain ⟨-, hplaces⟩ := (always_of_inv hturn hstart ms).last
  refine Finset.sum_le_sum fun i _ => ?_
  obtain ⟨htx, hplain⟩ := hplaces i
  have hchange : 0 ≤ (completions sizes i).change :=
    ⟨Int.natCast_nonneg (sizes i), Int.one_nonneg⟩
  have hzero : (0 : ℤ × ℤ) ≤ if reserveRefusal settings (freshUsage scope 0) (sizes i) = none then
      (completions sizes i).change else 0 := by
    split
    · exact hchange
    · exact le_refl 0
  generalize (run (usageTurn settings scope) (usageStart none (completions sizes)) ms).place i = p
    at htx hplain ⊢
  cases p with
  | finished tx outcome =>
    cases outcome with
    | committed =>
      rw [show tx = .completion (sizes i) from htx] at hplain ⊢
      rw [if_pos (show reserveRefusal settings (freshUsage scope 0) (sizes i) = none from hplain)]
      exact le_refl _
    | _ => exact hzero
  | _ => exact hzero

/-- A turn in which nothing is in the way. -/
def plainTurn : UsageTurn := ⟨0, 0, false⟩

/-- Every party of the list takes `n` turns in a row. -/
def each (l : List ι) (n : ℕ) (m : UsageTurn) : List (ι × UsageTurn) :=
  l.flatMap fun i => (List.replicate n m).map fun m => (i, m)

/-- Every completion looks before any commits, and each then has a row of its own. -/
theorem charged_crowd (htenant : scope.tenantId = none) (sizes : ι → ℕ) :
    charged (run (usageTurn settings scope) (usageStart none (completions sizes))
      (each Finset.univ.toList 1 plainTurn ++ each Finset.univ.toList 2 plainTurn)) =
        fitting settings scope sizes := by
  have hnodup := Finset.nodup_toList (Finset.univ : Finset ι)
  obtain ⟨-, hinsert⟩ := run_each (usageAct settings scope) (fun s => s.rows = [])
    (fun i => .select (completions sizes i)) (fun i => .insert (sizes i)) [plainTurn]
    (fun i s hs => by simp [usageStep, selectStep, completions, hs]) hnodup
    (usageStart none (completions sizes)) rfl (fun _ _ => rfl)
  obtain ⟨-, hdone⟩ := run_each (usageAct settings scope) (fun _ => True)
    (fun i => .insert (sizes i))
    (fun i => .finished (completions sizes i)
      (if reserveRefusal settings (freshUsage scope 0) (sizes i) = none then .committed
      else .refused)) [plainTurn, plainTurn]
    (fun i s _ => by
      refine ⟨trivial, ?_⟩
      simp only [run_cons, run_nil, insert_untenanted htenant]
      simp only [usageStep, plainTurn, Bool.false_eq_true, if_false]
      cases reserveRefusal settings (freshUsage scope 0) (sizes i) <;> rfl)
    hnodup _ trivial (fun i hi => by rw [hinsert i, if_pos hi])
  rw [run_append]
  refine Finset.sum_congr rfl fun i _ => ?_
  refine (congrArg UsagePlace.change (hdone i)).trans ?_
  rw [if_pos (Finset.mem_toList.mpr (Finset.mem_univ i))]
  split <;> rfl

/-- Whatever the interleaving, completions promote no more than the quota holds,
exactly if the scope has a tenant or a row, or the completions that fit it alone
fit it together. -/
theorem quotaKept_iff (settings : Settings) (scope : Scope) (initial : Option StorageUsage)
    (sizes : ι → ℕ) :
    (∀ ms, QuotaKept settings initial (charged (run (usageTurn settings scope)
        (usageStart initial (completions sizes)) ms))) ↔
      scope.tenantId ≠ none ∨ initial ≠ none ∨
        QuotaKept settings none (fitting settings scope sizes) := by
  constructor
  · intro hkept
    by_cases htenant : scope.tenantId = none
    · cases initial with
      | some u => exact .inr (.inl (by simp))
      | none =>
        have := hkept (each Finset.univ.toList 1 plainTurn ++ each Finset.univ.toList 2 plainTurn)
        rw [charged_crowd htenant] at this
        exact .inr (.inr this)
    · exact .inl htenant
  · intro hcondition ms
    by_cases hrow : scope.tenantId = none → initial ≠ none
    · have hnone : ∀ i n, completions sizes i ≠ .deletion n := fun i n h => by cases h
      have hlone : LoneDeletion settings initial (completions sizes) :=
        ⟨fun i _ n _ hi => absurd hi (hnone i n), fun i _ n _ hi => absurd hi (hnone i n)⟩
      exact (ledger_run hlone (fun i n hi => absurd hi (hnone i n)) hrow
        (fun i n hi => absurd hi (hnone i n)) ms).kept
    · rw [Classical.not_imp, not_not] at hrow
      obtain ⟨htenant, rfl⟩ := hrow
      have hfitting := (hcondition.resolve_left (not_not.mpr htenant)).resolve_left (by simp)
      have hle : charged (run (usageTurn settings scope) (usageStart none (completions sizes)) ms) ≤
          fitting settings scope sizes := charged_le_fitting sizes ms
      intro hpos
      exact (hfitting (hpos.trans_le hle.2)).mono (add_le_add_right hle _)

/-- A quota of a hundred bytes, and two completions of sixty. -/
def smallQuota : Settings := { Settings.default with mediaDefaultQuotaBytes := some 100 }

/-- Two completions that look before either commits are both promoted. -/
theorem not_quotaKept_absent_row :
    ¬ QuotaKept smallQuota none
      (charged (run (usageTurn smallQuota ⟨⟨1⟩, none⟩)
        (usageStart none (completions fun _ : Bool => 60))
        (each [false, true] 1 plainTurn ++ each [false, true] 2 plainTurn))) := by
  intro h
  exact absurd (h (by decide +kernel)) (by decide +kernel)

/-! ### The totals -/

/-- Bytes and objects a transaction takes out of the scope. -/
def Transaction.removed : Transaction → ℤ × ℤ
  | completion _ => 0
  | deletion n => (n, 1)

def Settled (s : UsageRace ι) : Prop := ∀ i, ∃ tx outcome, s.place i = .finished tx outcome

/-- The scope has its one row, with the totals it had and what was committed since. -/
def TotalsKept (u : StorageUsage) (s : UsageRace ι) : Prop :=
  (s.shared.rows.map fun r => (r.usage.totalBytes, r.usage.objectCount)) =
    [(u.totalBytes, u.objectCount) + charged s]

omit [DecidableEq ι] in
theorem Ledger.totalsKept {u : StorageUsage} {txs : ι → Transaction} {s : UsageRace ι}
    (hs : Ledger settings scope (some u) txs s) : TotalsKept u s := by
  obtain ⟨v, holder, hrows⟩ :=
    (rows_cases hs.sole.length_le).resolve_left (hs.present (by simp))
  have htotals := hs.totals
  rw [UsageRows.usage_singleton hrows] at htotals
  rw [TotalsKept, hrows]
  exact congrArg (fun t => [t]) htotals

/-- A turn in which the commit fails. -/
def failingTurn : UsageTurn := ⟨0, 0, true⟩

omit [Fintype ι] in
/-- Transactions that fail one after the other leave the row as it is. -/
theorem run_failing (settings : Settings) (scope : Scope) (u : StorageUsage)
    (txs : ι → Transaction) {l : List ι} (hl : l.Nodup) :
    (run (usageTurn settings scope) (usageStart (some u) txs) (each l 3 failingTurn)).shared =
        ⟨[⟨u, none⟩], none⟩ ∧
      ∀ j, (run (usageTurn settings scope) (usageStart (some u) txs)
        (each l 3 failingTurn)).place j =
          if j ∈ l then .finished (txs j) .failed else .select (txs j) := by
  refine run_each (usageAct settings scope) (fun s => s = ⟨[⟨u, none⟩], none⟩)
    (fun i => .select (txs i)) (fun i => .finished (txs i) .failed)
    [failingTurn, failingTurn, failingTurn] (fun i s hs => ?_) hl (usageStart (some u) txs) rfl
    (fun _ _ => rfl)
  subst hs
  cases txs i with
  | completion n =>
    simp [usageStep, selectStep, failingTurn, UsageRow.heldByOther, UsageRows.lock,
      UsageRows.release, UsageRow.release]
  | deletion n => simp [usageStep, selectStep, failingTurn]

section Pair

variable {i j : ι} {u : StorageUsage} {m n : ℕ} {s : UsageRace ι}

omit [Fintype ι] in
/-- Two deletions that read before either writes: the second writes over the first. -/
theorem run_two_deletions (settings : Settings) (scope : Scope) (hij : i ≠ j)
    (hs : s.shared = ⟨[⟨u, none⟩], none⟩)
    (hi : s.place i = .select (.deletion m)) (hj : s.place j = .select (.deletion n)) :
    run (usageTurn settings scope) s ([i, j, i, j].map fun k => (k, plainTurn)) =
      ⟨⟨[⟨(u.debit n 0).write u (u.debit m 0), none⟩], none⟩,
        Function.update (Function.update s.place i (.finished (.deletion m) .committed)) j
          (.finished (.deletion n) .committed)⟩ := by
  obtain ⟨shared, place⟩ := s
  simp only at hs hi hj
  subst hs
  simp [turn, usageStep, selectStep, plainTurn, hi, hj, hij, hij.symm, UsageRow.heldByOther,
    UsageRows.store, UsageRows.release, UsageRow.release, StorageUsage.write_debit]
  funext k
  simp only [Function.update_apply]
  split_ifs <;> rfl

omit [Fintype ι] in
/-- A deletion that reads before a completion that fits, and writes after it. -/
theorem run_deletion_around (scope : Scope) (hij : i ≠ j) (hs : s.shared = ⟨[⟨u, none⟩], none⟩)
    (hi : s.place i = .select (.deletion m)) (hj : s.place j = .select (.completion n))
    (hfits : reserveRefusal settings u n = none) :
    run (usageTurn settings scope) s ([i, j, j, j, i].map fun k => (k, plainTurn)) =
      ⟨⟨[⟨(u.debit m 0).write u (u.credit n 0), none⟩], none⟩,
        Function.update (Function.update s.place i (.finished (.deletion m) .committed)) j
          (.finished (.completion n) .committed)⟩ := by
  obtain ⟨shared, place⟩ := s
  simp only at hs hi hj
  subst hs
  simp [turn, usageStep, selectStep, plainTurn, hi, hj, hij, hij.symm, UsageRow.heldByOther,
    UsageRows.lock, UsageRows.store, UsageRows.release, UsageRow.release,
    StorageUsage.write_credit, hfits]
  funext k
  simp only [Function.update_apply]
  split_ifs <;> simp_all

/-- All transactions but two fail, one after the other. -/
theorem exists_run_others (settings : Settings) (scope : Scope) (u : StorageUsage)
    (txs : ι → Transaction) (i j : ι) : ∃ ms,
    (run (usageTurn settings scope) (usageStart (some u) txs) ms).shared = ⟨[⟨u, none⟩], none⟩ ∧
      ∀ k, (run (usageTurn settings scope) (usageStart (some u) txs) ms).place k =
        if k ≠ i ∧ k ≠ j then .finished (txs k) .failed else .select (txs k) := by
  obtain ⟨hshared, hplaces⟩ := run_failing settings scope u txs
    (Finset.nodup_toList ((Finset.univ.erase i).erase j))
  refine ⟨_, hshared, fun k => (hplaces k).trans ?_⟩
  simp only [Finset.mem_toList, Finset.mem_erase, Finset.mem_univ, and_true]
  exact if_congr and_comm rfl rfl

/-- Two committed transactions, all others failed. -/
theorem settled_pair (hij : i ≠ j) {place : ι → UsagePlace} (rows : UsageRows ι)
    (hothers : ∀ k, k ≠ i → k ≠ j → ∃ tx, place k = .finished tx .failed) (a b : Transaction) :
    let s : UsageRace ι := ⟨rows, Function.update (Function.update place i
      (.finished a .committed)) j (.finished b .committed)⟩
    Settled s ∧ charged s = a.change + b.change := by
  refine ⟨fun k => ?_, ?_⟩
  · simp only [Function.update_apply]
    split_ifs with hj hi
    · exact ⟨b, .committed, rfl⟩
    · exact ⟨a, .committed, rfl⟩
    · obtain ⟨tx, htx⟩ := hothers k hi hj
      exact ⟨tx, .failed, htx⟩
  · unfold charged
    rw [Fintype.sum_eq_add i j hij]
    · simp [hij, UsagePlace.change]
    · rintro k ⟨hi, hj⟩
      obtain ⟨tx, htx⟩ := hothers k hi hj
      simp [hi, hj, htx, UsagePlace.change]

end Pair

omit [DecidableEq ι] in
/-- A deletion takes out no more than the scope has. -/
theorem removed_le {u : StorageUsage} {txs : ι → Transaction}
    (hcredited : ∑ i, (txs i).removed ≤ (u.totalBytes, u.objectCount)) {i : ι} {n : ℕ}
    (hi : txs i = .deletion n) : ((n : ℤ), (1 : ℤ)) ≤ (u.totalBytes, u.objectCount) := by
  have hpos : ∀ k ∈ Finset.univ, 0 ≤ (txs k).removed := by
    intro k _
    cases txs k with
    | completion n => exact le_refl _
    | deletion n => exact ⟨Int.natCast_nonneg n, Int.one_nonneg⟩
  have hle := Finset.single_le_sum hpos (Finset.mem_univ i)
  rw [hi] at hle
  exact hle.trans hcredited

/-- Whatever the interleaving, the totals of a settled run are the initial ones with
what was committed, exactly if the run has at most one deletion, and none beside a
completion that fits the row as the run finds it. -/
theorem totalsKept_iff (settings : Settings) (scope : Scope) (u : StorageUsage)
    (txs : ι → Transaction) (hcredited : ∑ i, (txs i).removed ≤ (u.totalBytes, u.objectCount)) :
    (∀ ms, Settled (run (usageTurn settings scope) (usageStart (some u) txs) ms) →
        TotalsKept u (run (usageTurn settings scope) (usageStart (some u) txs) ms)) ↔
      LoneDeletion settings (some u) txs := by
  constructor
  · intro hkept
    refine ⟨fun i j m n hi hj => ?_, fun i j m n hi hj hwithin => ?_⟩
    · by_contra hij
      obtain ⟨ms, hshared, hplaces⟩ := exists_run_others settings scope u txs i j
      have hrun := run_two_deletions settings scope hij hshared
        ((hplaces i).trans (by rw [if_neg (by simp), hi]))
        ((hplaces j).trans (by rw [if_neg (by simp), hj]))
      obtain ⟨hsettled, hcharged⟩ := settled_pair hij
        ⟨[⟨(u.debit n 0).write u (u.debit m 0), none⟩], none⟩
        (fun k hki hkj => ⟨txs k, (hplaces k).trans (if_pos ⟨hki, hkj⟩)⟩)
        (.deletion m) (.deletion n)
      have hlost := hkept (ms ++ [i, j, i, j].map fun k => (k, plainTurn))
      rw [run_append, hrun] at hlost
      have htotals := hlost hsettled
      rw [TotalsKept, hcharged] at htotals
      have hone := (removed_le hcredited hi).2
      simp [StorageUsage.write, StorageUsage.debit, column, Transaction.change] at htotals hone
      omega
    · have hij : i ≠ j := by
        rintro rfl
        rw [hi] at hj
        cases hj
      rw [hj] at hwithin
      obtain ⟨ms, hshared, hplaces⟩ := exists_run_others settings scope u txs i j
      have hrun := run_deletion_around scope hij hshared
        ((hplaces i).trans (by rw [if_neg (by simp), hi]))
        ((hplaces j).trans (by rw [if_neg (by simp), hj])) (reserveRefusal_eq_none.mpr hwithin)
      obtain ⟨hsettled, hcharged⟩ := settled_pair hij
        ⟨[⟨(u.debit m 0).write u (u.credit n 0), none⟩], none⟩
        (fun k hki hkj => ⟨txs k, (hplaces k).trans (if_pos ⟨hki, hkj⟩)⟩)
        (.deletion m) (.completion n)
      have hlost := hkept (ms ++ [i, j, j, j, i].map fun k => (k, plainTurn))
      rw [run_append, hrun] at hlost
      have htotals := hlost hsettled
      rw [TotalsKept, hcharged] at htotals
      have hone := (removed_le hcredited hi).2
      simp [StorageUsage.write, StorageUsage.debit, StorageUsage.credit, column,
        Transaction.change] at htotals hone
      omega
  · intro hlone ms _
    exact (ledger_run hlone (fun i n hi => removed_le hcredited hi) (fun _ => by simp)
      (fun _ _ _ => by simp) ms).totalsKept

/-- Two objects of fifty bytes each. -/
def twoObjects : StorageUsage :=
  { freshUsage ⟨⟨1⟩, none⟩ 0 with totalBytes := 100, objectCount := 2 }

/-- One of them goes while another upload completes. -/
def trade : Bool → Transaction
  | false => .deletion 50
  | true => .completion 50

theorem trade_lone : LoneDeletion smallQuota (some twoObjects) trade where
  one_deletion i j m n hi hj := by
    cases i
    · cases j
      · rfl
      · cases hj
    · cases hi
  no_credit i j m n hi hj := by
    cases j
    · cases hj
    · decide

/-- A deletion around a completion. -/
def aroundTurns : List (Bool × UsageTurn) :=
  [false, true, true, true, false].map fun i => (i, plainTurn)

/-- In a scope that is full the completion is refused, and the deletion takes out
no more than its object. -/
theorem totalsKept_full_scope :
    TotalsKept twoObjects
      (run (usageTurn smallQuota ⟨⟨1⟩, none⟩) (usageStart (some twoObjects) trade) aroundTurns) :=
  (totalsKept_iff smallQuota ⟨⟨1⟩, none⟩ twoObjects trade (by decide)).mpr trade_lone aroundTurns
    (by
      intro i
      cases i
      · exact ⟨.deletion 50, .committed, by decide +kernel⟩
      · exact ⟨.completion 50, .refused, by decide +kernel⟩)

/-- Where it fits, a deletion that read before its credit and writes after it takes
the credit along. -/
theorem not_totalsKept_trade :
    Settled (run (usageTurn Settings.default ⟨⟨1⟩, none⟩) (usageStart (some twoObjects) trade)
        aroundTurns) ∧
      ¬ TotalsKept twoObjects
        (run (usageTurn Settings.default ⟨⟨1⟩, none⟩) (usageStart (some twoObjects) trade)
          aroundTurns) := by
  refine ⟨fun i => ?_, ?_⟩
  · cases i
    · exact ⟨.deletion 50, .committed, by decide +kernel⟩
    · exact ⟨.completion 50, .committed, by decide +kernel⟩
  · unfold TotalsKept
    decide +kernel

end MediaService
