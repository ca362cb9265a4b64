import Mathlib.Algebra.Order.Group.Int
import Mathlib.Algebra.Order.Monoid.Prod
import MediaService.Lifecycle.Service
import MediaService.Scenario

/-! The quota ledger. The totals of a scope are a running balance: promotions
credit them, deletions debit them with a floor at zero, and nothing recomputes
them. They are exact, in every state of a run, as long as no deletion hits an
object that was never promoted while its scope has one that was. A rejected
upload leaves such an object behind, live and deletable, so the ledger does go
wrong; while the scope holds nothing, the floor hides it. -/

namespace MediaService

open Foundation

/-! ### The exact ledger -/

/-- What one object contributes to a scope: its bytes and itself, once promoted
and until deleted. -/
def Holdings.weight (h : Holdings) (scope : Scope) (o : MediaObject) : ℤ × ℤ :=
  if o.scope = scope ∧ o.deletedAt = none ∧ h.isPromoted o.id = true then ((o.sizeBytes : ℤ), 1)
  else 0

/-- The bytes and the number of the promoted, undeleted objects of a scope. -/
def Holdings.charged (h : Holdings) (scope : Scope) : ℤ × ℤ := h.objects.total (h.weight scope)

/-- Every scope is charged for what it holds; a missing usage row counts as
nothing. -/
def Holdings.LedgerExact (h : Holdings) : Prop := ∀ scope, h.totals scope = h.charged scope

namespace Holdings

variable {h : Holdings} {scope : Scope} {o : MediaObject}

theorem weight_nonneg (h : Holdings) (scope : Scope) (o : MediaObject) : 0 ≤ h.weight scope o := by
  unfold weight
  split
  · exact ⟨by simp, by simp⟩
  · exact le_refl 0

theorem weight_of_holds (ho : h.Holds o) :
    h.weight scope o = if scope = o.scope then ((o.sizeBytes : ℤ), 1) else 0 := by
  obtain ⟨-, hlive, hp⟩ := ho
  simp only [weight, hlive, isPromoted_iff.mpr hp, and_true, eq_comm]

theorem weight_of_not_promoted (hp : ¬ h.Promoted o.id) : h.weight scope o = 0 := by
  rw [← isPromoted_iff] at hp
  simp [weight, hp]

theorem weight_of_deleted (hd : o.deletedAt ≠ none) : h.weight scope o = 0 := by
  simp [weight, hd]

/-- A scope that holds nothing is charged nothing. -/
theorem charged_eq_zero (hnone : ∀ q, h.Holds q → q.scope ≠ scope) : h.charged scope = 0 := by
  refine Table.total_eq_zero fun q hq => ?_
  unfold weight
  split
  · rename_i hc
    exact absurd hc.1 (hnone q ⟨hq, hc.2.1, isPromoted_iff.mp hc.2.2⟩)
  · rfl

/-- A scope that holds something is charged at least one object. -/
theorem one_le_charged (ho : h.Holds o) : 1 ≤ (h.charged o.scope).2 := by
  have hle := Table.le_total (fun q _ => h.weight_nonneg o.scope q) ho.1
  rw [weight_of_holds ho, if_pos rfl] at hle
  exact hle.2

end Holdings

/-! ### One move -/

section OneMove

variable {env : Env} {m : Move} {h h' : Holdings}

theorem weight_eq_of_isPromoted_eq {o : MediaObject} (hp : h'.isPromoted o.id = h.isPromoted o.id)
    (scope : Scope) : h'.weight scope o = h.weight scope o := by
  simp only [Holdings.weight, hp]

theorem weight_eq_of_sessions_eq (hs : h'.sessions = h.sessions) : h'.weight = h.weight := by
  funext scope o
  unfold Holdings.weight Holdings.isPromoted
  rw [hs]

/-- Rewriting a row as the same holding. -/
theorem charged_update {o o' : MediaObject} (hobj : h'.objects = h.objects.update o')
    (hsess : h'.sessions = h.sessions) (ho : o ∈ h.objects) (hs : SameHolding o o')
    (scope : Scope) : h'.charged scope = h.charged scope := by
  have hfind : h.objects.find o'.id = some o := by rw [hs.id_eq]; exact Table.find_of_mem ho
  rw [Holdings.charged, Holdings.charged, hobj, weight_eq_of_sessions_eq hsess]
  refine Table.total_update_of_eq hfind ?_
  simp only [Holdings.weight, hs.id_eq, hs.scope_eq, hs.deletedAt_eq, hs.sizeBytes_eq]

/-- A move that inserts a row adds what the row weighs once it is there. -/
theorem charged_insert {o : MediaObject} {t : Table MediaObject.id} (hm : Moves env m h h')
    (hobj : h'.objects = t) (ht : h.objects.insert o = some t)
    (hp : ∀ q, m = .promoted q → q.id = o.id) (scope : Scope) :
    h'.charged scope = h.charged scope + h'.weight scope o := by
  have hfree := Table.find_eq_none.mp (Table.find_none_of_insert ht)
  rw [Holdings.charged, hobj, Table.total_insert ht]
  congr 1
  refine Table.total_congr fun q hq => weight_eq_of_isPromoted_eq ?_ scope
  exact hm.isPromoted_eq fun p hpm he => hfree q hq (he.symm.trans (hp p hpm))

/-- The debit of a held object takes out exactly its weight; the floor does not
bite. -/
theorem discharge_of_holds {totals : Scope → ℤ × ℤ} {o : MediaObject} {scope : Scope}
    {rest : ℤ × ℤ} (hrest : 0 ≤ rest)
    (ht : totals scope = rest + if scope = o.scope then ((o.sizeBytes : ℤ), 1) else 0) :
    discharge totals o scope = rest := by
  unfold discharge
  split
  · rename_i hs
    subst hs
    rw [if_pos rfl] at ht
    have h₁ : (totals o.scope).1 - o.sizeBytes = rest.1 := by rw [ht]; simp
    have h₂ : (totals o.scope).2 - 1 = rest.2 := by rw [ht]; simp
    have hb : (0 : ℤ) ≤ rest.1 := hrest.1
    have hn : (0 : ℤ) ≤ rest.2 := hrest.2
    rw [h₁, h₂, max_eq_right hb, max_eq_right hn]
  · rename_i hs
    rw [ht, if_neg hs, add_zero]

/-- A soft delete takes the object's weight out of the charge. -/
theorem charged_softDelete {o o' : MediaObject} (ho : o ∈ h.objects) (hid : o'.id = o.id)
    (hdel : o'.deletedAt ≠ none) (hobj : h'.objects = h.objects.update o')
    (hsess : h'.sessions = h.sessions) (scope : Scope) :
    h'.charged scope + h.weight scope o = h.charged scope := by
  have hfind : h.objects.find o'.id = some o := by rw [hid]; exact Table.find_of_mem ho
  have htotal := Table.total_update hfind (h.weight scope)
  rw [Holdings.weight_of_deleted hdel, add_zero] at htotal
  rw [Holdings.charged, Holdings.charged, hobj, weight_eq_of_sessions_eq hsess]
  exact htotal

/-- It keeps the ledger exact if the object was held, or if its scope holds
nothing to be debited for. -/
theorem ledgerExact_softDelete {o o' : MediaObject} (hl : h.LedgerExact) (ho : o ∈ h.objects)
    (hlive : o.deletedAt = none) (hid : o'.id = o.id) (hdel : o'.deletedAt ≠ none)
    (hobj : h'.objects = h.objects.update o') (hsess : h'.sessions = h.sessions)
    (htot : h'.totals = discharge h.totals o)
    (hguard : h.Promoted o.id ∨ ∀ q, h.Holds q → q.scope ≠ o.scope) : h'.LedgerExact := by
  intro scope
  have hsum := charged_softDelete ho hid hdel hobj hsess scope
  have hnonneg : 0 ≤ h'.charged scope := Table.total_nonneg fun q _ => h'.weight_nonneg scope q
  rw [htot]
  by_cases hp : h.Promoted o.id
  · rw [Holdings.weight_of_holds ⟨ho, hlive, hp⟩] at hsum
    exact discharge_of_holds hnonneg (by rw [hl scope, hsum])
  · rw [Holdings.weight_of_not_promoted hp, add_zero] at hsum
    have hnone := hguard.resolve_left hp
    unfold discharge
    split
    · rename_i hs
      subst hs
      rw [hsum, hl, Holdings.charged_eq_zero hnone]
      simp
    · rw [hsum, hl scope]

/-- Otherwise the debit takes an object out of the count that is still there. -/
theorem not_ledgerExact_softDelete {o o' q : MediaObject} (hl : h.LedgerExact) (ho : o ∈ h.objects)
    (hid : o'.id = o.id) (hdel : o'.deletedAt ≠ none) (hobj : h'.objects = h.objects.update o')
    (hsess : h'.sessions = h.sessions) (htot : h'.totals = discharge h.totals o)
    (hp : ¬ h.Promoted o.id) (hq : h.Holds q) (hscope : q.scope = o.scope) :
    ¬ h'.LedgerExact := by
  intro hl'
  have hone : 1 ≤ (h.charged o.scope).2 := hscope ▸ Holdings.one_le_charged hq
  have hsum := charged_softDelete ho hid hdel hobj hsess o.scope
  rw [Holdings.weight_of_not_promoted hp, add_zero] at hsum
  have hcount := congrArg Prod.snd (hl' o.scope)
  rw [htot, hsum, discharge, if_pos rfl, hl o.scope] at hcount
  have hdebit : max 0 ((h.charged o.scope).2 - 1) = (h.charged o.scope).2 := hcount
  rw [max_eq_right (by omega)] at hdebit
  omega

/-- Every move but a soft delete keeps the ledger exact. -/
theorem LedgerExact.move (hl : h.LedgerExact) (hm : Moves env m h h')
    (hdel : ∀ o o', m ≠ .softDeleted o o') : h'.LedgerExact := by
  have hmv := hm
  have hsame : (∀ o, m ≠ .promoted o) → h'.isPromoted = h.isPromoted :=
    fun hne => funext fun id => hmv.isPromoted_eq fun o ho => absurd ho (hne o)
  have hobjects : (∀ o, m ≠ .promoted o) → h'.objects = h.objects →
      ∀ scope, h'.charged scope = h.charged scope := by
    intro hne hobj scope
    rw [Holdings.charged, Holdings.charged, hobj]
    exact Table.total_congr fun q _ => weight_eq_of_isPromoted_eq (congrFun (hsame hne) q.id) scope
  intro scope
  cases hm with
  | promoted hf hi ho hc ht =>
    have hsum := charged_insert hmv rfl ht (fun q hq => by cases hq; rfl) scope
    rw [Holdings.weight_of_holds hmv.holds_of_promoted, ← hl scope] at hsum
    exact hsum.symm
  | rejected hf hi ho ht =>
    have hsum := charged_insert hmv rfl ht (by simp) scope
    rw [Holdings.weight_of_not_promoted hmv.not_promoted_of_rejected, add_zero, ← hl scope] at hsum
    exact hsum.symm
  | judged _ _ =>
    obtain ⟨ho, hs⟩ := hmv.same_of_judged
    refine (hl scope).trans (Eq.symm (charged_update ?_ ?_ ho hs scope)) <;> rfl
  | patched _ _ _ _ =>
    obtain ⟨ho, hs⟩ := hmv.same_of_patched
    refine (hl scope).trans (Eq.symm (charged_update ?_ ?_ ho hs scope)) <;> rfl
  | softDeleted _ _ _ => exact absurd rfl (hdel _ _)
  | @purged _ id hpd =>
    refine (hl scope).trans ?_
    rw [Holdings.charged, Holdings.charged, @weight_eq_of_sessions_eq h _ rfl]
    cases hf : h.objects.find id with
    | none => exact (Table.total_erase_of_find_none hf _).symm
    | some o =>
      have hdeleted := hpd o (Table.mem_of_find hf) (Table.key_of_find hf)
      have := Table.total_erase hf (h.weight scope)
      rw [Holdings.weight_of_deleted (by simpa [Option.isSome_iff_ne_none] using hdeleted),
        add_zero] at this
      exact this.symm
  | opened _ _ _ => exact (hl scope).trans (hobjects (by simp) rfl scope).symm
  | closed _ => exact (hl scope).trans (hobjects (by simp) rfl scope).symm
  | _ => exact hl scope

end OneMove

/-! ### Runs -/

/-- No accepted delete of a live object that was never promoted, while its scope
has a live object that was. -/
def DeletesPromoted (w : World) : Request → Prop
  | .delete _ commitFails _ user objectId => commitFails = false →
    ∀ o, loadObject w.backend.db user objectId true = .ok o → o.deletedAt = none →
      w.backend.isPromoted o.id = false → ∀ q ∈ w.backend.db.objects, q.scope = o.scope →
        q.deletedAt = none → w.backend.isPromoted q.id = false
  | _ => True

variable {env : Env} {w : World} {r : Request}

theorem isPromoted_eq_false {b : Backend} {id : UUID} :
    b.isPromoted id = false ↔ ¬ b.holdings.Promoted id := by
  rw [← Holdings.isPromoted_iff, Bool.not_eq_true]
  rfl

theorem ledgerExact_delete {b : Backend} {o : MediaObject} {now : Timestamp}
    {bucket : Option String} {db' : Database} (hl : b.holdings.LedgerExact)
    (ho : o ∈ b.db.objects) (hlive : o.deletedAt = none)
    (hd : softDeletedDatabase b.db now o bucket = .ok db') (st : Storage)
    (hguard : b.holdings.Promoted o.id ∨ ∀ q, b.holdings.Holds q → q.scope ≠ o.scope) :
    (Backend.mk db' st).holdings.LedgerExact := by
  obtain ⟨outbox, rfl⟩ := softDeletedDatabase_ok hd
  refine ledgerExact_softDelete hl ho hlive ?_ ?_ rfl rfl
    (funext (usageTotals_recordObjectRemoved _ _ _ _)) hguard
  · rfl
  · simp

theorem LedgerExact.serve (hw : WorldInv env w) (hl : w.backend.holdings.LedgerExact)
    (hr : DeletesPromoted w r) : (serve env w r).backend.holdings.LedgerExact := by
  by_cases hdel : ∃ faults commitFails now user objectId,
      r = .delete faults commitFails now user objectId
  · obtain ⟨faults, commitFails, now, user, objectId, rfl⟩ := hdel
    rw [serve_backend]
    simp only [answer]
    rcases deleteObject_cases env w.backend faults commitFails now user objectId with
      he | ⟨o, st, bucket, hload, hlive, -, ⟨e, he⟩ | ⟨db', hfails, hcommit, he⟩⟩
    · rw [he]
      exact hl
    · rw [he]
      exact hl
    · rw [he]
      refine ledgerExact_delete hl (loadObject_ok hload).1 hlive hcommit _ ?_
      by_cases hp : w.backend.holdings.Promoted o.id
      · exact .inl hp
      · right
        rintro q ⟨hq, hqlive, hqp⟩ hs
        exact isPromoted_eq_false.mp
          (hr hfails o hload hlive (isPromoted_eq_false.mpr hp) q hq hs hqlive) hqp
  · refine (movesTo_serve hw r).preserves (I := Holdings.LedgerExact) ?_ hl
    intro m h h' hcause hm hl
    refine LedgerExact.move hl hm ?_
    rintro o o' rfl
    obtain ⟨faults, now, user, rfl, -⟩ := hcause
    exact hdel ⟨faults, false, now, user, o.id, rfl⟩

/-- An effective delete of an object that was never promoted leaves its scope
short, if the scope holds anything. -/
theorem deletesPromoted_of_ledgerExact_serve (hw : WorldInv env w)
    (hl : w.backend.holdings.LedgerExact) (hl' : (serve env w r).backend.holdings.LedgerExact) :
    DeletesPromoted w r := by
  unfold DeletesPromoted
  split
  · rename_i faults commitFails now user objectId
    rintro rfl o hload hlive hp q hq hscope hqlive
    rw [isPromoted_eq_false] at hp ⊢
    intro hqp
    obtain ⟨bucket, db', hcommit, hdb⟩ := deleteObject_effective hw.kept faults now hload hlive
    obtain ⟨outbox, rfl⟩ := softDeletedDatabase_ok hcommit
    rw [serve_backend] at hl'
    simp only [answer] at hl'
    cases hb : (deleteObject env w.backend faults false now user objectId).1 with
    | mk db st =>
      rw [hb] at hdb hl'
      subst hdb
      refine absurd hl' (not_ledgerExact_softDelete hl (loadObject_ok hload).1 ?_ ?_ rfl rfl
        (funext (usageTotals_recordObjectRemoved _ _ _ _)) hp ⟨hq, hqlive, hqp⟩ hscope)
      · rfl
      · simp
  · trivial

/-- Every state of a run charges every scope for exactly what it holds, if and
only if no accepted delete of the run hits a live object that was never promoted
while its scope has a live one that was. -/
theorem ledgerExact_iff (env : Env) (rs : List Request) :
    Always (serve env) (fun w => w.backend.holdings.LedgerExact) World.initial rs ↔
      Guarded (serve env) DeletesPromoted World.initial rs := by
  refine always_iff_guarded (I := WorldInv env) (A := fun _ _ => True)
    (fun _ r hw _ _ _ => hw.serve r) (fun w r hw hl _ => ?_) (worldInv_initial env) ?_
    (guarded_of_forall (fun _ _ _ => trivial) _)
  · exact ⟨deletesPromoted_of_ledgerExact_serve hw hl, LedgerExact.serve hw hl⟩
  · exact fun _ => rfl

/-- One upload goes through; a second one, whose bytes are no PNG, is rejected,
and its owner deletes what the rejection left. -/
def rejectedThenDeleted : List Request :=
  uploadRequests Env.default 0 ⟨2⟩ (.ordinary 1) .private pngSignature ++
    uploadRequests Env.default 0 ⟨3⟩ (.ordinary 1) .private [0] ++
    [.delete Faults.none false 1 (.ordinary 1) ⟨3⟩]

theorem not_ledgerExact : ¬ Always (serve Env.default)
    (fun w => w.backend.holdings.LedgerExact) World.initial rejectedThenDeleted := by
  intro h
  have hexact := h.last ⟨⟨1⟩, none⟩
  revert hexact
  decide +kernel

end MediaService
