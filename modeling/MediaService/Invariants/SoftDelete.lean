import MediaService.Lifecycle.Service
import MediaService.Scenario

/-! Soft-delete coherence. Two fields say that a row is deleted: its status and
its deletion time. They agree in every run in which no clean verdict is applied
to a row that is already soft-deleted, and only in those: such a verdict makes
the row `READY` again while its deletion time stays, and no purge selects it. -/

namespace MediaService

open Foundation

/-- The two marks of a deletion agree, row by row. -/
def Coherent (objects : Table MediaObject.id) : Prop :=
  ∀ o ∈ objects, o.deletedAt.isSome ↔ o.status = .deleted

/-- The marks agree, and so a purge whose limit is no obstacle selects every row
deleted before its cutoff. -/
structure SoftDeleteCoherent (db : Database) : Prop where
  coherent : Coherent db.objects
  selectable : ∀ o ∈ db.objects, ∀ t, o.deletedAt = some t → ∀ cutoff, t < cutoff →
    ∀ limit, db.objects.rows.length ≤ limit → o ∈ purgeCandidates db cutoff limit

theorem softDeleteCoherent_iff {db : Database} : SoftDeleteCoherent db ↔ Coherent db.objects := by
  refine ⟨SoftDeleteCoherent.coherent, fun h => ⟨h, ?_⟩⟩
  intro o ho t ht cutoff hlt limit hlimit
  have hp : isPurgeable cutoff o = true := by
    simp only [isPurgeable, decide_eq_true_eq, ht, Option.any_some]
    exact ⟨(h o ho).mp (by rw [ht]; rfl), hlt⟩
  rw [purgeCandidates, List.take_of_length_le]
  · exact Table.mem_sorted.mpr ⟨ho, hp⟩
  · rw [List.length_insertionSort]
    exact (List.length_filter_le _ _).trans hlimit

/-! ### One move -/

variable {env : Env}

/-- A verdict that readies a row is the only move that can set the marks apart. -/
theorem Coherent.move {m : Move} {h h' : Holdings} (hc : Coherent h.objects)
    (hm : Moves env m h h')
    (hj : ∀ o o', m = .judged o o' → o'.status = .ready → o.deletedAt = none) :
    Coherent h'.objects := by
  have hupd : ∀ {o o' : MediaObject}, o ∈ h.objects → o'.id = o.id →
      (o'.deletedAt.isSome ↔ o'.status = .deleted) → Coherent (h.objects.update o') := by
    intro o o' ho hid ho' q hq
    rcases (Table.mem_update (by rw [hid, Table.find_of_mem ho])).mp hq with rfl | ⟨hq, -⟩
    · exact ho'
    · exact hc q hq
  cases hm with
  | promoted _ _ ho _ ht =>
    intro q hq
    rcases (Table.mem_insert ht).mp hq with hq | rfl
    · exact hc q hq
    · simp [ho, sessionObject]
  | rejected _ _ ho ht =>
    intro q hq
    rcases (Table.mem_insert ht).mp hq with hq | rfl
    · exact hc q hq
    · simp [ho, sessionObject]
  | judged ho hor =>
    have hmarks := hc _ ho
    rcases hor with rfl | rfl
    · exact hupd ho rfl (by simp [hj _ _ rfl rfl])
    · exact hupd ho rfl hmarks
  | patched ho _ ho' _ =>
    have hmarks := hc _ ho
    subst ho'
    exact hupd ho rfl hmarks
  | softDeleted ho _ ho' =>
    subst ho'
    exact hupd ho rfl (by simp)
  | purged _ => exact fun q hq => hc q (Table.mem_erase.mp hq).1
  | _ => exact hc

/-! ### Runs -/

/-- No clean verdict on a row that is already soft-deleted. -/
def SparesDeleted (w : World) : Request → Prop
  | .scanResult _ objectId .clean =>
    ∀ o ∈ w.backend.db.objects, o.id = objectId → o.deletedAt = none
  | _ => True

theorem Coherent.serve {w : World} (hw : WorldInv env w) (hc : Coherent w.backend.db.objects)
    {r : Request} (hr : SparesDeleted w r) : Coherent (serve env w r).backend.db.objects := by
  by_cases hscan : ∃ now objectId scanStatus, r = .scanResult now objectId scanStatus
  · obtain ⟨now, objectId, scanStatus, rfl⟩ := hscan
    rw [serve_backend]
    cases h : applyScanResult w.backend.db now objectId scanStatus with
    | error e =>
      simp only [answer, h]
      exact hc
    | ok res =>
      obtain ⟨db', o'⟩ := res
      obtain ⟨o, ho, hid, hor, outbox, rfl⟩ := applyScanResult_ok h
      simp only [answer, h]
      have hm : Moves env (.judged o o') w.backend.holdings _ :=
        .judged (h := w.backend.holdings) ho (hor.imp And.right And.right)
      refine hc.move hm fun q q' he hready => ?_
      cases he
      rcases hor with ⟨rfl, -⟩ | ⟨-, rfl⟩
      · exact hr o ho hid
      · by_contra hdel
        have hdeleted := (hc o ho).mp (Option.isSome_iff_ne_none.mpr hdel)
        cases hdeleted.symm.trans hready
  · refine (movesTo_serve hw r).preserves (I := fun h => Coherent h.objects) ?_ hc
    intro m h h' hcause hm hc
    refine hc.move hm ?_
    rintro o o' rfl -
    obtain ⟨now, scanStatus, rfl, -⟩ := hcause
    exact absurd ⟨now, o.id, scanStatus, rfl⟩ hscan

/-- A clean verdict on a soft-deleted row is always effective, and sets its marks
apart. -/
theorem sparesDeleted_of_coherent_serve {w : World} (hw : WorldInv env w) {r : Request}
    (hc : Coherent (serve env w r).backend.db.objects) : SparesDeleted w r := by
  unfold SparesDeleted
  split
  · rename_i now objectId
    rintro o ho rfl
    obtain ⟨db', o', h⟩ := applyScanResult_eq_ok hw.kept ho now .clean
    obtain ⟨q, hq, hid, hor, outbox, rfl⟩ := applyScanResult_ok h
    obtain rfl := Table.eq_of_key_eq hq ho hid
    rw [serve_backend] at hc
    simp only [answer, h] at hc
    have ho' : o'.id = q.id ∧ o'.deletedAt = q.deletedAt ∧ o'.status = .ready := by
      rcases hor with ⟨-, rfl⟩ | ⟨hne, -⟩
      · exact ⟨rfl, rfl, rfl⟩
      · exact absurd rfl hne
    have hmem : o' ∈ w.backend.db.objects.update o' :=
      Table.mem_of_find (Table.find_update_self (by rw [ho'.1]; exact Table.find_of_mem hq))
    have := hc o' hmem
    simpa [ho'] using this
  · trivial

/-- A run keeps the two marks of every deletion together, and every deleted row
in reach of the purge, exactly if no clean verdict meets a soft-deleted row. -/
theorem softDelete_coherent_iff (env : Env) (rs : List Request) :
    Always (serve env) (fun w => SoftDeleteCoherent w.backend.db) World.initial rs ↔
      Guarded (serve env) SparesDeleted World.initial rs := by
  refine always_iff_guarded (I := WorldInv env) (A := fun _ _ => True)
    (fun _ r hw _ _ _ => hw.serve r) (fun w r hw hP _ => ?_) (worldInv_initial env) ?_
    (guarded_of_forall (fun _ _ _ => trivial) _)
  · rw [softDeleteCoherent_iff]
    exact ⟨sparesDeleted_of_coherent_serve hw, (softDeleteCoherent_iff.mp hP).serve hw⟩
  · exact softDeleteCoherent_iff.mpr fun o ho => absurd ho (Table.not_mem_empty o)

/-- An upload deleted while its scan is under way, and the verdict after that. -/
def lateVerdict : List Request :=
  uploadRequests Env.default 0 ⟨2⟩ (.ordinary 1) .private pngSignature ++
    [.delete Faults.none false 1 (.ordinary 1) ⟨2⟩, .scanResult 2 ⟨2⟩ .clean]

theorem not_softDelete_coherent : ¬ Always (serve Env.default)
    (fun w => SoftDeleteCoherent w.backend.db) World.initial lateVerdict := by
  intro h
  have hrow : ∃ o ∈ (run (serve Env.default) World.initial lateVerdict).backend.db.objects.rows,
      o.deletedAt.isSome ∧ o.status ≠ .deleted := by decide +kernel
  obtain ⟨o, ho, hdel, hst⟩ := hrow
  exact hst ((h.last.coherent o ho).mp hdel)

end MediaService
