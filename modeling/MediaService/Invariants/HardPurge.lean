import MediaService.Lifecycle.Objects

/-! What a hard purge does to the database and to the store. The purge is a list of steps:
for each selected row its bytes and those of its variants are removed, then the rows of its
variants and of its jobs go, and its own row last. A removal that fails is passed over, so
the rows that go do not depend on the store. -/

namespace MediaService

open Foundation

variable {b : Backend} {db : Database} {faults : Faults} {cutoff : Timestamp} {limit : ℕ}

/-! ### The selection -/

/-- The first `limit` rows, by deletion time, of those deleted before the cutoff. -/
structure FirstDeleted (db : Database) (cutoff : Timestamp) (limit : ℕ) (os : List MediaObject) :
    Prop where
  deleted : ∀ o ∈ os, o ∈ db.objects ∧ isPurgeable cutoff o = true
  nodup : (os.map MediaObject.id).Nodup
  length : os.length = min limit (db.objects.rows.filter (isPurgeable cutoff)).length
  ordered : os.Pairwise fun o o' => o.deletedAt.getD 0 ≤ o'.deletedAt.getD 0
  first : ∀ o ∈ db.objects, isPurgeable cutoff o = true → o ∉ os →
    ∀ q ∈ os, q.deletedAt.getD 0 ≤ o.deletedAt.getD 0

theorem isPurgeable_iff {o : MediaObject} : isPurgeable cutoff o = true ↔
    o.status = .deleted ∧ ∃ t, o.deletedAt = some t ∧ t < cutoff := by
  rw [isPurgeable, decide_eq_true_eq, Option.any_eq_true]
  simp only [decide_eq_true_eq]

theorem purgeCandidates_first (db : Database) (cutoff : Timestamp) (limit : ℕ) :
    FirstDeleted db cutoff limit (purgeCandidates db cutoff limit) := by
  have hperm := List.perm_insertionSort
    (fun o o' : MediaObject => o.deletedAt.getD 0 ≤ o'.deletedAt.getD 0)
    (db.objects.rows.filter (isPurgeable cutoff))
  have hsorted := List.pairwise_insertionSort
    (fun o o' : MediaObject => o.deletedAt.getD 0 ≤ o'.deletedAt.getD 0)
    (db.objects.rows.filter (isPurgeable cutoff))
  constructor
  · exact fun o ho => mem_purgeCandidates ho
  · exact Table.nodup_sorted.sublist ((List.take_sublist _ _).map _)
  · rw [purgeCandidates, List.length_take, hperm.length_eq]
  · exact hsorted.sublist (List.take_sublist _ _)
  · intro o ho hp hout q hq
    have hmem := hperm.mem_iff.mpr (List.mem_filter.mpr ⟨ho, hp⟩)
    rw [← List.take_append_drop limit (List.insertionSort _ _)] at hmem hsorted
    rcases List.mem_append.mp hmem with hin | hlater
    · exact absurd hin hout
    · exact (List.pairwise_append.mp hsorted).2.2 q hq o hlater

/-! ### The steps -/

/-- One effect of a purge. -/
inductive PurgeStep where
  | remove (l : Location)
  | deleteVariant (id : UUID)
  | deleteJob (id : UUID)
  | deleteObject (id : UUID)
  deriving DecidableEq

def PurgeStep.apply (faults : Faults) (b : Backend) : PurgeStep → Backend
  | .remove l => { b with storage := b.storage.bestEffortRemove faults l }
  | .deleteVariant id => { b with db := { b.db with variants := b.db.variants.erase id } }
  | .deleteJob id => { b with db := { b.db with variantJobs := b.db.variantJobs.erase id } }
  | .deleteObject id => { b with db := b.db.deleteObjectRow id }

def applySteps (faults : Faults) (steps : List PurgeStep) (b : Backend) : Backend :=
  steps.foldl (PurgeStep.apply faults) b

/-- The jobs of one object, in table order. -/
def Database.jobsOf (db : Database) (id : UUID) : List VariantJob :=
  db.variantJobs.rows.filter fun j => j.mediaObjectId = id

/-- What comes before the row itself goes. -/
def purgeChildren (db : Database) (o : MediaObject) : List PurgeStep :=
  .remove o.location :: (db.variantsOf o.id).map (fun v => .remove v.location) ++
    (db.variantsOf o.id).map (fun v => .deleteVariant v.id) ++
    (db.jobsOf o.id).map (fun j => .deleteJob j.id)

/-- The loop's body for one row. -/
def purgeSteps (db : Database) (o : MediaObject) : List PurgeStep :=
  purgeChildren db o ++ [.deleteObject o.id]

theorem applySteps_cons (step : PurgeStep) (steps : List PurgeStep) :
    applySteps faults (step :: steps) b = applySteps faults steps (step.apply faults b) :=
  rfl

theorem applySteps_append (s s' : List PurgeStep) :
    applySteps faults (s ++ s') b = applySteps faults s' (applySteps faults s b) :=
  List.foldl_append

theorem applySteps_removes (vs : List MediaVariant) :
    applySteps faults (vs.map fun v => .remove v.location) b =
      { b with
        storage := vs.foldl (fun st v => st.bestEffortRemove faults v.location) b.storage } := by
  induction vs generalizing b with
  | nil => rfl
  | cons v vs ih => exact ih

theorem applySteps_deleteVariants (vs : List MediaVariant) :
    applySteps faults (vs.map fun v => .deleteVariant v.id) b =
      { b with db := { b.db with
        variants := vs.foldl (fun t v => t.erase v.id) b.db.variants } } := by
  induction vs generalizing b with
  | nil => rfl
  | cons v vs ih => exact ih

theorem applySteps_deleteJobs (js : List VariantJob) :
    applySteps faults (js.map fun j => .deleteJob j.id) b =
      { b with db := { b.db with
        variantJobs := js.foldl (fun t j => t.erase j.id) b.db.variantJobs } } := by
  induction js generalizing b with
  | nil => rfl
  | cons j js ih => exact ih

/-- A location is empty after the steps if its removal was tried and did not fail. -/
theorem find_applySteps (steps : List PurgeStep) (l : Location) :
    (applySteps faults steps b).storage.find l =
      if .remove l ∈ steps ∧ faults .remove l = false then none else b.storage.find l := by
  induction steps generalizing b with
  | nil => simp [applySteps]
  | cons step steps ih =>
    rw [applySteps_cons, ih]
    cases step with
    | remove l' =>
      simp only [PurgeStep.apply, Storage.find_bestEffortRemove, List.mem_cons,
        PurgeStep.remove.injEq]
      by_cases hl : l = l' <;> by_cases hf : faults .remove l = false <;> simp_all
    | deleteVariant id => simp [PurgeStep.apply]
    | deleteJob id => simp [PurgeStep.apply]
    | deleteObject id => simp [PurgeStep.apply]

/-! ### What is left -/

/-- The rows that a purge of the ids leaves. -/
def Database.without (db : Database) (ids : List UUID) : Database :=
  { db with
    objects := db.objects.filter fun o => o.id ∉ ids
    variants := db.variants.filter fun v => v.mediaObjectId ∉ ids
    variantJobs := db.variantJobs.filter fun j => j.mediaObjectId ∉ ids
    links := db.links.filter fun l => l.1 ∉ ids
    shares := db.shares.filter fun s => s.mediaObjectId ∉ ids }

theorem Database.without_nil (db : Database) : db.without [] = db := by
  simp [Database.without, Table.filter]

theorem without_without (db : Database) (ids ids' : List UUID) :
    (db.without ids).without ids' = db.without (ids ++ ids') := by
  simp only [Database.without, Table.filter, Finset.filter_filter, List.filter_filter]
  simp only [List.mem_append, not_or, Bool.decide_and, Bool.and_comm]

theorem purgeSteps_without {ids : List UUID} {o : MediaObject} (ho : o.id ∉ ids) :
    purgeSteps (db.without ids) o = purgeSteps db o := by
  have hvariants : (db.without ids).variantsOf o.id = db.variantsOf o.id := by
    simp only [Database.variantsOf, Database.without, Table.filter, List.filter_filter]
    refine List.filter_congr fun v _ => ?_
    by_cases hv : v.mediaObjectId = o.id <;> simp [hv, ho]
  have hjobs : (db.without ids).jobsOf o.id = db.jobsOf o.id := by
    simp only [Database.jobsOf, Database.without, Table.filter, List.filter_filter]
    refine List.filter_congr fun j _ => ?_
    by_cases hj : j.mediaObjectId = o.id <;> simp [hj, ho]
  rw [purgeSteps, purgeChildren, hvariants, hjobs]
  rfl

/-- Purging one row is running its steps. -/
theorem purgeObject_eq {o : MediaObject} (ho : isPurgeable cutoff o = true) :
    purgeObject faults b o = applySteps faults (purgeSteps b.db o) b := by
  obtain ⟨hstatus, t, ht, -⟩ := isPurgeable_iff.mp ho
  have hlive : ¬ (o.status ≠ .deleted ∨ o.deletedAt = none) := by simp [hstatus, ht]
  have hvariants := b.db.variants.foldl_erase_filter fun v => v.mediaObjectId = o.id
  have hjobs := b.db.variantJobs.foldl_erase_filter fun j => j.mediaObjectId = o.id
  rw [purgeObject, if_neg hlive, purgeSteps, purgeChildren]
  simp only [List.cons_append, applySteps_cons, applySteps_append, applySteps_removes,
    applySteps_deleteVariants, applySteps_deleteJobs]
  simp only [PurgeStep.apply, Database.variantsOf, Database.jobsOf, hvariants, hjobs]
  rfl

theorem db_purgeObject {o : MediaObject} (ho : isPurgeable cutoff o = true) :
    (purgeObject faults b o).db = b.db.without [o.id] := by
  obtain ⟨hstatus, t, ht, -⟩ := isPurgeable_iff.mp ho
  rw [purgeObject, if_neg (by simp [hstatus, ht])]
  simp only [Database.deleteObjectRow, Database.without, Table.erase, List.mem_singleton]

/-- A purge runs the steps of all its rows, as the database had them at its start. -/
theorem foldl_purgeObject {os : List MediaObject} (hdeleted : ∀ o ∈ os, isPurgeable cutoff o = true)
    (hnodup : (os.map MediaObject.id).Nodup) :
    os.foldl (purgeObject faults) b = applySteps faults (os.flatMap (purgeSteps b.db)) b ∧
      (os.foldl (purgeObject faults) b).db = b.db.without (os.map MediaObject.id) := by
  induction os generalizing b with
  | nil => exact ⟨rfl, b.db.without_nil.symm⟩
  | cons o os ih =>
    rw [List.map_cons, List.nodup_cons] at hnodup
    have ho := hdeleted o List.mem_cons_self
    have hdb : (purgeObject faults b o).db = b.db.without [o.id] := db_purgeObject ho
    obtain ⟨hsteps, hrows⟩ := @ih (purgeObject faults b o)
      (fun q hq => hdeleted q (List.mem_cons_of_mem o hq)) hnodup.2
    have hsame : os.flatMap (purgeSteps (b.db.without [o.id])) = os.flatMap (purgeSteps b.db) := by
      refine List.flatMap_congr fun q hq => purgeSteps_without ?_
      rw [List.mem_singleton]
      exact fun he => hnodup.1 (he ▸ List.mem_map_of_mem hq)
    constructor
    · rw [List.foldl_cons, hsteps, List.flatMap_cons, applySteps_append, ← purgeObject_eq ho, hdb,
        hsame]
    · rw [List.foldl_cons, hrows, hdb, without_without, List.map_cons, List.singleton_append]

/-- The rows that a hard purge leaves. -/
theorem db_hardPurgeExpired (b : Backend) (faults : Faults) (now olderThan : ℤ) (limit : ℕ) :
    (hardPurgeExpired b faults now olderThan limit).1.db =
      b.db.without ((purgeCandidates b.db (now - olderThan) limit).map MediaObject.id) :=
  have hfirst := purgeCandidates_first b.db (now - olderThan) limit
  (foldl_purgeObject (fun q hq => (hfirst.deleted q hq).2) hfirst.nodup).2

/-- The purge of the rows, step by step, and the frame around it. -/
structure Purges (faults : Faults) (os : List MediaObject) (b b' : Backend)
    (steps : List PurgeStep) : Prop where
  runs : b' = applySteps faults steps b
  rows : b'.db = b.db.without (os.map MediaObject.id)
  attempts : ∀ l, .remove l ∈ steps ↔
    ∃ o ∈ os, l = o.location ∨ ∃ v ∈ b.db.variants, v.mediaObjectId = o.id ∧ l = v.location
  bytes : ∀ l, b'.storage.find l =
    if .remove l ∈ steps ∧ faults .remove l = false then none else b.storage.find l
  childrenFirst : ∀ o ∈ os, ∃ before after, steps = before ++ .deleteObject o.id :: after ∧
    (∀ v ∈ b.db.variants, v.mediaObjectId = o.id → .deleteVariant v.id ∈ before) ∧
    ∀ j ∈ b.db.variantJobs, j.mediaObjectId = o.id → .deleteJob j.id ∈ before

theorem mem_purgeSteps_remove {o : MediaObject} {l : Location} :
    .remove l ∈ purgeSteps db o ↔
      l = o.location ∨ ∃ v ∈ db.variants, v.mediaObjectId = o.id ∧ l = v.location := by
  simp [purgeSteps, purgeChildren, Database.variantsOf, Table.mem_def, and_assoc, eq_comm]

theorem foldl_purges {os : List MediaObject} (hdeleted : ∀ o ∈ os, isPurgeable cutoff o = true)
    (hnodup : (os.map MediaObject.id).Nodup) :
    Purges faults os b (os.foldl (purgeObject faults) b) (os.flatMap (purgeSteps b.db)) := by
  obtain ⟨hruns, hrows⟩ := @foldl_purgeObject b faults cutoff os hdeleted hnodup
  refine ⟨hruns, hrows, fun l => ?_, fun l => ?_, fun o ho => ?_⟩
  · simp only [List.mem_flatMap, mem_purgeSteps_remove]
  · rw [hruns, find_applySteps]
  · obtain ⟨before, after, rfl⟩ := List.append_of_mem ho
    refine ⟨before.flatMap (purgeSteps b.db) ++ purgeChildren b.db o,
      after.flatMap (purgeSteps b.db), ?_, fun v hv hid => ?_, fun j hj hid => ?_⟩
    · simp [purgeSteps]
    · have hmem : v ∈ b.db.variantsOf o.id := List.mem_filter.mpr ⟨hv, decide_eq_true hid⟩
      simp only [List.mem_append, purgeChildren]
      exact .inr (.inl (.inr (List.mem_map_of_mem hmem)))
    · have hmem : j ∈ b.db.jobsOf o.id := List.mem_filter.mpr ⟨hj, decide_eq_true hid⟩
      exact List.mem_append_right _ (List.mem_append_right _ (List.mem_map_of_mem hmem))

/-- A hard purge deletes the rows it selects with their variants and jobs, these first, tries
to remove their bytes, and leaves the rest, the usage totals included, as it was. -/
theorem hardPurgeExpired_exact (b : Backend) (faults : Faults) (now olderThan : ℤ) (limit : ℕ) :
    ∃ os steps, FirstDeleted b.db (now - olderThan) limit os ∧
      Purges faults os b (hardPurgeExpired b faults now olderThan limit).1 steps ∧
      (hardPurgeExpired b faults now olderThan limit).2 = os.length := by
  have hfirst := purgeCandidates_first b.db (now - olderThan) limit
  exact ⟨_, _, hfirst, foldl_purges (fun o ho => (hfirst.deleted o ho).2) hfirst.nodup, rfl⟩

end MediaService
