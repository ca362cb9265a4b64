import MediaService.Controllers.Maintenance
import MediaService.Scenario

/-! What a short report of orphans is worth. The sweep of the buckets counts the orphans it
finds, so one that stops short of the limit has seen every key. The scan of the rows counts
the rows it looks at, so it may stop short of the limit with rows left unseen. -/

namespace MediaService

open Foundation

variable {env : Env} {b : Backend} {db : Database} {faults : Faults} {now cutoff : Timestamp}
  {limit : ℕ} {repair : Bool} {pending : List Location} {bucket : String} {buckets : List String}

/-! ### The sweep of the buckets -/

/-- The record of a stored key without a row. -/
def keyRecord (l : Location) : OrphanRecord := ⟨l, none, none⟩

/-- A sweep goes on from another: it keeps its orphans, and what it removes is one. -/
structure Sweep.Extends (sw sw' : Sweep) : Prop where
  orphans : sw.orphans <+: sw'.orphans
  contents : ∀ l, sw'.storage.content l = sw.storage.content l ∨ keyRecord l ∈ sw'.orphans

theorem Sweep.Extends.refl (sw : Sweep) : sw.Extends sw := ⟨List.prefix_rfl, fun _ => .inl rfl⟩

theorem Sweep.Extends.mem {sw sw' : Sweep} (h : sw.Extends sw') {r : OrphanRecord}
    (hr : r ∈ sw.orphans) : r ∈ sw'.orphans :=
  h.orphans.subset hr

theorem Sweep.Extends.trans {sw₁ sw₂ sw₃ : Sweep} (h : sw₁.Extends sw₂) (h' : sw₂.Extends sw₃) :
    sw₁.Extends sw₃ where
  orphans := h.orphans.trans h'.orphans
  contents l := by
    rcases h'.contents l with hl | hl
    · rw [hl]
      exact (h.contents l).imp_right h'.mem
    · exact .inr hl

/-- The sweep after a key without an owner. -/
def Sweep.found (sw : Sweep) (faults : Faults) (repair : Bool) (l : Location) : Sweep :=
  let orphans := sw.orphans ++ [keyRecord l]
  if repair then ⟨sw.storage.bestEffortRemove faults l, orphans, sw.repaired + 1⟩
  else { sw with orphans := orphans }

theorem Sweep.extends_found (sw : Sweep) (faults : Faults) (repair : Bool) (l : Location) :
    sw.Extends (sw.found faults repair l) := by
  unfold Sweep.found
  cases repair with
  | false => exact ⟨List.prefix_append _ _, fun _ => .inl rfl⟩
  | true =>
    refine ⟨List.prefix_append _ _, fun l' => ?_⟩
    dsimp only
    rw [if_pos rfl, Storage.content_bestEffortRemove]
    split_ifs with hl
    · rw [hl.2]
      exact .inr (List.mem_append_right _ (List.mem_singleton_self _))
    · exact .inl rfl

theorem Sweep.mem_found (sw : Sweep) (faults : Faults) (repair : Bool) (l : Location) :
    keyRecord l ∈ (sw.found faults repair l).orphans := by
  unfold Sweep.found
  cases repair <;> exact List.mem_append_right _ (List.mem_singleton_self _)

/-- A bucket's sweep that stays below the limit has found every key without an owner. -/
theorem sweepKeys_extends (sw : Sweep) (keys : List String) :
    sw.Extends (sweepKeys db pending faults limit repair bucket sw keys) ∧
      ((sweepKeys db pending faults limit repair bucket sw keys).orphans.length < limit →
        ∀ key ∈ keys, isClaimed db pending ⟨bucket, key⟩ = false → keyRecord ⟨bucket, key⟩ ∈
          (sweepKeys db pending faults limit repair bucket sw keys).orphans) := by
  induction keys generalizing sw with
  | nil => exact ⟨.refl sw, fun _ _ hkey => absurd hkey List.not_mem_nil⟩
  | cons key keys ih =>
    rw [sweepKeys]
    by_cases hfull : sw.orphans.length ≥ limit
    · rw [if_pos hfull]
      exact ⟨.refl sw, fun hroom => absurd hroom (Nat.not_lt_of_ge hfull)⟩
    rw [if_neg hfull]
    by_cases hclaimed : isClaimed db pending ⟨bucket, key⟩ = true
    · rw [if_pos hclaimed]
      refine ⟨(ih sw).1, fun hroom key' hkey' hfree => ?_⟩
      rcases List.mem_cons.mp hkey' with rfl | hkey'
      · rw [hclaimed] at hfree
        cases hfree
      · exact (ih sw).2 hroom key' hkey' hfree
    · rw [if_neg hclaimed]
      obtain ⟨hext, hall⟩ := ih (sw.found faults repair ⟨bucket, key⟩)
      refine ⟨(sw.extends_found faults repair _).trans hext, fun hroom key' hkey' hfree => ?_⟩
      rcases List.mem_cons.mp hkey' with rfl | hkey'
      · exact hext.mem (sw.mem_found faults repair _)
      · exact hall hroom key' hkey' hfree

/-- The sweep of the buckets, from any point on. -/
def sweepBuckets (env : Env) (db : Database) (pending : List Location) (faults : Faults)
    (limit : ℕ) (repair : Bool) (buckets : List String) (sw : Sweep) : Sweep :=
  buckets.foldl (fun sw bucket =>
    sweepKeys db pending faults limit repair bucket sw (sw.storage.listObjectKeys env bucket)) sw

theorem sweepBuckets_extends (sw : Sweep) :
    sw.Extends (sweepBuckets env db pending faults limit repair buckets sw) ∧
      ((sweepBuckets env db pending faults limit repair buckets sw).orphans.length < limit →
        ∀ bucket ∈ buckets, ∀ key, (sw.storage.content ⟨bucket, key⟩).isSome →
          isClaimed db pending ⟨bucket, key⟩ = false → keyRecord ⟨bucket, key⟩ ∈
            (sweepBuckets env db pending faults limit repair buckets sw).orphans) := by
  induction buckets generalizing sw with
  | nil => exact ⟨.refl sw, fun _ _ hbucket => absurd hbucket List.not_mem_nil⟩
  | cons first buckets ih =>
    obtain ⟨hfirst, hkeys⟩ := @sweepKeys_extends db faults limit repair pending first sw
      (sw.storage.listObjectKeys env first)
    obtain ⟨hrest, hbuckets⟩ := ih (sweepKeys db pending faults limit repair first sw
      (sw.storage.listObjectKeys env first))
    refine ⟨hfirst.trans hrest, fun hroom bucket hbucket key hstored hfree => ?_⟩
    rcases List.mem_cons.mp hbucket with rfl | hbucket
    · have hroom₁ := Nat.lt_of_le_of_lt hrest.orphans.length_le hroom
      exact hrest.mem (hkeys hroom₁ key (Storage.mem_listObjectKeys.mpr hstored) hfree)
    · -- Either the key is still there, or the first bucket's sweep removed it as an orphan.
      rcases hfirst.contents ⟨bucket, key⟩ with hkept | hremoved
      · exact hbuckets hroom bucket hbucket key (hkept ▸ hstored) hfree
      · exact hrest.mem hremoved

/-! ### The scan of the rows -/

/-- The live rows past the grace, oldest first. -/
def agedRows (db : Database) (cutoff : Timestamp) : List MediaObject :=
  (db.objects.rows.filter fun o => o.deletedAt = none ∧ o.createdAt < cutoff).insertionSort
    fun o o' => o.createdAt ≤ o'.createdAt

/-- The record of a row without bytes. -/
def rowRecord (o : MediaObject) : OrphanRecord := ⟨o.location, some o.id, some o.ownerUserId⟩

/-- `stat_object` fails on the row's location. -/
def statFails (b : Backend) (faults : Faults) (o : MediaObject) : Bool :=
  (b.storage.statObject faults o.location).isNone

theorem findDbOrphans_eq : findDbOrphans b faults cutoff limit =
    (((agedRows b.db cutoff).take limit).filter (statFails b faults)).map rowRecord :=
  rfl

theorem mem_agedRows {o : MediaObject} : o ∈ agedRows db cutoff ↔
    o ∈ db.objects ∧ o.deletedAt = none ∧ o.createdAt < cutoff := by
  rw [agedRows, Table.mem_sorted, decide_eq_true_eq]

theorem statFails_of_missing {o : MediaObject} (h : b.storage.content o.location = none) :
    statFails b faults o = true := by
  simp [statFails, Storage.statObject, Storage.read, h]

/-! ### The report -/

/-- A report that stays below the limit names all there is: every live row past the grace
whose bytes are missing, and every stored key that nothing owns. -/
structure ReportComplete (b : Backend) (now cutoff : Timestamp) (buckets : List String)
    (limit : ℕ) (report : OrphanReport) : Prop where
  rows : report.dbOrphans.length < limit → ∀ o ∈ b.db.objects, o.deletedAt = none →
    o.createdAt < cutoff → b.storage.content o.location = none → rowRecord o ∈ report.dbOrphans
  keys : report.storageOrphans.length < limit → ∀ bucket ∈ buckets, ∀ key,
    (b.storage.content ⟨bucket, key⟩).isSome →
      isClaimed b.db (pendingKeys b.db now) ⟨bucket, key⟩ = false →
        keyRecord ⟨bucket, key⟩ ∈ report.storageOrphans

/-- Of the rows past the grace, the first `limit` all fail their check, or none after them
misses its bytes. -/
def RowsSettled (b : Backend) (faults : Faults) (cutoff : Timestamp) (limit : ℕ) : Prop :=
  (∀ o ∈ (agedRows b.db cutoff).take limit, statFails b faults o = true) ∨
    ∀ o ∈ (agedRows b.db cutoff).drop limit, b.storage.content o.location ≠ none

theorem findDbOrphans_complete_iff :
    ((findDbOrphans b faults cutoff limit).length < limit → ∀ o ∈ b.db.objects,
      o.deletedAt = none → o.createdAt < cutoff → b.storage.content o.location = none →
        rowRecord o ∈ findDbOrphans b faults cutoff limit) ↔ RowsSettled b faults cutoff limit := by
  have hsplit := List.take_append_drop limit (agedRows b.db cutoff)
  have hids : ((agedRows b.db cutoff).map MediaObject.id).Nodup := Table.nodup_sorted
  rw [← hsplit, List.map_append, List.nodup_append] at hids
  rw [findDbOrphans_eq, List.length_map]
  constructor
  · intro hcomplete
    by_contra hnot
    rw [RowsSettled, not_or] at hnot
    obtain ⟨hchecked, hleft⟩ := hnot
    obtain ⟨p, hp, hpasses⟩ : ∃ p ∈ (agedRows b.db cutoff).take limit,
        ¬ statFails b faults p = true := by
      by_contra hall
      exact hchecked fun p hp => by_contra fun hpasses => hall ⟨p, hp, hpasses⟩
    obtain ⟨o, ho, hmissing⟩ : ∃ o ∈ (agedRows b.db cutoff).drop limit,
        b.storage.content o.location = none := by
      by_contra hall
      exact hleft fun o ho hmissing => hall ⟨o, ho, hmissing⟩
    have hshort := List.length_filter_lt_length_iff_exists.mpr ⟨p, hp, hpasses⟩
    obtain ⟨hmem, hlive, haged⟩ := mem_agedRows.mp (List.mem_of_mem_drop ho)
    have hreported := hcomplete (Nat.lt_of_lt_of_le hshort (List.length_take_le _ _)) o hmem hlive
      haged hmissing
    obtain ⟨o', ho', he⟩ := List.mem_map.mp hreported
    have hid : o'.id = o.id := Option.some.inj (congrArg OrphanRecord.objectId he)
    exact hids.2.2 o'.id (List.mem_map_of_mem (List.mem_filter.mp ho').1) o.id
      (List.mem_map_of_mem ho) hid
  · rintro hsettled hroom o ho hlive haged hmissing
    have hfails := @statFails_of_missing b faults o hmissing
    have hrow := mem_agedRows.mpr ⟨ho, hlive, haged⟩
    rw [← hsplit, List.mem_append] at hrow
    rcases hrow with hrow | hrow
    · exact List.mem_map_of_mem (List.mem_filter.mpr ⟨hrow, hfails⟩)
    · rcases hsettled with hall | hnone
      · -- All of the first rows are reported, so there are fewer than the limit of them.
        rw [List.filter_eq_self.mpr hall, List.length_take] at hroom
        rw [List.drop_eq_nil_of_le (by omega)] at hrow
        cases hrow
      · exact absurd hmissing (hnone o hrow)

/-- A short report is a complete one exactly when the rows it did not look at are in order,
or those it looked at are all orphans. -/
theorem reconcileOrphans_complete_iff (env : Env) (b : Backend) (faults : Faults)
    (now : Timestamp) (buckets : List String) (grace : ℤ) (limit : ℕ) (repair : Bool) :
    ReportComplete b now (now - grace) buckets limit
        (reconcileOrphans env b faults now buckets grace limit repair).2 ↔
      RowsSettled b faults (now - grace) limit := by
  refine ⟨fun h => findDbOrphans_complete_iff.mp h.rows, fun h =>
    ⟨findDbOrphans_complete_iff.mpr h, ?_⟩⟩
  exact (@sweepBuckets_extends env b.db faults limit repair (pendingKeys b.db now) buckets
    ⟨b.storage, [], 0⟩).2

/-- Two uploads, and the bytes of the younger one lost. -/
def lostBackend : Backend :=
  let b := (run (serve Env.default) World.initial
    (uploadRequests Env.default 0 ⟨2⟩ (.ordinary 1) .private pngSignature ++
      uploadRequests Env.default 1 ⟨3⟩ (.ordinary 1) .private pngSignature)).backend
  { b with storage := b.storage.erase (signedForm Env.default 1 ⟨3⟩ (.ordinary 1)
    (pngUpload .private)).location }

/-- With a limit of one the scan sees the older row, reports nothing, and one orphan is left. -/
theorem not_reconcileOrphans_complete :
    ¬ ReportComplete lostBackend 10 10 ["private-media"] 1
      (reconcileOrphans Env.default lostBackend Faults.none 10 ["private-media"] 0 1 false).2 := by
  intro h
  have hreport : (reconcileOrphans Env.default lostBackend Faults.none 10 ["private-media"] 0 1
      false).2.dbOrphans = [] := by decide +kernel
  have hlost : ∃ o ∈ lostBackend.db.objects, o.deletedAt = none ∧ o.createdAt < 10 ∧
      lostBackend.storage.content o.location = none := by decide +kernel
  obtain ⟨o, ho, hlive, haged, hmissing⟩ := hlost
  have hmem := h.rows (by rw [hreport]; decide) o ho hlive haged hmissing
  rw [hreport] at hmem
  cases hmem

end MediaService
