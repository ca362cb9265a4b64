import MediaService.App.Routes
import MediaService.Lifecycle.Completion
import MediaService.Lifecycle.Transfer

/-! The scans an import enqueues. A row reports an object as created exactly if it hands that
object on, which is new, unscanned and still there when the batch ends; so the calls made
afterwards find each a row of their own to mark. -/

namespace MediaService

open Foundation

variable {env : Env} {b b' : Backend} {user : UserModel} {ctx : RowContext}
  {entry : ImportObjectEntry} {categories : List Category} {paths : List String}

/-! ### Created rows -/

/-- Every object is still there, with another update time at most. -/
def Touches (db db' : Database) : Prop :=
  ∀ o ∈ db.objects, ∃ now, { o with updatedAt := now } ∈ db'.objects

theorem Touches.of_eq {db db' : Database} (h : db'.objects = db.objects) : Touches db db' :=
  fun o ho => ⟨o.updatedAt, h ▸ ho⟩

theorem Touches.trans {db db' db'' : Database} (h : Touches db db') (h' : Touches db' db'') :
    Touches db db'' := by
  intro o ho
  obtain ⟨now, ho'⟩ := h o ho
  obtain ⟨now', ho''⟩ := h' _ ho'
  exact ⟨now', ho''⟩

theorem Touches.find_eq_none {db db' : Database} (h : Touches db db') {id : UUID}
    (hnone : db'.objects.find id = none) : db.objects.find id = none := by
  refine Table.find_eq_none.mpr fun o ho hid => ?_
  obtain ⟨now, ho'⟩ := h o ho
  exact Table.find_eq_none.mp hnone _ ho' hid

theorem touches_fileInto {db : Database} (now : Timestamp) {o : MediaObject}
    (ho : o ∈ db.objects) (categories : List Category) :
    Touches db (fileInto db now o categories) := by
  unfold fileInto
  dsimp only
  split
  · exact .of_eq rfl
  · intro q hq
    have hmem := @Table.mem_update _ _ _ _ db.objects { o with updatedAt := now } o
      (Table.find_of_mem ho)
    by_cases hk : q.id = o.id
    · obtain rfl := Table.eq_of_key_eq hq ho hk
      exact ⟨now, hmem.mpr (.inl rfl)⟩
    · exact ⟨q.updatedAt, hmem.mpr (.inr ⟨hq, hk⟩)⟩

/-- A completion leaves what is there, and promotes an object that was not. -/
theorem completeUpload_creates (env : Env) (b : Backend) (faults : Faults) (now : Timestamp)
    (user : UserModel) (id : UUID) (req : UploadCompleteRequest) :
    Touches b.db (completeUpload env b faults now user id req).1.db ∧
      ∀ o, (completeUpload env b faults now user id req).2 = .ok o → o.scanStatus = .pending ∧
        o ∈ (completeUpload env b faults now user id req).1.db.objects ∧
        b.db.objects.find o.id = none := by
  have hends := ends_completeUpload env b faults now user id req
  generalize completeUpload env b faults now user id req = r at hends ⊢
  cases hends with
  | refused _ _ hdb =>
    refine ⟨?_, fun _ ho => by cases ho⟩
    rcases hdb with rfl | ⟨s, -, -, -, rfl⟩
    · exact .of_eq rfl
    · exact .of_eq rfl
  | rejected _ _ _ ht =>
    exact ⟨fun q hq => ⟨q.updatedAt, (Table.mem_insert ht).mpr (.inl hq)⟩, fun _ ho => by cases ho⟩
  | promoted _ _ _ _ _ _ ht =>
    refine ⟨fun q hq => ⟨q.updatedAt, (Table.mem_insert ht).mpr (.inl hq)⟩, fun o ho => ?_⟩
    obtain ⟨-, rfl⟩ := MediaObject.validated_eq_ok.mp ho
    exact ⟨rfl, (Table.mem_insert ht).mpr (.inr rfl), Table.find_none_of_insert ht⟩

/-- What a row reports of what it left. -/
structure RowCreates (db db' : Database) (res : ImportObjectResult × Option MediaObject) :
    Prop where
  touches : Touches db db'
  unmarked : res.1.scanQueued = false
  status : res.1.status = .created ↔ res.2.isSome = true
  object : ∀ o, res.2 = some o → res.1.mediaObjectId = some o.id ∧ o.scanStatus = .pending ∧
    o ∈ db'.objects ∧ db.objects.find o.id = none

theorem RowCreates.none {db db' : Database} {status : ImportRowStatus}
    {reason : Option ImportRowReason} {message : Option String} {id : Option UUID}
    (htouches : Touches db db') (hstatus : status ≠ .created) :
    RowCreates db db' (rowResult entry paths status reason message id, none) where
  touches := htouches
  unmarked := rfl
  status := iff_of_false hstatus (by simp)
  object _ ho := by cases ho

theorem rowCreates_recordAndComplete {staged : StagedUpload} {req : UploadInitiateRequest}
    {res : ImportObjectResult × Option MediaObject}
    (h : recordAndComplete env b ctx user entry staged req categories paths = (b', .ok res)) :
    RowCreates b.db b'.db res := by
  unfold recordAndComplete at h
  dsimp only at h
  split at h
  · cases h
  · rename_i db hrecord
    obtain ⟨-, t, -, rfl⟩ := Database.insertSession_ok hrecord
    obtain ⟨htouches, hobject⟩ := completeUpload_creates env
      { b with db := { b.db with sessions := t } } ctx.faults ctx.completedAt user staged.mediaId
      ⟨entry.sha256, some (categories.map Category.id)⟩
    split at h
    · rename_i o he
      cases h
      rw [he] at htouches hobject
      refine ⟨htouches, rfl, iff_of_true rfl rfl, ?_⟩
      rintro o' ⟨⟩
      exact ⟨rfl, hobject _ rfl⟩
    · rename_i he
      cases h
      rw [he] at htouches
      exact .none htouches (by decide)
    · cases h

theorem rowCreates_importOneFile {info : Option ZipInfo}
    {res : ImportObjectResult × Option MediaObject}
    (h : importOneFile env b ctx user info entry categories paths = (b', .ok res)) :
    RowCreates b.db b'.db res := by
  unfold importOneFile at h
  split at h
  · cases h
    exact .none (.of_eq rfl) (by decide)
  · rename_i o hmatch
    cases h
    exact .none (touches_fileInto _ (importableMatch_eq_some hmatch).1 _) (by decide)
  · split at h
    · cases h
      exact .none (.of_eq rfl) (by decide)
    · unfold importNewFile at h
      split at h
      · cases h
        exact .none (.of_eq rfl) (by decide)
      · split at h
        · cases h
          exact .none (.of_eq rfl) (by decide)
        · split at h
          · cases h
            exact .none (.of_eq rfl) (by decide)
          · split at h
            · cases h
              exact .none (.of_eq rfl) (by decide)
            · cases h
            · split at h
              · cases h
                exact .none (.of_eq rfl) (by decide)
              · have hrow := rowCreates_recordAndComplete h
                exact hrow

theorem rowCreates_importManifestEntry {res : ImportObjectResult × Option MediaObject}
    (h : importManifestEntry b ctx user entry categories paths = (b', .ok res)) :
    RowCreates b.db b'.db res := by
  unfold importManifestEntry at h
  split at h
  · cases h
    exact .none (.of_eq rfl) (by decide)
  · cases h
    exact .none (.of_eq rfl) (by decide)
  · rename_i o hmatch
    cases h
    exact .none (touches_fileInto _ (importableMatch_eq_some hmatch).1 _) (by decide)

/-! ### The batch -/

/-- What a batch reports of what it left: a row is a created one exactly if it hands an
object on, that object was not there before, and no two rows created one. -/
structure BatchCreates (db db' : Database)
    (results : List (ImportObjectResult × Option MediaObject)) : Prop where
  touches : Touches db db'
  unmarked : ∀ res ∈ results, res.1.scanQueued = false
  status : ∀ res ∈ results, (res.1.status = .created ↔ res.2.isSome = true)
  object : ∀ res ∈ results, ∀ o, res.2 = some o → res.1.mediaObjectId = some o.id ∧
    o.scanStatus = .pending ∧ (∃ now, { o with updatedAt := now } ∈ db'.objects) ∧
    db.objects.find o.id = none
  nodup : ((results.filterMap Prod.snd).map MediaObject.id).Nodup

theorem BatchCreates.nil {db db' : Database} (h : Touches db db') : BatchCreates db db' [] where
  touches := h
  unmarked _ hres := absurd hres List.not_mem_nil
  status _ hres := absurd hres List.not_mem_nil
  object _ hres := absurd hres List.not_mem_nil
  nodup := List.nodup_nil

theorem BatchCreates.cons {db db₁ db' : Database} {res : ImportObjectResult × Option MediaObject}
    {results : List (ImportObjectResult × Option MediaObject)} (hrow : RowCreates db db₁ res)
    (hrest : BatchCreates db₁ db' results) : BatchCreates db db' (res :: results) where
  touches := hrow.touches.trans hrest.touches
  unmarked := List.forall_mem_cons.mpr ⟨hrow.unmarked, hrest.unmarked⟩
  status := List.forall_mem_cons.mpr ⟨hrow.status, hrest.status⟩
  object := by
    refine List.forall_mem_cons.mpr ⟨fun o ho => ?_, fun r hr o ho => ?_⟩
    · obtain ⟨hid, hscan, hmem, hnone⟩ := hrow.object o ho
      exact ⟨hid, hscan, hrest.touches o hmem, hnone⟩
    · obtain ⟨hid, hscan, hmem, hnone⟩ := hrest.object r hr o ho
      exact ⟨hid, hscan, hmem, hrow.touches.find_eq_none hnone⟩
  nodup := by
    cases hres : res.2 with
    | none =>
      rw [List.filterMap_cons_none hres]
      exact hrest.nodup
    | some o =>
      rw [List.filterMap_cons_some hres, List.map_cons, List.nodup_cons]
      refine ⟨fun hin => ?_, hrest.nodup⟩
      obtain ⟨q, hq, hid⟩ := List.mem_map.mp hin
      obtain ⟨r, hr, hrq⟩ := List.mem_filterMap.mp hq
      obtain ⟨-, -, -, hnone⟩ := hrest.object r hr q hrq
      exact Table.find_eq_none.mp hnone o (hrow.object o hres).2.2.1 hid.symm

theorem BatchCreates.before {db₀ db db' : Database}
    {results : List (ImportObjectResult × Option MediaObject)} (h : BatchCreates db db' results)
    (he : db.objects = db₀.objects) : BatchCreates db₀ db' results where
  touches := (Touches.of_eq he).trans h.touches
  unmarked := h.unmarked
  status := h.status
  object := he ▸ h.object
  nodup := h.nodup

theorem batchCreates_importRows {tree : RecreatedTree} {ctx : ℕ → RowContext} {row : ImportRow}
    (hrow : ∀ {b b' : Backend} {ctx entry categories paths res},
      row b ctx entry categories paths = (b', .ok res) → RowCreates b.db b'.db res)
    {entries : List ImportObjectEntry} {i : ℕ}
    {results : List (ImportObjectResult × Option MediaObject)}
    (h : importRows env tree ctx row i b entries = (b', .ok results)) :
    BatchCreates b.db b'.db results := by
  induction entries generalizing i b results with
  | nil =>
    cases h
    exact .nil (.of_eq rfl)
  | cons entry entries ih =>
    rw [importRows] at h
    split at h
    · split at h
      · cases h
      · rename_i hfirst
        split at h
        · cases h
        · rename_i hrest
          cases h
          exact .cons (hrow hfirst) (ih hrest)
    · cases h
    · cases h

theorem batchCreates_importDocument {ctx : ℕ → RowContext} {row : ImportRow}
    (hrow : ∀ {b b' : Backend} {ctx entry categories paths res},
      row b ctx entry categories paths = (b', .ok res) → RowCreates b.db b'.db res)
    {format : ImportFormat} {manifest : ImportManifest} {outcome : ImportOutcome}
    (h : importDocument env b ctx user format manifest row = (b', .ok outcome)) :
    ∃ results, outcome.report.objects = results.map Prod.fst ∧
      outcome.createdObjects = results.filterMap Prod.snd ∧ BatchCreates b.db b'.db results := by
  obtain ⟨_, _, _, htree⟩ := onlyCategories_recreateTree env b.db user manifest
  unfold importDocument at h
  split at h
  · cases h
  · rename_i db tree he
    rw [he] at htree
    split at h
    · cases h
    · rename_i results hrows
      cases h
      have hobjects := congrArg Database.objects htree
      exact ⟨results, rfl, rfl, (batchCreates_importRows hrow hrows).before hobjects⟩

/-- An import that is reported hands on what its created rows created. -/
theorem batchCreates_runImport {ctx : ℕ → RowContext} {source : ImportSource}
    {outcome : ImportOutcome} (h : runImport env b ctx user source = (b', .ok outcome)) :
    ∃ results, outcome.report.objects = results.map Prod.fst ∧
      outcome.createdObjects = results.filterMap Prod.snd ∧ BatchCreates b.db b'.db results := by
  unfold runImport at h
  split at h
  · exact batchCreates_importDocument (fun hrow => rowCreates_importManifestEntry hrow) h
  · split at h
    · cases h
    · exact batchCreates_importDocument (fun hrow => rowCreates_importOneFile hrow) h

/-! ### The calls -/

/-- The objects the created rows are of. -/
def createdIds (rows : List ImportObjectResult) : List UUID :=
  rows.filterMap fun row => if row.status = .created then row.mediaObjectId else none

theorem BatchCreates.createdIds_eq {db db' : Database}
    {results : List (ImportObjectResult × Option MediaObject)} (h : BatchCreates db db' results) :
    createdIds (results.map Prod.fst) = (results.filterMap Prod.snd).map MediaObject.id := by
  unfold createdIds
  rw [List.filterMap_map, List.map_filterMap]
  refine List.filterMap_congr fun res hres => ?_
  dsimp only [Function.comp_apply]
  cases hobject : res.2 with
  | none => exact if_neg (by rw [h.status res hres, hobject]; simp)
  | some o =>
    rw [if_pos ((h.status res hres).mpr (by rw [hobject]; rfl)), (h.object res hres o hobject).1]
    rfl

/-- Mark the created row of an object. -/
def markRow (id : UUID) (row : ImportObjectResult) : ImportObjectResult :=
  if row.status = .created ∧ row.mediaObjectId = some id then { row with scanQueued := true }
  else row

theorem createdIds_cons_of_pos {row : ImportObjectResult} {rows : List ImportObjectResult}
    {id : UUID} (h : row.status = .created ∧ row.mediaObjectId = some id) :
    createdIds (row :: rows) = id :: createdIds rows := by
  unfold createdIds
  exact List.filterMap_cons_some (by rw [if_pos h.1, h.2])

theorem mem_createdIds_cons {row : ImportObjectResult} {rows : List ImportObjectResult} {id : UUID}
    (h : ¬ (row.status = .created ∧ row.mediaObjectId = some id)) :
    id ∈ createdIds (row :: rows) ↔ id ∈ createdIds rows := by
  unfold createdIds
  simp only [List.mem_filterMap, List.mem_cons, exists_eq_or_imp]
  refine or_iff_right fun he => h ?_
  split at he
  · rename_i hstatus
    exact ⟨hstatus, he⟩
  · cases he

theorem markScanQueued_of_not_mem {rows : List ImportObjectResult} {id : UUID}
    (h : id ∉ createdIds rows) : markScanQueued id rows = none ∧ rows.map (markRow id) = rows := by
  induction rows with
  | nil => exact ⟨rfl, rfl⟩
  | cons row rows ih =>
    by_cases hrow : row.status = .created ∧ row.mediaObjectId = some id
    · exact absurd (createdIds_cons_of_pos hrow ▸ List.mem_cons_self) h
    · obtain ⟨hnone, hsame⟩ := ih fun hin => h ((mem_createdIds_cons hrow).mpr hin)
      refine ⟨?_, ?_⟩
      · rw [markScanQueued, hnone]
        exact if_neg hrow
      · rw [List.map_cons, hsame, markRow, if_neg hrow]

/-- Where one created row is the object's, the call marks it. -/
theorem markScanQueued_eq {rows : List ImportObjectResult} {id : UUID}
    (hnodup : (createdIds rows).Nodup) (hid : id ∈ createdIds rows) :
    markScanQueued id rows = some (rows.map (markRow id)) := by
  induction rows with
  | nil => cases hid
  | cons row rows ih =>
    by_cases hrow : row.status = .created ∧ row.mediaObjectId = some id
    · rw [createdIds_cons_of_pos hrow, List.nodup_cons] at hnodup
      obtain ⟨hnone, hsame⟩ := markScanQueued_of_not_mem hnodup.1
      rw [markScanQueued, hnone, List.map_cons, hsame, markRow]
      simp only [if_pos hrow]
    · have htail : (createdIds rows).Nodup := hnodup.sublist <| by
        unfold createdIds
        exact (List.sublist_cons_self _ _).filterMap _
      rw [markScanQueued, ih htail ((mem_createdIds_cons hrow).mp hid), List.map_cons, markRow]
      simp only [if_neg hrow]

theorem createdIds_map {rows : List ImportObjectResult}
    {f : ImportObjectResult → ImportObjectResult}
    (hf : ∀ row, (f row).status = row.status ∧ (f row).mediaObjectId = row.mediaObjectId) :
    createdIds (rows.map f) = createdIds rows := by
  unfold createdIds
  rw [List.filterMap_map]
  refine List.filterMap_congr fun row _ => ?_
  rw [Function.comp_apply, (hf row).1, (hf row).2]

theorem markRow_keeps (id : UUID) (row : ImportObjectResult) :
    (markRow id row).status = row.status ∧ (markRow id row).mediaObjectId = row.mediaObjectId ∧
      markRow id row = { row with scanQueued := (markRow id row).scanQueued } := by
  unfold markRow
  split <;> exact ⟨rfl, rfl, rfl⟩

/-- The calls for some objects, beginning with the `i`-th: what became of a row, and what the
broker took. -/
structure Calls (outcomes : ℕ → EnqueueOutcome) (i : ℕ) (os : List MediaObject)
    (scans scans' : Handover ScanJobPayload) (mark : ImportObjectResult → ImportObjectResult) :
    Prop where
  same : ∀ row, mark row = { row with scanQueued := (mark row).scanQueued }
  marked : ∀ row, (mark row).scanQueued = true ↔ row.scanQueued = true ∨ row.status = .created ∧
    ∃ k o, os[k]? = some o ∧ row.mediaObjectId = some o.id ∧ (outcomes (i + k)).raises = false
  keeps : ∀ p ∈ scans.held, p ∈ scans'.held
  taken : ∀ k o, os[k]? = some o → (outcomes (i + k)).delivers = true →
    scanPayload o ∈ scans'.held
  held : ∀ p ∈ scans'.held, p ∈ scans.held ∨
    ∃ k o, os[k]? = some o ∧ p = scanPayload o ∧ (outcomes (i + k)).delivers = true

theorem exists_getElem?_cons {α : Type*} {P : ℕ → α → Prop} {a : α} {l : List α} :
    (∃ k b, (a :: l)[k]? = some b ∧ P k b) ↔ P 0 a ∨ ∃ k b, l[k]? = some b ∧ P (k + 1) b := by
  constructor
  · rintro ⟨_ | k, b, hb, hP⟩
    · cases hb
      exact .inl hP
    · exact .inr ⟨k, b, hb, hP⟩
  · rintro (hP | ⟨k, b, hb, hP⟩)
    · exact ⟨0, a, rfl, hP⟩
    · exact ⟨k + 1, b, hb, hP⟩

/-- A call, then the others. -/
theorem Calls.cons {outcomes : ℕ → EnqueueOutcome} {i : ℕ} {o : MediaObject}
    {os : List MediaObject} {scans scans' : Handover ScanJobPayload}
    {mark : ImportObjectResult → ImportObjectResult} (hdue : scanPayload o ∈ scans.due)
    (h : Calls outcomes (i + 1) os (enqueueScan scans (scanPayload o) (outcomes i)) scans' mark) :
    Calls outcomes i (o :: os) scans scans' fun row =>
      mark (if (outcomes i).raises then row else markRow o.id row) := by
  have hindex : ∀ k, i + 1 + k = i + (k + 1) := by omega
  constructor
  · intro row
    rw [h.same]
    split
    · rfl
    · rw [(markRow_keeps o.id row).2.2]
  · intro row
    rw [h.marked, exists_getElem?_cons]
    simp only [hindex, Nat.add_zero]
    cases hraises : (outcomes i).raises with
    | true => simp
    | false =>
      rw [if_neg Bool.false_ne_true, (markRow_keeps o.id row).1, (markRow_keeps o.id row).2.1]
      unfold markRow
      split <;> tauto
  · exact fun p hp => h.keeps p (Handover.held_hand_mono hp)
  · intro k q hq hdelivers
    cases k with
    | zero =>
      cases hq
      refine h.keeps _ ?_
      rw [enqueueScan, show (outcomes i).delivers = true from hdelivers]
      obtain ⟨p, hp, rfl | hsame⟩ := Handover.held_hand (fun _ _ => false) hdue
      · exact hp
      · cases hsame
    | succ k => exact h.taken k q hq (by rw [hindex]; exact hdelivers)
  · intro p hp
    rw [exists_getElem?_cons]
    rcases h.held p hp with hp | ⟨k, q, hq, he, hdelivers⟩
    · rcases Handover.mem_held_hand hp with hp | ⟨he, -, hdelivers⟩
      · exact .inl hp
      · exact .inr (.inl ⟨he, hdelivers⟩)
    · rw [hindex] at hdelivers
      exact .inr (.inr ⟨k, q, hq, he, hdelivers⟩)

/-- Where each object has a created row of its own and its job is due, no call escapes, and
each settles its row and its job. -/
theorem enqueueImportScans_calls (outcomes : ℕ → EnqueueOutcome) {os : List MediaObject} {i : ℕ}
    {scans : Handover ScanJobPayload} {rows : List ImportObjectResult}
    (hrows : (createdIds rows).Nodup) (hids : (os.map MediaObject.id).Nodup)
    (hmem : ∀ o ∈ os, o.id ∈ createdIds rows) (hdue : ∀ o ∈ os, scanPayload o ∈ scans.due) :
    ∃ scans' mark, enqueueImportScans outcomes i scans rows os = (scans', .ok (rows.map mark)) ∧
      Calls outcomes i os scans scans' mark := by
  induction os generalizing i scans rows with
  | nil =>
    refine ⟨scans, id, by rw [List.map_id]; rfl, fun _ => rfl, fun row => ?_, fun _ hp => hp,
      fun _ _ ho => ?_, fun _ hp => .inl hp⟩
    · simp
    · simp at ho
  | cons o os ih =>
    rw [List.map_cons, List.nodup_cons] at hids
    have hlater : ∀ q ∈ os, scanPayload q ∈
        (enqueueScan scans (scanPayload o) (outcomes i)).due := by
      intro q hq
      refine Handover.due_hand_of_ne (hdue q (List.mem_cons_of_mem o hq)) fun he => hids.1 ?_
      exact List.mem_map.mpr ⟨q, hq, congrArg ScanJobPayload.objectId he⟩
    rw [enqueueImportScans]
    cases hraises : (outcomes i).raises with
    | true =>
      obtain ⟨scans', mark, he, hcalls⟩ := ih (i := i + 1) hrows hids.2
        (fun q hq => hmem q (List.mem_cons_of_mem o hq)) hlater
      refine ⟨scans', _, ?_, hcalls.cons (hdue o List.mem_cons_self)⟩
      simp only [hraises, if_true]
      exact he
    | false =>
      have hkeeps : ∀ row, (markRow o.id row).status = row.status ∧
          (markRow o.id row).mediaObjectId = row.mediaObjectId :=
        fun row => ⟨(markRow_keeps o.id row).1, (markRow_keeps o.id row).2.1⟩
      have hmarked : createdIds (rows.map (markRow o.id)) = createdIds rows :=
        createdIds_map hkeeps
      rw [← hmarked] at hrows hmem
      obtain ⟨scans', mark, he, hcalls⟩ := ih (i := i + 1) hrows hids.2
        (fun q hq => hmem q (List.mem_cons_of_mem o hq)) hlater
      rw [hmarked] at hrows hmem
      refine ⟨scans', _, ?_, hcalls.cons (hdue o List.mem_cons_self)⟩
      simp only [hraises, Bool.false_eq_true, if_false,
        markScanQueued_eq hrows (hmem o List.mem_cons_self)]
      rw [he, List.map_map]
      rfl

end MediaService
