import MediaService.Lifecycle.Objects
import MediaService.Scenario

/-! Events beside the changes they announce. Every accepted verdict, deletion and
registration stages an event in its own transaction. A deletion looks first
whether there is something to do; a verdict and a registration do not, and stage
an event also when they find everything as they leave it. So the events of a run
count the changes exactly if nothing accepted repeats what is stored. -/

namespace MediaService

open Foundation

/-! ### Requests -/

/-- The requests that stage events. -/
inductive EventRequest where
  | scanResult (now : Timestamp) (objectId : UUID) (scanStatus : ScanStatus)
  | delete (faults : Faults) (commitFails : Bool) (now : Timestamp) (user : UserModel)
      (objectId : UUID)
  | register (now : Timestamp) (freshId objectId : UUID) (req : VariantRegisterRequest)

/-- The service after the request, which a refusal leaves as it was. -/
def eventStep (env : Env) (b : Backend) : EventRequest → Backend
  | .scanResult now objectId scanStatus =>
    match applyScanResult b.db now objectId scanStatus with
    | .ok (db, _) => { b with db := db }
    | .error _ => b
  | .delete faults commitFails now user objectId =>
    (deleteObject env b faults commitFails now user objectId).1
  | .register now freshId objectId req =>
    match registerVariant b.db now freshId objectId req with
    | .ok (db, _) => { b with db := db }
    | .error _ => b

/-! ### What a request stages -/

/-- The row a verdict leaves. -/
def verdictRow (now : Timestamp) (scanStatus : ScanStatus) (o : MediaObject) : MediaObject :=
  if scanStatus = .clean then { o with scanStatus := .clean, status := .ready, updatedAt := now }
  else { o with scanStatus := .quarantined, updatedAt := now }

def verdictEvent (now : Timestamp) (scanStatus : ScanStatus) (o : MediaObject) : OutboxEvent :=
  if scanStatus = .clean then
    stagedEvent now eventObjectReady o.id
      [("status", (verdictRow now scanStatus o).status.str),
        ("scan_status", (verdictRow now scanStatus o).scanStatus.str)]
  else
    stagedEvent now eventScanFailed o.id
      [("scan_status", (verdictRow now scanStatus o).scanStatus.str)]

theorem applyScanResult_eq (db : Database) (now : Timestamp) (objectId : UUID)
    (scanStatus : ScanStatus) :
    applyScanResult db now objectId scanStatus =
      match db.objects.find objectId with
      | none => refuse 404 "Media object not found."
      | some o =>
        if db.locationTaken o then .error .integrityError
        else .ok ({ db with
            objects := db.objects.update (verdictRow now scanStatus o)
            outbox := db.outbox ++ [verdictEvent now scanStatus o] },
          verdictRow now scanStatus o) := by
  unfold applyScanResult fetchObject
  cases db.objects.find objectId with
  | none => rfl
  | some o =>
    have hupd : ∀ o', o'.id = o.id → o'.location = o.location → db.updateObject o' =
        if db.locationTaken o then .error .integrityError
        else .ok { db with objects := db.objects.update o' } := by
      intro o' hid hlocation
      rw [Database.updateObject, Database.locationTaken, Database.locationTaken, hid, hlocation]
    simp only [Bool.not_true, Bool.false_eq_true, false_and, if_false]
    by_cases hclean : scanStatus = .clean
    · rw [if_pos hclean, hupd _ (by exact rfl) (by exact rfl)]
      simp only [verdictRow, verdictEvent, hclean, if_true]
      cases db.locationTaken o <;> rfl
    · rw [if_neg hclean, hupd _ (by exact rfl) (by exact rfl)]
      simp only [verdictRow, verdictEvent, hclean, if_false]
      cases db.locationTaken o <;> rfl

/-- A registration that is accepted writes its row and stages one event. -/
theorem registerVariant_staged {db db' : Database} {now : Timestamp} {freshId objectId : UUID}
    {req : VariantRegisterRequest} {v : MediaVariant}
    (h : registerVariant db now freshId objectId req = .ok (db', v)) :
    ∃ t, db' = { db with
        variants := t
        outbox := db.outbox ++ [stagedEvent now eventVariantReady objectId
          [("variant_name", v.variantName), ("format", v.format)]] } ∧
      (t.rows = db.variants.rows ↔
        (db.variants.rows.find? fun v =>
          v.mediaObjectId = objectId ∧ v.variantName = req.variantName) = some v) := by
  obtain ⟨-, -, t, rfl, ⟨v₀, hv₀, rfl, rfl⟩ | ⟨hnone, rfl, ht⟩⟩ := registerVariant_cases h
  · have hmem : v₀ ∈ db.variants := List.mem_of_find?_eq_some hv₀
    have hfind : db.variants.find (registeredVariant req objectId v₀.id v₀.createdAt).id =
      some v₀ := Table.find_of_mem hmem
    refine ⟨_, rfl, ?_⟩
    rw [hv₀, Option.some.injEq]
    constructor
    · intro hrows
      have ht : db.variants.update (registeredVariant req objectId v₀.id v₀.createdAt) =
        db.variants := Table.ext hrows
      have hself := Table.find_update_self hfind
      rw [ht, hfind] at hself
      exact Option.some.inj hself
    · intro he
      rw [← he] at hfind ⊢
      rw [Table.update_self hfind]
  · refine ⟨t, rfl, ?_⟩
    rw [hnone, Table.rows_of_insert ht]
    simp

/-! ### Events and changes -/

/-- How many events of these types are staged about an object. -/
def eventCount (types : List String) (objectId : UUID) (db : Database) : ℕ :=
  (db.outbox.filter fun e => e.eventType ∈ types ∧ e.objectId = objectId).length

def verdictTypes : List String := [eventObjectReady, eventScanFailed]

/-- What a verdict is about: the status and the scan status of an object. -/
def MediaObject.mark (o : MediaObject) : MediaObjectStatus × ScanStatus := (o.status, o.scanStatus)

/-- Whether the request is a verdict that changes an object's mark. -/
def verdictChanges (env : Env) (objectId : UUID) (b : Backend) : EventRequest → Bool
  | .scanResult now id scanStatus =>
    (b.db.objects.find objectId).map MediaObject.mark ≠
      ((eventStep env b (.scanResult now id scanStatus)).db.objects.find objectId).map
        MediaObject.mark
  | _ => false

/-- Whether the object becomes deleted. -/
def becomesDeleted (env : Env) (objectId : UUID) (b : Backend) (r : EventRequest) : Bool :=
  (b.db.objects.find objectId).any (fun o => o.deletedAt.isNone) ∧
    ((eventStep env b r).db.objects.find objectId).any fun o => o.deletedAt.isSome

/-- Whether the request is a registration for the object that changes a variant row. -/
def variantChanges (env : Env) (objectId : UUID) (b : Backend) : EventRequest → Bool
  | .register now freshId id req =>
    id = objectId ∧
      (eventStep env b (.register now freshId id req)).db.variants.rows ≠ b.db.variants.rows
  | _ => false

/-- A request that would be accepted and that finds everything as it leaves it: a
verdict the object already has, a registration of the variant row stored under
its name. The constraints only refuse what other rows collide with. -/
def Repeats (db : Database) : EventRequest → Prop
  | .scanResult now objectId scanStatus =>
    ∃ o, db.objects.find objectId = some o ∧ db.locationTaken o = false ∧
      (verdictRow now scanStatus o).mark = o.mark
  | .delete _ _ _ _ _ => False
  | .register _ _ objectId req =>
    (db.objects.find objectId).isSome ∧
      ∃ v, (db.variants.rows.find? fun v =>
          v.mediaObjectId = objectId ∧ v.variantName = req.variantName) = some v ∧
        db.variantTaken v = false ∧ registeredVariant req objectId v.id v.createdAt = v

section Step

variable {env : Env} {b : Backend}

theorem eventCount_append (types : List String) (objectId : UUID) {db : Database}
    {outbox : List OutboxEvent} {e : OutboxEvent} (h : db.outbox = outbox ++ [e]) :
    eventCount types objectId db = (outbox.filter fun e =>
        e.eventType ∈ types ∧ e.objectId = objectId).length +
      (decide (e.eventType ∈ types ∧ e.objectId = objectId)).toNat := by
  rw [eventCount, h, List.filter_append, List.length_append]
  by_cases he : e.eventType ∈ types ∧ e.objectId = objectId <;> simp [he]

/-- A verdict either is refused or writes its row and stages its event. -/
theorem eventStep_scanResult (env : Env) (b : Backend) (now : Timestamp) (id : UUID)
    (scanStatus : ScanStatus) :
    (eventStep env b (.scanResult now id scanStatus) = b ∧
        ¬∃ o, b.db.objects.find id = some o ∧ b.db.locationTaken o = false) ∨
      ∃ o, b.db.objects.find id = some o ∧ b.db.locationTaken o = false ∧
        eventStep env b (.scanResult now id scanStatus) = { b with db := { b.db with
          objects := b.db.objects.update (verdictRow now scanStatus o)
          outbox := b.db.outbox ++ [verdictEvent now scanStatus o] } } := by
  rw [eventStep, applyScanResult_eq]
  cases hfind : b.db.objects.find id with
  | none => exact .inl ⟨rfl, by simp⟩
  | some o =>
    by_cases htaken : b.db.locationTaken o = true
    · simp [htaken]
    · simp [htaken]

/-- A deletion either leaves the database alone or marks one live object and
stages its event. -/
theorem eventStep_delete (env : Env) (b : Backend) (faults : Faults) (commitFails : Bool)
    (now : Timestamp) (user : UserModel) (id : UUID) :
    (eventStep env b (.delete faults commitFails now user id)).db = b.db ∨
      ∃ o o' usage, b.db.objects.find id = some o ∧ o.deletedAt = none ∧ o'.id = o.id ∧
        o'.deletedAt = some now ∧
        (eventStep env b (.delete faults commitFails now user id)).db = { b.db with
          objects := b.db.objects.update o'
          usage := usage
          outbox := b.db.outbox ++ [stagedEvent now eventObjectDeleted o.id
            [("visibility", o.visibility.str)]] } := by
  rw [eventStep]
  rcases deleteObject_cases env b faults commitFails now user id with
    he | ⟨o, st, bucket, hload, hlive, -, ⟨e, he⟩ | ⟨db', -, hcommit, he⟩⟩
  · exact .inl (by rw [he])
  · exact .inl (by rw [he])
  · right
    obtain ⟨ho, hid, -, -⟩ := loadObject_ok hload
    have hfind : b.db.objects.find id = some o := hid ▸ Table.find_of_mem ho
    unfold softDeletedDatabase at hcommit
    split at hcommit
    · cases hcommit
    · rename_i db₁ hupd
      obtain ⟨-, rfl⟩ := Database.updateObject_ok hupd
      cases hcommit
      refine ⟨o, { o with
          storageBucket := bucket.getD o.storageBucket
          deletedAt := some now
          status := .deleted
          updatedAt := now }, recordObjectRemoved b.db.usage o.scope o.sizeBytes now, hfind, hlive,
        rfl, rfl, ?_⟩
      rw [he]
      rfl

/-- A registration over a stored row. -/
theorem registerVariant_existing {db : Database} {now : Timestamp} {freshId objectId : UUID}
    {req : VariantRegisterRequest} {v : MediaVariant} (hobject : (db.objects.find objectId).isSome)
    (hv : (db.variants.rows.find? fun v =>
      v.mediaObjectId = objectId ∧ v.variantName = req.variantName) = some v) :
    registerVariant db now freshId objectId req =
      if db.variantTaken (registeredVariant req objectId v.id v.createdAt) then
        .error .integrityError
      else .ok ({ db with
          variants := db.variants.update (registeredVariant req objectId v.id v.createdAt)
          outbox := db.outbox ++ [stagedEvent now eventVariantReady objectId
            [("variant_name", req.variantName), ("format", req.format)]] },
        registeredVariant req objectId v.id v.createdAt) := by
  obtain ⟨o, ho⟩ := Option.isSome_iff_exists.mp hobject
  have hfetch : fetchObject db objectId true = .ok o := by
    rw [fetchObject, ho]
    rfl
  unfold registerVariant
  rw [hfetch]
  dsimp only
  rw [hv]
  dsimp only
  rw [Database.updateVariant]
  cases db.variantTaken (registeredVariant req objectId v.id v.createdAt) <;> rfl

theorem object_of_registerVariant {db db' : Database} {now : Timestamp} {freshId objectId : UUID}
    {req : VariantRegisterRequest} {v : MediaVariant}
    (h : registerVariant db now freshId objectId req = .ok (db', v)) :
    (db.objects.find objectId).isSome := by
  unfold registerVariant fetchObject at h
  cases hf : db.objects.find objectId with
  | none => simp [hf, refuse] at h
  | some q => rfl

/-- A registration either is refused or stages its event, and it changes no row
exactly if the stored one is what it writes. -/
theorem eventStep_register (env : Env) (b : Backend) (now : Timestamp) (freshId id : UUID)
    (req : VariantRegisterRequest) :
    (eventStep env b (.register now freshId id req) = b ∧
        ¬Repeats b.db (.register now freshId id req)) ∨
      ∃ t e, e.eventType = eventVariantReady ∧ e.objectId = id ∧
        eventStep env b (.register now freshId id req) = { b with db := { b.db with
          variants := t
          outbox := b.db.outbox ++ [e] } } ∧
        (t.rows = b.db.variants.rows ↔ Repeats b.db (.register now freshId id req)) := by
  rw [eventStep]
  cases h : registerVariant b.db now freshId id req with
  | error e =>
    refine .inl ⟨rfl, ?_⟩
    rintro ⟨hobject, v, hv, htaken, hsame⟩
    rw [registerVariant_existing hobject hv, hsame, htaken] at h
    cases h
  | ok result =>
    obtain ⟨db', v⟩ := result
    right
    have hobject := object_of_registerVariant h
    have hexisting : ∀ {v'}, (b.db.variants.rows.find? fun v =>
        v.mediaObjectId = id ∧ v.variantName = req.variantName) = some v' →
        b.db.variantTaken (registeredVariant req id v'.id v'.createdAt) = false ∧
          registeredVariant req id v'.id v'.createdAt = v := by
      intro v' hv'
      rw [registerVariant_existing hobject hv'] at h
      split at h
      · cases h
      · rename_i htaken
        exact ⟨by simpa using htaken, congrArg Prod.snd (Except.ok.inj h)⟩
    obtain ⟨t, rfl, hrows⟩ := registerVariant_staged h
    refine ⟨t, _, rfl, rfl, rfl, hrows.trans ⟨fun hv => ?_, ?_⟩⟩
    · obtain ⟨htaken, hsame⟩ := hexisting hv
      exact ⟨hobject, v, hv, hsame ▸ htaken, hsame⟩
    · rintro ⟨-, v', hv', -, hsame⟩
      rw [hv', ← (hexisting hv').2, hsame]

/-! ### One request -/

theorem verdictRow_id (now : Timestamp) (scanStatus : ScanStatus) (o : MediaObject) :
    (verdictRow now scanStatus o).id = o.id := by
  unfold verdictRow
  split <;> rfl

theorem verdictRow_deletedAt (now : Timestamp) (scanStatus : ScanStatus) (o : MediaObject) :
    (verdictRow now scanStatus o).deletedAt = o.deletedAt := by
  unfold verdictRow
  split <;> rfl

theorem verdictEvent_objectId (now : Timestamp) (scanStatus : ScanStatus) (o : MediaObject) :
    (verdictEvent now scanStatus o).objectId = o.id := by
  unfold verdictEvent
  split <;> rfl

theorem verdictEvent_eventType (now : Timestamp) (scanStatus : ScanStatus) (o : MediaObject) :
    (verdictEvent now scanStatus o).eventType ∈ verdictTypes := by
  unfold verdictEvent verdictTypes
  split <;> simp [stagedEvent]

/-- An event of another type or about another object is not counted. -/
theorem eventCount_other {types : List String} {objectId : UUID} {db db' : Database}
    {e : OutboxEvent} (h : db'.outbox = db.outbox ++ [e])
    (he : e.eventType ∉ types ∨ e.objectId ≠ objectId) :
    eventCount types objectId db' = eventCount types objectId db := by
  rw [eventCount_append types objectId h, decide_eq_false (by tauto)]
  rfl

theorem eventCount_one_more {types : List String} {objectId : UUID} {db db' : Database}
    {e : OutboxEvent} (h : db'.outbox = db.outbox ++ [e]) (htype : e.eventType ∈ types)
    (hid : e.objectId = objectId) :
    eventCount types objectId db' = eventCount types objectId db + 1 := by
  rw [eventCount_append types objectId h, decide_eq_true ⟨htype, hid⟩]
  rfl

theorem deleted_not_mem_verdictTypes : eventObjectDeleted ∉ verdictTypes := by decide

theorem variantReady_not_mem_verdictTypes : eventVariantReady ∉ verdictTypes := by decide

/-- A verdict about the object stages one event; it changes the mark or repeats it. -/
theorem verdictEvents_step (env : Env) (b : Backend) (r : EventRequest) (objectId : UUID) :
    eventCount verdictTypes objectId (eventStep env b r).db =
        eventCount verdictTypes objectId b.db + (verdictChanges env objectId b r).toNat ∧
          (∀ now scanStatus, r = .scanResult now objectId scanStatus → ¬Repeats b.db r) ∨
      eventCount verdictTypes objectId (eventStep env b r).db =
        eventCount verdictTypes objectId b.db + 1 ∧ verdictChanges env objectId b r = false ∧
          (∃ now scanStatus, r = .scanResult now objectId scanStatus) ∧ Repeats b.db r := by
  cases r with
  | scanResult now id scanStatus =>
    rcases eventStep_scanResult env b now id scanStatus with
      ⟨hstep, hrefused⟩ | ⟨o, hfind, htaken, hstep⟩
    · left
      rw [verdictChanges, hstep]
      refine ⟨by simp, ?_⟩
      rintro - - - ⟨o, ho, htaken, -⟩
      exact hrefused ⟨o, ho, htaken⟩
    · have hkey : o.id = id := Table.key_of_find hfind
      have hstaged : (eventStep env b (.scanResult now id scanStatus)).db.outbox =
          b.db.outbox ++ [verdictEvent now scanStatus o] := by rw [hstep]
      by_cases hid : id = objectId
      · subst hid
        have hmore := eventCount_one_more hstaged (verdictEvent_eventType now scanStatus o)
          ((verdictEvent_objectId now scanStatus o).trans hkey)
        have hafter : (eventStep env b (.scanResult now id scanStatus)).db.objects.find id =
            some (verdictRow now scanStatus o) := by
          rw [hstep, ← hkey, ← verdictRow_id now scanStatus o]
          exact Table.find_update_self (by rw [verdictRow_id, hkey, hfind])
        rw [hmore, verdictChanges, hafter, hfind]
        by_cases hmark : (verdictRow now scanStatus o).mark = o.mark
        · right
          refine ⟨rfl, by simp [hmark], ⟨now, scanStatus, rfl⟩, o, hfind, htaken, hmark⟩
        · left
          refine ⟨by simp [Ne.symm hmark], ?_⟩
          rintro - - - ⟨o', ho', -, hmark'⟩
          obtain rfl := Option.some.inj (hfind.symm.trans ho')
          exact hmark hmark'
      · left
        have hsame : eventCount verdictTypes objectId _ = _ :=
          eventCount_other hstaged (.inr (by rwa [verdictEvent_objectId, hkey]))
        have hafter : (eventStep env b (.scanResult now id scanStatus)).db.objects.find objectId =
            b.db.objects.find objectId := by
          rw [hstep]
          exact Table.find_update_ne (by rw [verdictRow_id, hkey]; exact Ne.symm hid)
        rw [hsame, verdictChanges, hafter]
        refine ⟨by simp, fun now' scanStatus' he => ?_⟩
        cases he
        exact absurd rfl hid
  | delete faults commitFails now user id =>
    left
    refine ⟨?_, fun _ _ he => by cases he⟩
    rcases eventStep_delete env b faults commitFails now user id with
      hstep | ⟨o, o', usage, -, -, -, -, hstep⟩
    · rw [hstep]
      rfl
    · rw [eventCount_other (by rw [hstep]) (.inl deleted_not_mem_verdictTypes)]
      rfl
  | register now freshId id req =>
    left
    refine ⟨?_, fun _ _ he => by cases he⟩
    rcases eventStep_register env b now freshId id req with
      ⟨hstep, -⟩ | ⟨t, e, htype, -, hstep, -⟩
    · rw [hstep]
      rfl
    · rw [eventCount_other (by rw [hstep])
        (.inl (htype ▸ variantReady_not_mem_verdictTypes))]
      rfl

/-- A deletion stages its event exactly when the object becomes deleted. -/
theorem deletedEvents_step (env : Env) (b : Backend) (r : EventRequest) (objectId : UUID) :
    eventCount [eventObjectDeleted] objectId (eventStep env b r).db =
      eventCount [eventObjectDeleted] objectId b.db +
        (becomesDeleted env objectId b r).toNat := by
  have hstill : ∀ {db : Database}, (∀ o, db.objects.find objectId = some o →
      ∃ o₀, b.db.objects.find objectId = some o₀ ∧ o.deletedAt = o₀.deletedAt) →
      (decide ((b.db.objects.find objectId).any (fun o => o.deletedAt.isNone) = true ∧
        (db.objects.find objectId).any (fun o => o.deletedAt.isSome) = true)) = false := by
    intro db hdb
    simp only [decide_eq_false_iff_not, Option.any_eq_true]
    rintro ⟨⟨o₀, ho₀, hlive⟩, o, ho, hdeleted⟩
    obtain ⟨o₁, ho₁, hsame⟩ := hdb o ho
    obtain rfl := Option.some.inj (ho₀.symm.trans ho₁)
    rw [hsame, Option.isNone_iff_eq_none.mp hlive] at hdeleted
    cases hdeleted
  cases r with
  | scanResult now id scanStatus =>
    rcases eventStep_scanResult env b now id scanStatus with
      ⟨hstep, -⟩ | ⟨o, hfind, -, hstep⟩
    · rw [becomesDeleted, hstep, hstill fun o ho => ⟨o, ho, rfl⟩]
      rfl
    · have hkey : o.id = id := Table.key_of_find hfind
      have hstaged : (eventStep env b (.scanResult now id scanStatus)).db.outbox =
          b.db.outbox ++ [verdictEvent now scanStatus o] := by rw [hstep]
      have htype := verdictEvent_eventType now scanStatus o
      rw [eventCount_other hstaged (.inl fun h => ?_), becomesDeleted, hstill]
      · rfl
      · intro q hq
        rw [hstep] at hq
        by_cases hid : objectId = (verdictRow now scanStatus o).id
        · rw [verdictRow_id, hkey] at hid
          subst hid
          have hself : (b.db.objects.update (verdictRow now scanStatus o)).find objectId =
              some (verdictRow now scanStatus o) := by
            rw [← hkey, ← verdictRow_id now scanStatus o]
            exact Table.find_update_self (by rw [verdictRow_id, hkey, hfind])
          obtain rfl := Option.some.inj (hself.symm.trans hq)
          exact ⟨o, hfind, verdictRow_deletedAt now scanStatus o⟩
        · rw [show (b.db.objects.update (verdictRow now scanStatus o)).find objectId =
            b.db.objects.find objectId from Table.find_update_ne hid] at hq
          exact ⟨q, hq, rfl⟩
      · rw [List.mem_singleton.mp h] at htype
        exact deleted_not_mem_verdictTypes htype
  | delete faults commitFails now user id =>
    rcases eventStep_delete env b faults commitFails now user id with
      hstep | ⟨o, o', usage, hfind, hlive, hid', hdeleted, hstep⟩
    · rw [becomesDeleted, hstep, hstill fun o ho => ⟨o, ho, rfl⟩]
      rfl
    · have hkey : o.id = id := Table.key_of_find hfind
      have hstaged : (eventStep env b (.delete faults commitFails now user id)).db.outbox =
          b.db.outbox ++ [stagedEvent now eventObjectDeleted o.id
            [("visibility", o.visibility.str)]] := by rw [hstep]
      by_cases hid : id = objectId
      · subst hid
        have hself : (b.db.objects.update o').find id = some o' := by
          rw [← hkey, ← hid']
          exact Table.find_update_self (by rw [hid', hkey, hfind])
        have htype : eventObjectDeleted ∈ [eventObjectDeleted] := List.mem_singleton.mpr rfl
        rw [eventCount_one_more hstaged htype hkey, becomesDeleted, hstep]
        simp [hself, hfind, hlive, hdeleted]
      · rw [eventCount_other hstaged (.inr (by rw [stagedEvent, hkey]; exact hid)), becomesDeleted,
          hstep, hstill]
        · rfl
        · intro q hq
          rw [show (b.db.objects.update o').find objectId = b.db.objects.find objectId from
            Table.find_update_ne (by rw [hid', hkey]; exact Ne.symm hid)] at hq
          exact ⟨q, hq, rfl⟩
  | register now freshId id req =>
    rcases eventStep_register env b now freshId id req with
      ⟨hstep, -⟩ | ⟨t, e, htype, -, hstep, -⟩
    · rw [becomesDeleted, hstep, hstill fun o ho => ⟨o, ho, rfl⟩]
      rfl
    · have hstaged : (eventStep env b (.register now freshId id req)).db.outbox =
          b.db.outbox ++ [e] := by rw [hstep]
      rw [eventCount_other hstaged (.inl (by rw [htype]; decide)), becomesDeleted, hstep,
        hstill fun o ho => ⟨o, ho, rfl⟩]
      rfl

/-- A registration for the object stages one event; it changes a row or repeats it. -/
theorem variantEvents_step (env : Env) (b : Backend) (r : EventRequest) (objectId : UUID) :
    eventCount [eventVariantReady] objectId (eventStep env b r).db =
        eventCount [eventVariantReady] objectId b.db + (variantChanges env objectId b r).toNat ∧
          (∀ now freshId req, r = .register now freshId objectId req → ¬Repeats b.db r) ∨
      eventCount [eventVariantReady] objectId (eventStep env b r).db =
        eventCount [eventVariantReady] objectId b.db + 1 ∧
          variantChanges env objectId b r = false ∧
          (∃ now freshId req, r = .register now freshId objectId req) ∧ Repeats b.db r := by
  cases r with
  | scanResult now id scanStatus =>
    left
    refine ⟨?_, fun _ _ _ he => by cases he⟩
    rcases eventStep_scanResult env b now id scanStatus with
      ⟨hstep, -⟩ | ⟨o, -, -, hstep⟩
    · rw [hstep]
      rfl
    · have hstaged : (eventStep env b (.scanResult now id scanStatus)).db.outbox =
          b.db.outbox ++ [verdictEvent now scanStatus o] := by rw [hstep]
      have htype := verdictEvent_eventType now scanStatus o
      rw [eventCount_other hstaged (.inl fun h => ?_)]
      · rfl
      · rw [List.mem_singleton.mp h] at htype
        exact variantReady_not_mem_verdictTypes htype
  | delete faults commitFails now user id =>
    left
    refine ⟨?_, fun _ _ _ he => by cases he⟩
    rcases eventStep_delete env b faults commitFails now user id with
      hstep | ⟨o, o', usage, -, -, -, -, hstep⟩
    · rw [hstep]
      rfl
    · have hstaged : (eventStep env b (.delete faults commitFails now user id)).db.outbox =
          b.db.outbox ++ [stagedEvent now eventObjectDeleted o.id
            [("visibility", o.visibility.str)]] := by rw [hstep]
      have htype : eventObjectDeleted ∉ [eventVariantReady] := by decide
      rw [eventCount_other hstaged (.inl htype)]
      rfl
  | register now freshId id req =>
    rcases eventStep_register env b now freshId id req with
      ⟨hstep, hrefused⟩ | ⟨t, e, htype, hid', hstep, hrows⟩
    · left
      rw [variantChanges, hstep]
      exact ⟨by simp, fun _ _ _ _ => hrefused⟩
    · have hstaged : (eventStep env b (.register now freshId id req)).db.outbox =
          b.db.outbox ++ [e] := by rw [hstep]
      by_cases hid : id = objectId
      · subst hid
        rw [eventCount_one_more hstaged (List.mem_singleton.mpr htype) hid', variantChanges, hstep]
        by_cases hsame : t.rows = b.db.variants.rows
        · exact .inr ⟨rfl, by simp [hsame], ⟨now, freshId, req, rfl⟩, hrows.mp hsame⟩
        · exact .inl ⟨by simp [hsame], fun _ _ _ _ hrepeats => hsame (hrows.mpr hrepeats)⟩
      · left
        rw [eventCount_other hstaged (.inr (by rwa [hid'])), variantChanges]
        refine ⟨by simp [hid], fun _ _ _ he => ?_⟩
        cases he
        exact absurd rfl hid

end Step

/-! ### Runs -/

/-- Over a run every object gets as many events of each kind as it had changes:
verdicts that changed its mark, deletions, registrations that changed a row. -/
def EventsMatch (env : Env) (b : Backend) (rs : List EventRequest) : Prop :=
  ∀ objectId,
    eventCount verdictTypes objectId (run (eventStep env) b rs).db =
        eventCount verdictTypes objectId b.db +
          tally (eventStep env) (verdictChanges env objectId) b rs ∧
      eventCount [eventObjectDeleted] objectId (run (eventStep env) b rs).db =
        eventCount [eventObjectDeleted] objectId b.db +
          tally (eventStep env) (becomesDeleted env objectId) b rs ∧
      eventCount [eventVariantReady] objectId (run (eventStep env) b rs).db =
        eventCount [eventVariantReady] objectId b.db +
          tally (eventStep env) (variantChanges env objectId) b rs

/-- One request adds its changes' events and no others unless it repeats. -/
theorem not_repeats_iff {env : Env} (b : Backend) (r : EventRequest) :
    ((∀ objectId, eventCount verdictTypes objectId (eventStep env b r).db =
          eventCount verdictTypes objectId b.db + (verdictChanges env objectId b r).toNat) ∧
        ∀ objectId, eventCount [eventVariantReady] objectId (eventStep env b r).db =
          eventCount [eventVariantReady] objectId b.db +
            (variantChanges env objectId b r).toNat) ↔
      ¬Repeats b.db r := by
  constructor
  · rintro ⟨hverdict, hvariant⟩ hrepeats
    cases r with
    | scanResult now id scanStatus =>
      rcases verdictEvents_step env b (.scanResult now id scanStatus) id with
        ⟨-, hnot⟩ | ⟨hmore, hfalse, -⟩
      · exact hnot now scanStatus rfl hrepeats
      · have hsame := hverdict id
        rw [hmore, hfalse, Bool.toNat_false] at hsame
        omega
    | delete => exact hrepeats
    | register now freshId id req =>
      rcases variantEvents_step env b (.register now freshId id req) id with
        ⟨-, hnot⟩ | ⟨hmore, hfalse, -⟩
      · exact hnot now freshId req rfl hrepeats
      · have hsame := hvariant id
        rw [hmore, hfalse, Bool.toNat_false] at hsame
        omega
  · refine fun hnot => ⟨fun objectId => ?_, fun objectId => ?_⟩
    · exact (verdictEvents_step env b r objectId).elim And.left fun h => absurd h.2.2.2 hnot
    · exact (variantEvents_step env b r objectId).elim And.left fun h => absurd h.2.2.2 hnot

/-- The events of a run match its changes exactly if no accepted verdict or
registration repeats what is stored. -/
theorem eventsMatch_iff (env : Env) (b : Backend) (rs : List EventRequest) :
    EventsMatch env b rs ↔ Guarded (eventStep env) (fun b r => ¬Repeats b.db r) b rs := by
  have hverdict : ∀ objectId, eventCount verdictTypes objectId (run (eventStep env) b rs).db =
      eventCount verdictTypes objectId b.db +
        tally (eventStep env) (verdictChanges env objectId) b rs ↔ _ := fun objectId =>
    eq_add_tally_iff (f := fun b : Backend => eventCount verdictTypes objectId b.db) fun b r => by
      rcases verdictEvents_step env b r objectId with ⟨h, -⟩ | ⟨h, hfalse, -⟩
      · exact le_of_eq h.symm
      · rw [h, hfalse, Bool.toNat_false]
        omega
  have hvariant : ∀ objectId, eventCount [eventVariantReady] objectId
      (run (eventStep env) b rs).db = eventCount [eventVariantReady] objectId b.db +
        tally (eventStep env) (variantChanges env objectId) b rs ↔ _ := fun objectId =>
    eq_add_tally_iff (f := fun b : Backend => eventCount [eventVariantReady] objectId b.db)
      fun b r => by
        rcases variantEvents_step env b r objectId with ⟨h, -⟩ | ⟨h, hfalse, -⟩
        · exact le_of_eq h.symm
        · rw [h, hfalse, Bool.toNat_false]
          omega
  have hdeleted : ∀ objectId, eventCount [eventObjectDeleted] objectId
      (run (eventStep env) b rs).db = eventCount [eventObjectDeleted] objectId b.db +
        tally (eventStep env) (becomesDeleted env objectId) b rs := fun objectId =>
    eq_add_tally (I := fun _ => True)
      (f := fun b : Backend => eventCount [eventObjectDeleted] objectId b.db)
      (fun _ _ _ => trivial) (fun b r _ => deletedEvents_step env b r objectId) trivial rs
  simp only [EventsMatch, hverdict, hvariant, hdeleted, true_and, forall_and, guarded_forall,
    guarded_and]
  exact guarded_congr fun b r => not_repeats_iff b r

def unscannedObject : MediaObject where
  id := ⟨3⟩
  tenantId := none
  ownerUserId := ⟨1⟩
  category := .asset
  visibility := .private
  storageBucket := "private-media"
  objectKey := "users/1/asset/3/original/a.png"
  originalFilename := some "a.png"
  mimeType := "image/png"
  sizeBytes := 4
  sha256 := none
  status := .uploaded
  scanStatus := .pending
  createdAt := 0
  updatedAt := 0
  deletedAt := none

/-- The same verdict, delivered twice. -/
def repeatedVerdict : List EventRequest :=
  [.scanResult 5 ⟨3⟩ .clean, .scanResult 6 ⟨3⟩ .clean]

/-- The second delivery changes neither status nor scan status, and announces the
object again. -/
theorem not_eventsMatch_repeated :
    let b : Backend := ⟨{ Database.empty with objects := ⟨[unscannedObject], by decide⟩ }, ∅⟩
    ¬EventsMatch Env.default b repeatedVerdict ∧
      (run (eventStep Env.default) b repeatedVerdict).db.outbox ≠
        (run (eventStep Env.default) b (repeatedVerdict.take 1)).db.outbox := by
  refine ⟨fun h => ?_, by decide +kernel⟩
  have hcount := (h ⟨3⟩).1
  revert hcount
  decide +kernel

end MediaService
