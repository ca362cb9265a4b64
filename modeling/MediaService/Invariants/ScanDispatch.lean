import MediaService.Invariants.ImportRows
import MediaService.Invariants.ImportScans
import MediaService.Invariants.ObjectLife
import MediaService.Invariants.ScanGate

/-! Scans and the queue. Uploads and imports commit an object first and enqueue its scan
afterwards, and nothing repeats a call that failed. Whatever the broker does with the calls, an
object it has no scan job for stays unscanned and closed, a job it has is about an object as
it was created, and an import's report tells the one from the other. -/

namespace MediaService

open Foundation

variable {env : Env} {a a' : App} {w : World} {r : Request} {id : UUID}

/-! ### Unscanned objects -/

/-- An object of this id, if there is one, has had no verdict. -/
def Unscanned (id : UUID) (h : Holdings) : Prop :=
  ∀ o ∈ h.objects, o.id = id → o.scanStatus = .pending

/-- Nothing but a verdict on it changes an object's scan status. -/
theorem Moves.unscanned {m : Move} {h h' : Holdings} (hm : Moves env m h h')
    (hj : ∀ o o', m = .judged o o' → o.id ≠ id) (hu : Unscanned id h) : Unscanned id h' := by
  have hupdate : ∀ {q q' : MediaObject}, q ∈ h.objects → q'.id = q.id →
      (q.id = id → q'.scanStatus = .pending) → ∀ o ∈ h.objects.update q', o.id = id →
      o.scanStatus = .pending := by
    intro q q' hq hid hscan o ho he
    rcases (Table.mem_update (by rw [hid]; exact Table.find_of_mem hq)).mp ho with rfl | ⟨ho, -⟩
    · exact hscan (hid.symm.trans he)
    · exact hu o ho he
  cases hm with
  | promoted _ _ hq _ ht =>
    intro o ho he
    rcases (Table.mem_insert ht).mp ho with ho | rfl
    · exact hu o ho he
    · rw [hq]
      rfl
  | rejected _ _ hq ht =>
    intro o ho he
    rcases (Table.mem_insert ht).mp ho with ho | rfl
    · exact hu o ho he
    · rw [hq]
      rfl
  | judged hq hor =>
    refine hupdate hq ?_ fun he => absurd he (hj _ _ rfl)
    rcases hor with rfl | rfl <;> rfl
  | patched hq _ he _ =>
    refine hupdate hq (by rw [he]) fun hid => ?_
    have hbefore := hu _ hq hid
    rw [he]
    exact hbefore
  | softDeleted hq _ he =>
    refine hupdate hq (by rw [he]) fun hid => ?_
    have hbefore := hu _ hq hid
    rw [he]
    exact hbefore
  | purged _ => exact fun o ho he => hu o (Table.mem_erase.mp ho).1 he
  | _ => exact hu

theorem unscanned_serve (hw : WorldInv env w) (hr : ∀ now st, r ≠ .scanResult now id st)
    (hu : Unscanned id w.backend.holdings) : Unscanned id (serve env w r).backend.holdings := by
  refine (movesTo_serve hw r).preserves (I := Unscanned id) (fun m h h' hcause hm hI => ?_) hu
  refine hm.unscanned ?_ hI
  rintro o o' rfl he
  obtain ⟨now, st, rfl, -⟩ := hcause
  exact hr now st (by rw [he])

/-- Nothing hands out the bytes of such an object. -/
structure Withheld (env : Env) (db : Database) (id : UUID) : Prop where
  download : ∀ now user url, downloadUrl env.settings db now user id ≠ .ok url
  share : ∀ now tokenId share res, db.shares.find tokenId = some share →
    share.mediaObjectId = id → resolveShare env.settings db now tokenId ≠ .ok res
  archive : ∀ now jobId user filters res,
    startArchiveExport env db now jobId user filters = .ok res →
      ∀ e ∈ res.2.objects, e.objectId ≠ id
  generate : ∀ now jobId user req res, generateVariants env db now jobId user id req ≠ .ok res

theorem withheld_of_unscanned {b : Backend} (hu : Unscanned id b.holdings) :
    Withheld env b.db id := by
  have hclosed : ∀ o ∈ b.db.objects, o.id = id → ¬ o.InService := by
    intro o ho hid hi
    rw [MediaObject.InService, hu o ho hid] at hi
    cases hi.2
  constructor
  · intro now user url h
    obtain ⟨o, ho, hid, hi, -⟩ := downloadUrl_eq_ok.mp h
    exact hclosed o ho hid hi
  · intro now tokenId share res hshare hid h
    obtain ⟨-, share', o, hshare', ho, hid', hi, -⟩ := resolveShare_ok h
    obtain rfl := Option.some.inj (hshare.symm.trans hshare')
    exact hclosed o ho (hid'.trans hid) hi
  · intro now jobId user filters res h e he hid
    obtain ⟨-, hobjects, -⟩ := startArchiveExport_ok h
    obtain ⟨o, ho, hi, rfl⟩ := hobjects e he
    exact hclosed o ho hid hi
  · intro now jobId user req res h
    obtain ⟨o, ho, hid, hi⟩ := generateVariants_inService h
    exact hclosed o ho hid hi

/-! ### Objects and jobs -/

/-- The broker has a scan job for the object. -/
def App.HoldsScan (a : App) (id : UUID) : Prop := ∃ p ∈ a.scans.held, p.objectId = id

/-- What the queue says of the objects: a job is about one as it was created, and an object
without a job is unscanned. -/
structure App.TracesScans (env : Env) (a : App) : Prop where
  world : WorldInv env a.world
  jobs : ∀ p, p ∈ a.scans.due ∨ p ∈ a.scans.held →
    ∃ o, scanPayload o = p ∧ Lives o a.world.backend.holdings
  unscanned : ∀ id, ¬ a.HoldsScan id → Unscanned id a.world.backend.holdings

theorem tracesScans_initial (env : Env) : App.initial.TracesScans env where
  world := worldInv_initial env
  jobs _ hp := by rcases hp with hp | hp <;> cases hp
  unscanned _ _ _ ho := absurd ho (Table.not_mem_empty _)

/-- The jobs a route enqueues are about objects its request leaves. -/
theorem mem_scansOf {p : ScanJobPayload} (hp : p ∈ scansOf env w r) :
    ∃ o ∈ (serve env w r).backend.db.objects, scanPayload o = p := by
  rw [serve_backend]
  unfold scansOf at hp
  split at hp
  · rename_i faults now user sessionId body
    split at hp
    · rename_i o ho
      obtain rfl := List.mem_singleton.mp hp
      exact ⟨o, ((completeUpload_creates _ _ _ _ _ _ _).2 o ho).2.1, rfl⟩
    · cases hp
  · rename_i ctx user source
    split at hp
    · rename_i outcome houtcome
      obtain ⟨o, ho, rfl⟩ := List.mem_map.mp hp
      obtain ⟨results, -, hcreated, hbatch⟩ := batchCreates_runImport (Prod.ext rfl houtcome)
      rw [hcreated] at ho
      obtain ⟨res, hres, hobject⟩ := List.mem_filterMap.mp ho
      obtain ⟨-, -, ⟨now, hmem⟩, -⟩ := hbatch.object res hres o hobject
      exact ⟨_, hmem, rfl⟩
    · cases hp
  · cases hp

theorem App.TracesScans.served (h : a.TracesScans env)
    (hr : ∀ now id st, r = .scanResult now id st → a.HoldsScan id) {ps : List ScanJobPayload}
    (hps : ∀ p ∈ ps, ∃ o ∈ (serve env a.world r).backend.db.objects, scanPayload o = p)
    (hworld : a'.world = serve env a.world r) (hscans : a'.scans = a.scans.commit ps) :
    a'.TracesScans env := by
  have hlives : ∀ p, p ∈ a.scans.due ∨ p ∈ a.scans.held →
      ∃ o, scanPayload o = p ∧ Lives o (serve env a.world r).backend.holdings := by
    intro p hp
    obtain ⟨o, he, ho⟩ := h.jobs p hp
    exact ⟨o, he, lives_serve h.world r ho⟩
  constructor
  · rw [hworld]
    exact h.world.serve r
  · rw [hworld, hscans]
    rintro p (hp | hp)
    · rcases List.mem_append.mp hp with hp | hp
      · exact hlives p (.inl hp)
      · obtain ⟨o, ho, he⟩ := hps p hp
        exact ⟨o, he, .inl ⟨o, Table.find_of_mem ho, .refl o⟩⟩
    · exact hlives p (.inr hp)
  · intro id hnot
    have hbefore : ¬ a.HoldsScan id := by
      unfold App.HoldsScan at hnot ⊢
      rw [hscans] at hnot
      exact hnot
    rw [hworld]
    exact unscanned_serve h.world (fun now st he => hbefore (hr now id st he))
      (h.unscanned id hbefore)

theorem App.TracesScans.of_same (h : a.TracesScans env) (hworld : a'.world = a.world)
    (hscans : a'.scans = a.scans) : a'.TracesScans env := by
  constructor
  · rw [hworld]
    exact h.world
  · rw [hworld, hscans]
    exact h.jobs
  · unfold App.HoldsScan
    rw [hworld, hscans]
    exact h.unscanned

theorem App.TracesScans.enqueued (h : a.TracesScans env) (p : ScanJobPayload)
    (outcome : EnqueueOutcome) : (appStep env a (.enqueueScan p outcome)).TracesScans env where
  world := h.world
  jobs q hq := by
    refine h.jobs q ?_
    rcases hq with hq | hq
    · exact .inl (Handover.mem_due_hand hq)
    · rcases Handover.mem_held_hand hq with hq | ⟨rfl, hq, -⟩
      · exact .inr hq
      · exact .inl hq
  unscanned id hnot := by
    refine h.unscanned id ?_
    rintro ⟨q, hq, hid⟩
    exact hnot ⟨q, Handover.held_hand_mono hq, hid⟩

theorem App.TracesScans.request (h : a.TracesScans env) (hpermits : a.permits r = true) :
    (appStep env a (.request r)).TracesScans env := by
  rw [appStep_request hpermits]
  refine h.served ?_ (fun p hp => mem_scansOf hp) rfl rfl
  rintro now id st rfl
  obtain ⟨p, hp, hid⟩ := List.any_eq_true.mp hpermits
  exact ⟨p, hp, of_decide_eq_true hid⟩

theorem App.TracesScans.step (h : a.TracesScans env) (e : AppEvent) :
    (appStep env a e).TracesScans env := by
  cases e with
  | request r =>
    by_cases hpermits : a.permits r = true
    · exact h.request hpermits
    · rw [appStep_refused hpermits]
      exact h
  | enqueueScan p outcome => exact h.enqueued p outcome
  | enqueueVariants p outcome => exact h.of_same rfl rfl
  | enqueueExportArchive p outcome => exact h.of_same rfl rfl
  | failUnqueued now jobId =>
    by_cases hraised : jobId ∈ a.unqueued
    · rw [appStep_failUnqueued hraised]
      refine h.served (r := .failUnqueuedExport now jobId) ?_
        (fun p (hp : p ∈ ([] : List ScanJobPayload)) => absurd hp List.not_mem_nil) rfl
        (Handover.commit_nil _).symm
      rintro _ _ _ ⟨⟩
    · rw [appStep_settled hraised]
      exact h

theorem tracesScans_run (env : Env) (es : List AppEvent) :
    (run (appStep env) App.initial es).TracesScans env :=
  (always_of_inv (I := App.TracesScans env) (fun _ e h => h.step e)
    (tracesScans_initial env) es).last

/-- A job is about the key and the owner its object still has. -/
theorem App.TracesScans.names (h : a.TracesScans env) {p : ScanJobPayload}
    (hp : p ∈ a.scans.held) {o : MediaObject} (ho : o ∈ a.world.backend.db.objects)
    (hid : o.id = p.objectId) : o.objectKey = p.objectKey ∧ o.ownerUserId = p.ownerUserId := by
  obtain ⟨q, rfl, hlives⟩ := h.jobs p (.inr hp)
  have hfind : a.world.backend.holdings.objects.find q.id = some o := by
    rw [show q.id = o.id from hid.symm]
    exact Table.find_of_mem ho
  rcases hlives with ⟨o', ho', hbecomes⟩ | hgone
  · obtain rfl := Option.some.inj (hfind.symm.trans ho')
    rw [hbecomes.same]
    exact ⟨rfl, rfl⟩
  · rw [hgone.1] at hfind
    cases hfind

/-- In every state of every run whose workers call back on jobs the broker gave them, an object
the broker has no scan job for is unscanned and nothing hands out its bytes, and a job the broker
has is about the key and the owner its object still has. -/
theorem unqueuedScan_run (env : Env) (es : List AppEvent) :
    let a := run (appStep env) App.initial es
    (∀ id, ¬ a.HoldsScan id → (∀ o ∈ a.world.backend.db.objects, o.id = id →
      o.scanStatus = .pending) ∧ Withheld env a.world.backend.db id) ∧
    ∀ p ∈ a.scans.held, ∀ o ∈ a.world.backend.db.objects, o.id = p.objectId →
      o.objectKey = p.objectKey ∧ o.ownerUserId = p.ownerUserId := by
  have htraces := tracesScans_run env es
  refine ⟨fun id hnot => ?_, fun p hp o ho hid => htraces.names hp ho hid⟩
  have hu := htraces.unscanned id hnot
  exact ⟨hu, withheld_of_unscanned hu⟩

/-! ### The report of an import -/

/-- A report row before the calls and after them: it is marked exactly if it created an object
whose call returned, and an object it created is there, unscanned, with its job on the queue
exactly if the call was not lost. -/
structure RowScanned (outcomes : ℕ → EnqueueOutcome) (created : List MediaObject) (db : Database)
    (scans : Handover ScanJobPayload) (row row' : ImportObjectResult) : Prop where
  same : row' = { row with scanQueued := row'.scanQueued }
  other : row.status ≠ .created → row'.scanQueued = false
  created : row.status = .created → ∃ k o, created[k]? = some o ∧
    row.mediaObjectId = some o.id ∧ (row'.scanQueued = true ↔ outcomes k = .queued) ∧
    (scanPayload o ∈ scans.held ↔ outcomes k ≠ .lost) ∧
    ∃ o' ∈ db.objects, scanPayload o' = scanPayload o ∧ o'.scanStatus = .pending

theorem getElem?_unique {os : List MediaObject} (hnodup : (os.map MediaObject.id).Nodup) {j k : ℕ}
    {o q : MediaObject} (ho : os[j]? = some o) (hq : os[k]? = some q) (hid : o.id = q.id) :
    j = k := by
  obtain ⟨hj, -⟩ := List.getElem?_eq_some_iff.mp ho
  refine (List.getElem?_inj (by rw [List.length_map]; exact hj) hnodup).mp ?_
  rw [List.getElem?_map, List.getElem?_map, ho, hq, Option.map_some, Option.map_some, hid]

/-- The calls settle a row of the batch, if no object it created had a job before. -/
theorem BatchCreates.rowScanned {db db' : Database}
    {results : List (ImportObjectResult × Option MediaObject)}
    (hbatch : BatchCreates db db' results) {outcomes : ℕ → EnqueueOutcome}
    {scans scans' : Handover ScanJobPayload} {mark : ImportObjectResult → ImportObjectResult}
    (hcalls : Calls outcomes 0 (results.filterMap Prod.snd) scans scans' mark)
    (hfresh : ∀ o ∈ results.filterMap Prod.snd, scanPayload o ∉ scans.held)
    {res : ImportObjectResult × Option MediaObject} (hres : res ∈ results) :
    RowScanned outcomes (results.filterMap Prod.snd) db' scans' res.1 (mark res.1) := by
  have hmarked := hcalls.marked res.1
  rw [hbatch.unmarked res hres] at hmarked
  simp only [Bool.false_eq_true, false_or, Nat.zero_add] at hmarked
  refine ⟨hcalls.same _, fun hother => ?_, fun hstatus => ?_⟩
  · exact Bool.eq_false_iff.mpr fun hmark => hother (hmarked.mp hmark).1
  · obtain ⟨o, ho⟩ := Option.isSome_iff_exists.mp ((hbatch.status res hres).mp hstatus)
    obtain ⟨hid, hscan, ⟨now, hmem⟩, -⟩ := hbatch.object res hres o ho
    have hcreates := List.mem_filterMap.mpr ⟨res, hres, ho⟩
    obtain ⟨k, hk⟩ := List.getElem?_of_mem hcreates
    refine ⟨k, o, hk, hid, ?_, ?_, _, hmem, rfl, hscan⟩
    · rw [hmarked]
      constructor
      · rintro ⟨-, j, q, hj, hq, hreturned⟩
        rw [hid, Option.some.injEq] at hq
        obtain rfl := getElem?_unique hbatch.nodup hj hk hq.symm
        simpa [EnqueueOutcome.raises] using hreturned
      · exact fun hqueued => ⟨hstatus, k, o, hk, hid, by rw [hqueued]; rfl⟩
    · constructor
      · intro hheld
        rcases hcalls.held _ hheld with hbefore | ⟨j, q, hj, hq, hdelivers⟩
        · exact absurd hbefore (hfresh o hcreates)
        · obtain rfl := getElem?_unique hbatch.nodup hj hk
            (congrArg ScanJobPayload.objectId hq).symm
          rw [Nat.zero_add] at hdelivers
          exact of_decide_eq_true hdelivers
      · intro hlost
        refine hcalls.taken k o hk ?_
        rw [Nat.zero_add]
        exact decide_eq_true hlost

/-- A new object has had no job before. -/
theorem App.TracesScans.fresh (h : a.TracesScans env) {o o' : MediaObject}
    (hnone : a.world.backend.db.objects.find o.id = none)
    (ho : o' ∈ (serve env a.world r).backend.db.objects) (hid : o'.id = o.id) :
    scanPayload o ∉ a.scans.held := by
  intro hheld
  obtain ⟨q, he, hlives⟩ := h.jobs _ (.inr hheld)
  have hqid : q.id = o.id := congrArg ScanJobPayload.objectId he
  rcases hlives with ⟨q', hq', -⟩ | hgone
  · rw [hqid] at hq'
    rw [show a.world.backend.holdings.objects.find o.id = none from hnone] at hq'
    cases hq'
  · have hlater := (movesTo_serve h.world r).preserves (I := GoneFor q.id)
      (fun _ _ _ _ hm hI => hm.goneFor hI) hgone
    exact Table.find_eq_none.mp hlater.1 o' ho (hid.trans hqid.symm)

/-- Over every state of every run whose workers call back on jobs the broker gave them, an
import's report says of every row whether its scan was queued, whatever becomes of the calls. -/
theorem importScans_reported (env : Env) (es : List AppEvent) (ctx : ℕ → RowContext)
    (user : UserModel) (source : ImportSource) (outcomes : ℕ → EnqueueOutcome) :
    let a := run (appStep env) App.initial es
    let a' := appStep env a (.request (.importCollection ctx user source))
    ∀ b outcome, runImport env a.world.backend ctx user source = (b, .ok outcome) →
      ∃ scans rows, enqueueImportScans outcomes 0 a'.scans outcome.report.objects
          outcome.createdObjects = (scans, .ok rows) ∧
        List.Forall₂ (RowScanned outcomes outcome.createdObjects a'.world.backend.db scans)
          outcome.report.objects rows := by
  intro a a' b outcome himport
  have htraces : a.TracesScans env := tracesScans_run env es
  have hworld : a'.world.backend = b := by
    rw [show a'.world = serve env a.world (.importCollection ctx user source) from rfl,
      serve_backend, answer, himport]
  have hscans : a'.scans = a.scans.commit (outcome.createdObjects.map scanPayload) := by
    rw [show a'.scans = a.scans.commit
      (scansOf env a.world (.importCollection ctx user source)) from rfl, scansOf, himport]
  obtain ⟨results, hreport, hcreated, hbatch⟩ := batchCreates_runImport himport
  have hids : createdIds outcome.report.objects = outcome.createdObjects.map MediaObject.id := by
    rw [hreport, hcreated, hbatch.createdIds_eq]
  have hnodup : (outcome.createdObjects.map MediaObject.id).Nodup := by
    rw [hcreated]
    exact hbatch.nodup
  have hmem : ∀ o ∈ outcome.createdObjects, o.id ∈ createdIds outcome.report.objects := by
    intro o ho
    rw [hids]
    exact List.mem_map_of_mem ho
  have hdue : ∀ o ∈ outcome.createdObjects, scanPayload o ∈ a'.scans.due := by
    intro o ho
    rw [hscans]
    exact List.mem_append_right _ (List.mem_map_of_mem ho)
  obtain ⟨scans, mark, he, hcalls⟩ :=
    enqueueImportScans_calls outcomes (i := 0) (hids ▸ hnodup) hnodup hmem hdue
  refine ⟨scans, _, he, ?_⟩
  rw [List.forall₂_map_right_iff, List.forall₂_same, hreport, hcreated, hworld]
  intro row hrow
  obtain ⟨res, hres, rfl⟩ := List.mem_map.mp hrow
  rw [hcreated] at hcalls
  refine hbatch.rowScanned hcalls (fun o ho => ?_) hres
  obtain ⟨res', hres', hobject⟩ := List.mem_filterMap.mp ho
  obtain ⟨-, -, ⟨now, hmem⟩, hnone⟩ := hbatch.object res' hres' o hobject
  have hlater : { o with updatedAt := now } ∈
      (serve env a.world (.importCollection ctx user source)).backend.db.objects := by
    rw [show (serve env a.world (.importCollection ctx user source)).backend = b from hworld]
    exact hmem
  rw [hscans]
  exact htraces.fresh hnone hlater rfl

/-- An archive whose object is imported and whose call is lost. -/
theorem importScans_reported_lost :
    let a' := appStep Env.default App.initial
      (.request (.importCollection rowContexts (.ordinary 1) pngArchive))
    ∃ outcome scans rows,
      (runImport Env.default World.initial.backend rowContexts (.ordinary 1) pngArchive).2 =
        .ok outcome ∧
      enqueueImportScans (fun _ => .lost) 0 a'.scans outcome.report.objects
        outcome.createdObjects = (scans, .ok rows) ∧
      List.Forall₂ (RowScanned (fun _ => .lost) outcome.createdObjects a'.world.backend.db scans)
        outcome.report.objects rows := by
  have hrows : reportedRows (runImport Env.default World.initial.backend rowContexts (.ordinary 1)
      pngArchive).2 = some [(⟨2⟩, some "a.png")] := by decide +kernel
  cases hres : runImport Env.default World.initial.backend rowContexts (.ordinary 1) pngArchive with
  | mk b answer =>
    rw [hres] at hrows
    cases answer with
    | error e => cases hrows
    | ok outcome =>
      obtain ⟨scans, rows, hcalls, hscanned⟩ := importScans_reported Env.default [] rowContexts
        (.ordinary 1) pngArchive (fun _ => .lost) b outcome hres
      exact ⟨outcome, scans, rows, rfl, hcalls, hscanned⟩

end MediaService
