import MediaService.Concurrency.RepairRace
import MediaService.Lifecycle.Objects
import MediaService.Scenario

/-! When a repair spares the traffic beside it. Every location the request relies
on is one at which it holds or awaits bytes, or the one of its row; the sweep
removes only what it condemned, and as long as the request neither relies on a
key when it is condemned nor comes to rely on it before it is removed, nothing
the request needs is taken away. -/

namespace MediaService

open Foundation

/-! ### What the places know -/

section Places

variable (id : UUID) (b : Backend) (orphans : List Location)

/-- The request's row, if there is one, is nowhere the sweep found an orphan. -/
def RowApart : Prop := ∀ o, b.db.objects.find id = some o → o.location ∉ orphans

/-- The session the completion has read is the row, still initiated. -/
def OpenSession (s : UploadSession) : Prop :=
  b.db.sessions.find id = some s ∧ s.status = .initiated

/-- What a completion can rely on. -/
def RacePlace.Kept : RacePlace → Prop
  | .read (.complete _ _) => RowApart id b orphans
  | .expire s => s.id = id ∧ RowApart id b orphans
  | .stat c => OpenSession id b c.session ∧ RowApart id b orphans
  | .head c _ | .digest c _ | .pin c _ | .promote c _ =>
    (OpenSession id b c.session ∧ (b.storage.content c.session.location).isSome = true) ∧
      RowApart id b orphans
  | .reject s _ _ => OpenSession id b s ∧ RowApart id b orphans
  | .dropRejected _ _ => ∃ o, b.db.objects.find id = some o ∧ o.status = .rejected
  | .finished _ => RowSpared id b orphans
  | _ => False

/-- The row a relocation has read, and the copy it has made. -/
def CopyMade (o : MediaObject) (bucket : Option String) : Prop :=
  b.db.objects.find id = some o ∧ ∀ x, bucket = some x →
    x ≠ o.storageBucket ∧ (b.storage.content ⟨x, o.objectKey⟩).isSome = true

/-- What a relocation can rely on. -/
def RelocationPlace.Kept : RelocationPlace → Prop
  | .read _ | .reread => RowApart id b orphans
  | .copyFor _ o _ | .archive o => CopyMade id b o none ∧ RowApart id b orphans
  | .commitPatch _ o _ bucket | .commitDelete o bucket =>
    CopyMade id b o bucket ∧ RowApart id b orphans
  | .drop l _ => ∀ o, b.db.objects.find id = some o → o.location ∈ orphans →
    o.location ≠ l ∧ (b.storage.content o.location).isSome = true
  | .finished _ => RowSpared id b orphans

def TrafficPlace.Kept : TrafficPlace → Prop
  | .initiate _ _ | .post _ _ | .dropUnstored _ => RowApart id b orphans
  | .stage _ _ entry _ => entry.id = id ∧ RowApart id b orphans
  | .recordUpload staged _ _ _ | .put staged _ _ _ _ =>
    staged.mediaId = id ∧ RowApart id b orphans
  | .recordImport staged _ _ _ =>
    (staged.mediaId = id ∧ (b.storage.content staged.location).isSome = true) ∧
      RowApart id b orphans
  | .complete p => p.Kept id b orphans
  | .relocate p => p.Kept id b orphans
  | .finished => RowSpared id b orphans

end Places

section Keep

variable {id : UUID} {b b' : Backend} {orphans orphans' : List Location}

theorem RowApart.spared (h : RowApart id b orphans) : RowSpared id b orphans :=
  fun o ho _ hmem => absurd hmem (h o ho)

/-- A step beside the request: the database stays, and the bytes it relies on. -/
structure Beside (id : UUID) (p : TrafficPlace) (b b' : Backend)
    (orphans orphans' : List Location) : Prop where
  db : b'.db = b.db
  orphans : ∀ o, b.db.objects.find id = some o → o.location ∈ orphans' → o.location ∈ orphans
  bytes : ∀ l,
    (p.Holds l ∨ b.db.Awaits id l ∨ ∃ o, b.db.objects.find id = some o ∧ o.location = l) →
    (b.storage.content l).isSome = true → (b'.storage.content l).isSome = true

variable {p : TrafficPlace}

theorem Beside.rowApart (h : Beside id p b b' orphans orphans') (hp : RowApart id b orphans) :
    RowApart id b' orphans' := by
  intro o ho hmem
  rw [h.db] at ho
  exact hp o ho (h.orphans o ho hmem)

theorem Beside.openSession (h : Beside id p b b' orphans orphans') {s : UploadSession}
    (hs : OpenSession id b s) : OpenSession id b' s := by
  rw [OpenSession, h.db]
  exact hs

theorem Beside.bytes_session (h : Beside id p b b' orphans orphans') {s : UploadSession}
    (hs : OpenSession id b s) (hl : (b.storage.content s.location).isSome = true) :
    (b'.storage.content s.location).isSome = true :=
  h.bytes s.location (.inr (.inl ⟨s, hs.1, hs.2, rfl⟩)) hl

theorem Beside.bytes_row (h : Beside id p b b' orphans orphans') {o : MediaObject}
    (ho : b.db.objects.find id = some o) (hl : (b.storage.content o.location).isSome = true) :
    (b'.storage.content o.location).isSome = true :=
  h.bytes o.location (.inr (.inr ⟨o, ho, rfl⟩)) hl

theorem Beside.rowSpared (h : Beside id p b b' orphans orphans') (hp : RowSpared id b orphans) :
    RowSpared id b' orphans' := by
  intro o ho hst hmem
  rw [h.db] at ho
  exact h.bytes_row ho (hp o ho hst (h.orphans o ho hmem))

theorem Beside.copyMade (h : Beside id p b b' orphans orphans') {o : MediaObject}
    {bucket : Option String} (hp : CopyMade id b o bucket)
    (hholds : ∀ x, bucket = some x → p.Holds ⟨x, o.objectKey⟩) : CopyMade id b' o bucket := by
  refine ⟨by rw [h.db]; exact hp.1, fun x hx => ?_⟩
  obtain ⟨hne, hcopy⟩ := hp.2 x hx
  exact ⟨hne, h.bytes _ (.inl (hholds x hx)) hcopy⟩

/-- What the request knows survives a step beside it. -/
theorem TrafficPlace.Kept.beside (hp : p.Kept id b orphans)
    (h : Beside id p b b' orphans orphans') : p.Kept id b' orphans' := by
  cases p with
  | initiate _ _ | post _ _ | dropUnstored _ => exact h.rowApart hp
  | stage _ _ _ _ | recordUpload _ _ _ _ | put _ _ _ _ _ => exact ⟨hp.1, h.rowApart hp.2⟩
  | recordImport staged _ _ _ =>
    exact ⟨⟨hp.1.1, h.bytes staged.location (.inl rfl) hp.1.2⟩, h.rowApart hp.2⟩
  | complete p =>
    cases p with
    | read request =>
      cases request with
      | complete _ _ => exact h.rowApart hp
      | abort _ => exact hp.elim
      | purge => exact hp.elim
    | expire s => exact ⟨hp.1, h.rowApart hp.2⟩
    | stat c => exact ⟨h.openSession hp.1, h.rowApart hp.2⟩
    | head c _ | digest c _ | pin c _ | promote c _ =>
      obtain ⟨⟨hs, hl⟩, hrow⟩ := hp
      exact ⟨⟨h.openSession hs, h.bytes_session hs hl⟩, h.rowApart hrow⟩
    | reject s _ _ => exact ⟨h.openSession hp.1, h.rowApart hp.2⟩
    | dropRejected _ _ =>
      obtain ⟨o, ho, hst⟩ := hp
      exact ⟨o, by rw [h.db]; exact ho, hst⟩
    | finished _ => exact h.rowSpared hp
    | dropAborted _ | markAborted _ | purge _ _ => exact hp.elim
  | relocate p =>
    cases p with
    | read _ | reread => exact h.rowApart hp
    | copyFor _ o _ | archive o =>
      exact ⟨h.copyMade hp.1 nofun, h.rowApart hp.2⟩
    | commitPatch _ o _ bucket | commitDelete o bucket =>
      exact ⟨h.copyMade hp.1 fun x hx => ⟨x, hx, rfl⟩, h.rowApart hp.2⟩
    | drop l _ =>
      intro o ho hmem
      rw [h.db] at ho
      obtain ⟨hne, hl⟩ := hp o ho (h.orphans o ho hmem)
      exact ⟨hne, h.bytes_row ho hl⟩
    | finished _ => exact h.rowSpared hp
  | finished => exact h.rowSpared hp

end Keep

/-! ### The sweep's steps -/

/-- What the sweep knows: who protects an initiated session, and that nobody
relies on what it is about to remove. -/
def SweepPlace.Knows (id : UUID) (b : Backend) (p : TrafficPlace) : SweepPlace → Prop
  | .protect => True
  | .list sw _ | .check sw _ _ _ | .finished sw =>
    ∀ s ∈ b.db.sessions, s.status = .initiated → s.location ∈ sw.pending ∨ s.id = id
  | .remove sw bucket key _ _ =>
    (∀ s ∈ b.db.sessions, s.status = .initiated → s.location ∈ sw.pending ∨ s.id = id) ∧
      (⟨bucket, key⟩ : Location) ∉ sw.pending ∧ (∀ o ∈ b.db.objects, o.location ≠ ⟨bucket, key⟩) ∧
        ¬ p.Holds ⟨bucket, key⟩ ∧ ¬ b.db.Awaits id ⟨bucket, key⟩

/-- What holds in every state of a race whose steps are clear. -/
def RepairInv (id : UUID) (b : Backend) (p : SweepPlace) (q : TrafficPlace) : Prop :=
  p.Knows id b q ∧ q.Kept id b p.orphans

section Sweep

variable {env : Env} {buckets : List String} {limit : ℕ} {repair : Bool} {id : UUID}

theorem isClaimed_eq_false {db : Database} {pending : List Location} {l : Location} :
    isClaimed db pending l = false ↔ l ∉ pending ∧ ∀ o ∈ db.objects, o.location ≠ l := by
  simp [isClaimed, Table.mem_def]

theorem mem_pendingKeys {db : Database} {now : Timestamp} {s : UploadSession}
    (hs : s ∈ db.sessions) (hst : s.status = .initiated) : s.location ∈ pendingKeys db now := by
  refine List.mem_append_left _ (List.mem_map.mpr ⟨s, List.mem_filter.mpr ⟨hs, ?_⟩, rfl⟩)
  simpa using hst

/-- A clear step of the sweep. -/
theorem repairInv_sweepStep {s : Repair} {m : Moment} (h : RepairInv id s.shared s.left s.right)
    (hclear : RepairClear env.settings limit id s (false, m)) :
    RepairInv id (sweepStep env buckets limit repair s.shared s.left m).1
      (sweepStep env buckets limit repair s.shared s.left m).2 s.right := by
  obtain ⟨b, p, q⟩ := s
  obtain ⟨hknows, hkept⟩ := h
  dsimp only at hknows hkept ⊢
  cases p with
  | protect => exact ⟨fun s hs hst => .inl (mem_pendingKeys hs hst), hkept⟩
  | list sw todo => cases todo <;> exact ⟨hknows, hkept⟩
  | check sw bucket keys todo =>
    cases keys with
    | nil => exact ⟨hknows, hkept⟩
    | cons key keys =>
      rw [sweepStep]
      by_cases hfull : sw.orphans.length ≥ limit
      · rw [if_pos hfull]
        exact ⟨hknows, hkept⟩
      · rw [if_neg hfull]
        by_cases hclaimed : isClaimed b.db sw.pending ⟨bucket, key⟩ = true
        · rw [if_pos hclaimed]
          exact ⟨hknows, hkept⟩
        · rw [if_neg hclaimed]
          rw [Bool.not_eq_true] at hclaimed
          obtain ⟨hpending, hrows⟩ := isClaimed_eq_false.mp hclaimed
          have hcondemned : SweepPlace.condemned limit b.db (.check sw bucket (key :: keys) todo) =
              some ⟨bucket, key⟩ := if_pos ⟨by omega, hclaimed⟩
          obtain ⟨hawaits, hholds⟩ : ¬ b.db.Awaits id ⟨bucket, key⟩ ∧ ¬ q.Holds ⟨bucket, key⟩ :=
            hclear _ hcondemned
          have hbeside : Beside id q b b (sw.orphans.map OrphanRecord.location)
              ((sw.orphans ++ [(⟨⟨bucket, key⟩, none, none⟩ : OrphanRecord)]).map
                OrphanRecord.location) := by
            refine ⟨rfl, fun o ho hmem => ?_, fun _ _ hl => hl⟩
            rw [List.map_append, List.mem_append] at hmem
            rcases hmem with hmem | hmem
            · exact hmem
            · exact absurd (List.mem_singleton.mp hmem) (hrows o (Table.mem_of_find ho))
          have hkept' := hkept.beside hbeside
          cases repair with
          | false => exact ⟨hknows, hkept'⟩
          | true => exact ⟨⟨hknows, hpending, hrows, hholds, hawaits⟩, hkept'⟩
  | remove sw bucket key keys todo =>
    obtain ⟨hprotects, -, hrows, hholds, hawaits⟩ := hknows
    refine ⟨hprotects, hkept.beside ⟨rfl, fun _ _ hmem => hmem, fun l hl hbytes => ?_⟩⟩
    change ((b.storage.bestEffortRemove m.faults ⟨bucket, key⟩).content l).isSome = true
    rw [Storage.content_bestEffortRemove, if_neg]
    · exact hbytes
    · rintro ⟨-, rfl⟩
      rcases hl with hl | hl | ⟨o, ho, hl⟩
      · exact hholds hl
      · exact hawaits hl
      · exact hrows o (Table.mem_of_find ho) hl
  | finished sw => exact ⟨hknows, hkept⟩

/-- A removal takes no bytes of an initiated session. -/
theorem sparesInitiated_of_repairInv {s : Repair} (h : RepairInv id s.shared s.left s.right)
    (m : Bool × Moment) : SparesInitiated s m := by
  obtain ⟨i, m⟩ := m
  cases i with
  | true => trivial
  | false =>
    intro l hl _ _ q hq hst hloc
    obtain ⟨hknows, -⟩ := h
    cases hp : s.left with
    | remove sw bucket key keys todo =>
      rw [hp] at hl hknows
      obtain rfl : ⟨bucket, key⟩ = l := Option.some.inj hl
      obtain ⟨hprotects, hpending, -, -, hawaits⟩ := hknows
      rcases hprotects q hq hst with hmem | hid
      · exact hpending (hloc ▸ hmem)
      · exact hawaits ⟨q, by rw [← hid]; exact Table.find_of_mem hq, hst, hloc⟩
    | _ => rw [hp] at hl; cases hl

end Sweep

/-! ### The request's steps -/

/-- What a step of the request does: new rows and sessions stand where the request
held, awaited or takes bytes, and nowhere else. -/
structure Advances (settings : Settings) (id : UUID) (b : Backend) (p : TrafficPlace)
    (b' : Backend) (p' : TrafficPlace) (orphans : List Location) : Prop where
  kept : p'.Kept id b' orphans
  rows : ∀ o' ∈ b'.db.objects, (∃ o ∈ b.db.objects, o.location = o'.location) ∨
    p.Holds o'.location ∨ b.db.Awaits id o'.location
  sessions : ∀ s ∈ b'.db.sessions, s ∈ b.db.sessions ∨ s.id = id
  holds : ∀ l, p'.Holds l → p.Holds l ∨ p.Takes settings l
  awaits : ∀ l, b'.db.Awaits id l → b.db.Awaits id l ∨ p.Holds l ∨ p.Takes settings l

section Traffic

variable {env : Env} {settings : Settings} {limit : ℕ} {id : UUID} {b b' : Backend}
  {p p' : TrafficPlace} {orphans : List Location} {m : Moment}

/-- A step that leaves the database. -/
theorem Advances.of_db (hdb : b'.db = b.db) (hkept : p'.Kept id b' orphans)
    (hholds : ∀ l, p'.Holds l → p.Holds l ∨ p.Takes settings l) :
    Advances settings id b p b' p' orphans := by
  refine ⟨hkept, ?_, ?_, hholds, ?_⟩
  · rw [hdb]
    exact fun o' ho' => .inl ⟨o', ho', rfl⟩
  · rw [hdb]
    exact fun s hs => .inl hs
  · rw [hdb]
    exact fun l hl => .inl hl

/-- Sessions under other ids are the same. -/
theorem mem_sessions_of_find {db db' : Database}
    (h : ∀ k, k ≠ id → db'.sessions.find k = db.sessions.find k) :
    ∀ s ∈ db'.sessions, s ∈ db.sessions ∨ s.id = id := by
  intro s hs
  by_cases hid : s.id = id
  · exact .inr hid
  · have hfind := Table.find_of_mem hs
    rw [h s.id hid] at hfind
    exact .inl (Table.mem_of_find hfind)

/-- A completion's writes: the session is initiated no more, and a new row is at
its location. -/
theorem Advances.of_closed {s : UploadSession} (hs : OpenSession id b s)
    (status : UploadSessionStatus) (hst : status ≠ .initiated)
    (hself : ∀ q, b'.db.sessions.find id = some q → q.status = status)
    (hother : ∀ k, k ≠ id → b'.db.sessions.find k = b.db.sessions.find k)
    (hrows : ∀ o' ∈ b'.db.objects, o' ∈ b.db.objects ∨ o'.location = s.location)
    (hkept : p'.Kept id b' orphans) (hholds : ∀ l, ¬ p'.Holds l) :
    Advances settings id b p b' p' orphans := by
  refine ⟨hkept, fun o' ho' => ?_, mem_sessions_of_find hother, fun l hl => absurd hl (hholds l),
    ?_⟩
  · rcases hrows o' ho' with ho' | hl
    · exact .inl ⟨o', ho', rfl⟩
    · exact .inr (.inr ⟨s, hs.1, hs.2, hl.symm⟩)
  · rintro l ⟨q, hq, hinit, -⟩
    exact absurd ((hself q hq).symm.trans hinit) hst

theorem mem_of_insertObject {db db' : Database} {o : MediaObject}
    (h : db.insertObject o = .ok db') : ∀ o' ∈ db'.objects, o' ∈ db.objects ∨ o' = o := by
  obtain ⟨-, t, ht, rfl⟩ := Database.insertObject_ok h
  exact fun o' ho' => (Table.mem_insert ht).mp ho'

theorem advances_rejectStep {s : UploadSession} (hs : OpenSession id b s)
    (hrow : RowApart id b orphans) (usage : UsageTable) (now : Timestamp)
    (reason : UploadRejectReason) (size : ℕ) :
    Advances settings id b p (rejectStep b usage now s reason size).1
      (.complete (rejectStep b usage now s reason size).2) orphans := by
  obtain rfl : s.id = id := Table.key_of_find hs.1
  unfold rejectStep
  split
  · exact .of_db rfl hrow.spared fun _ => False.elim
  · rename_i db hins
    obtain ⟨-, hfound, hsessions, -⟩ := insertObject_session hins
    refine .of_closed hs .aborted (by decide) (fun q hq => ?_) (fun k hk => ?_) ?_
      ⟨_, hfound, rfl⟩ fun _ => False.elim
    · rw [find_setSessionStatus, if_pos rfl, Option.map_eq_some_iff] at hq
      obtain ⟨r, -, rfl⟩ := hq
      rfl
    · rw [find_setSessionStatus, if_neg hk, hsessions]
    · intro o' ho'
      rcases mem_of_insertObject hins o' ho' with ho' | rfl
      · exact .inl ho'
      · exact .inr rfl

theorem advances_promoteStep {c : Completing} (hs : OpenSession id b c.session)
    (hbytes : (b.storage.content c.session.location).isSome = true) (hrow : RowApart id b orphans)
    (now : Timestamp) (size : ℕ) :
    Advances settings id b p (promoteStep env.settings b now c size).1
      (.complete (promoteStep env.settings b now c size).2) orphans := by
  obtain hid : c.session.id = id := Table.key_of_find hs.1
  unfold promoteStep
  split
  · exact advances_rejectStep hs hrow _ _ _ _
  · dsimp only
    split
    · exact .of_db rfl hrow.spared fun _ => False.elim
    · rename_i db hins
      obtain ⟨-, hfound, hsessions, -⟩ := insertObject_session hins
      refine .of_closed hs .completed (by decide) (fun q hq => ?_) (fun k hk => ?_) ?_
        ?_ fun _ => False.elim
      · subst hid
        rw [Database.setSessionCompleted, Table.find_modify, if_pos rfl,
          Option.map_eq_some_iff] at hq
        obtain ⟨r, -, rfl⟩ := hq
        rfl
      · subst hid
        rw [Database.setSessionCompleted, Table.find_modify, if_neg hk, Database.setFiling,
          hsessions]
      · intro o' ho'
        rcases mem_of_insertObject hins o' ho' with ho' | rfl
        · exact .inl ho'
        · exact .inr rfl
      · intro o ho _ _
        subst hid
        obtain rfl := Option.some.inj (hfound.symm.trans ho)
        exact hbytes

/-- A completion's first read: what it goes on with is the session as it stands. -/
theorem kept_readStep (hrow : RowApart id b orphans) (now : Timestamp) (user : UserModel)
    (req : UploadCompleteRequest) :
    (TrafficPlace.complete (readStep b id now (.complete user req))).Kept id b orphans ∧
      ∀ l, (TrafficPlace.complete (readStep b id now (.complete user req))).Holds l →
        (TrafficPlace.complete (.read (.complete user req))).Holds l ∨
          (TrafficPlace.complete (.read (.complete user req))).Takes settings l := by
  refine ⟨?_, fun l => ?_⟩
  · simp only [readStep]
    split
    · exact hrow.spared
    · rename_i s hload
      obtain ⟨hs, hid, -⟩ := loadOwnedSession_ok hload
      split
      · exact hrow.spared
      · rename_i hinit
        split
        · exact ⟨hid, hrow⟩
        · split
          · exact hrow.spared
          · exact ⟨⟨hid ▸ hs, not_not.mp hinit⟩, hrow⟩
  · exact False.elim

/-- A step of a completion. -/
theorem advances_raceStep {r : RacePlace} (hr : r.Kept id b orphans) (m : Moment) :
    Advances settings id b (.complete r) (raceStep env id b r m).1
      (.complete (raceStep env id b r m).2) orphans := by
  cases r with
  | read request =>
    cases request with
    | complete user req =>
      obtain ⟨hkept, hholds⟩ := kept_readStep hr m.now user req
      exact .of_db rfl hkept hholds
    | abort _ => exact hr.elim
    | purge => exact hr.elim
  | expire s =>
    obtain ⟨rfl, hrow⟩ := hr
    refine ⟨hrow.spared, fun o' ho' => .inl ⟨o', ho', rfl⟩, mem_sessions_of_find fun k hk => ?_,
      fun _ => False.elim, ?_⟩
    · rw [raceStep, find_setSessionStatus, if_neg hk]
    · rintro l ⟨q, hq, hinit, -⟩
      rw [raceStep, find_setSessionStatus, if_pos rfl, Option.mem_def,
        Option.map_eq_some_iff] at hq
      obtain ⟨r, -, rfl⟩ := hq
      cases hinit
  | stat c =>
    simp only [raceStep]
    split
    · exact .of_db rfl hr.2.spared fun _ => False.elim
    · rename_i hstat
      split
      · exact .of_db rfl hr fun _ => False.elim
      · refine .of_db rfl ⟨⟨hr.1, ?_⟩, hr.2⟩ fun _ => False.elim
        obtain ⟨content, hcontent, -⟩ := statObject_eq_some hstat
        rw [hcontent]
        rfl
  | head c size =>
    simp only [raceStep]
    split
    · exact .of_db rfl ⟨hr.1.1, hr.2⟩ fun _ => False.elim
    · exact .of_db rfl hr fun _ => False.elim
  | digest c size =>
    simp only [raceStep]
    split
    · exact .of_db rfl hr.2.spared fun _ => False.elim
    · exact .of_db rfl ⟨hr.1.1, hr.2⟩ fun _ => False.elim
    · exact .of_db rfl hr fun _ => False.elim
  | pin c size =>
    simp only [raceStep]
    split
    · exact .of_db rfl hr.2.spared fun _ => False.elim
    · rename_i st hst
      refine .of_db rfl ⟨⟨hr.1.1, ?_⟩, hr.2⟩ fun _ => False.elim
      rw [Storage.content_setObjectContentType hst]
      exact hr.1.2
  | promote c size => exact advances_promoteStep hr.1.1 hr.1.2 hr.2 m.now size
  | reject s reason size => exact advances_rejectStep hr.1 hr.2 _ _ _ _
  | dropRejected s reason =>
    obtain ⟨o, ho, hst⟩ := hr
    refine .of_db rfl (fun q hq hlive => ?_) fun _ => False.elim
    obtain rfl : o = q := Option.some.inj (ho.symm.trans hq)
    exact absurd hst hlive
  | finished _ => exact .of_db rfl hr fun _ => False.elim
  | dropAborted _ | markAborted _ | purge _ _ => exact hr.elim

/-- A relocation's first read. -/
theorem kept_readObjectStep (env : Env) (hrow : RowApart id b orphans) (request : ObjectRequest) :
    (TrafficPlace.relocate (readObjectStep env b id request)).Kept id b orphans ∧
      ∀ l, ¬ (TrafficPlace.relocate (readObjectStep env b id request)).Holds l := by
  have hload : ∀ {user includeDeleted o}, loadObject b.db user id includeDeleted = .ok o →
      CopyMade id b o none := fun h =>
    ⟨Table.find_eq_some.mpr ⟨(loadObject_ok h).1, (loadObject_ok h).2.1⟩, nofun⟩
  cases request with
  | update user body =>
    simp only [readObjectStep]
    split
    · exact ⟨hrow.spared, fun _ => False.elim⟩
    · split
      · exact ⟨hrow.spared, fun _ => False.elim⟩
      · rename_i o ho
        split
        · exact ⟨hrow.spared, fun _ => False.elim⟩
        · exact ⟨⟨hload ho, hrow⟩, fun _ => False.elim⟩
  | delete user =>
    simp only [readObjectStep]
    split
    · exact ⟨hrow.spared, fun _ => False.elim⟩
    · rename_i o ho
      split
      · exact ⟨hrow.spared, fun _ => False.elim⟩
      · exact ⟨⟨hload ho, hrow⟩, fun _ => False.elim⟩

theorem CopyMade.copied {o : MediaObject} (ho : CopyMade id b o none) {faults : Faults}
    {st : Storage} {bucket : Option String} (h : Relocates b.storage faults o st bucket) :
    CopyMade id { b with storage := st } o bucket := by
  refine ⟨ho.1, fun x hx => ?_⟩
  subst hx
  obtain ⟨hne, hcopy⟩ := h
  obtain ⟨c, -, hc, -⟩ := copyObject_content hcopy
  refine ⟨hne, ?_⟩
  rw [Storage.find_copyObject hcopy, if_pos rfl, hc]
  rfl

theorem bucket_relocateForVisibility {st st' : Storage} {faults : Faults} {o : MediaObject}
    {v : Option MediaVisibility} {x : String}
    (h : relocateForVisibility settings st faults o v = .ok (st', some x)) :
    ∃ w, v = some w ∧ x = bucketForVisibility settings w := by
  unfold relocateForVisibility at h
  split at h
  · cases h
  · dsimp only at h
    split at h
    · cases h
    · split at h
      · cases h
      · cases h
        exact ⟨_, rfl, rfl⟩

theorem bucket_archiveDeletedBytes {st : Storage} {faults : Faults} {o : MediaObject} {x : String}
    (h : (archiveDeletedBytes settings st faults o).2 = some x) :
    x = bucketForStorageClass settings .archive := by
  unfold archiveDeletedBytes at h
  dsimp only at h
  split at h
  · cases h
  · split at h
    · cases h
    · cases h
      rfl

section Commit

variable {o q' : MediaObject} {bucket : Option String} {db' : Database}

/-- The row a relocation commits: where it was, or where the copy was made. -/
theorem CopyMade.committed (ho : CopyMade id b o bucket) (hrow : RowApart id b orphans)
    (hfound : db'.objects.find id = some q')
    (hloc : q'.location = ⟨bucket.getD o.storageBucket, o.objectKey⟩) :
    (bucket = none → RowApart id { b with db := db' } orphans) ∧
      ∀ x, bucket = some x → ∀ answer,
        (RelocationPlace.drop o.location answer).Kept id { b with db := db' } orphans := by
  constructor
  · rintro rfl q hq
    obtain rfl := Option.some.inj (hfound.symm.trans hq)
    rw [hloc]
    exact hrow o ho.1
  · rintro x rfl answer q hq -
    obtain rfl := Option.some.inj (hfound.symm.trans hq)
    obtain ⟨hne, hcopy⟩ := ho.2 x rfl
    rw [hloc]
    exact ⟨fun he => hne (congrArg Location.bucket he), hcopy⟩

theorem Advances.of_commit (ho : CopyMade id b o bucket)
    (hobjects : db'.objects = b.db.objects.update q') (hid : q'.id = id)
    (hloc : q'.location = ⟨bucket.getD o.storageBucket, o.objectKey⟩)
    (hsessions : db'.sessions = b.db.sessions)
    (hholds : ∀ x, bucket = some x → p.Holds ⟨x, o.objectKey⟩)
    (hkept : p'.Kept id { b with db := db' } orphans) (hnone : ∀ l, ¬ p'.Holds l) :
    Advances settings id b p { b with db := db' } p' orphans := by
  refine ⟨hkept, fun o' ho' => ?_, ?_, fun l hl => absurd hl (hnone l), ?_⟩
  · change o' ∈ db'.objects at ho'
    rw [hobjects, Table.mem_update (by rw [hid]; exact ho.1)] at ho'
    rcases ho' with rfl | ⟨ho', -⟩
    · cases bucket with
      | none => exact .inl ⟨o, Table.mem_of_find ho.1, hloc.symm⟩
      | some x =>
        rw [hloc]
        exact .inr (.inl (hholds x rfl))
    · exact .inl ⟨o', ho', rfl⟩
  · change ∀ s ∈ db'.sessions, _
    rw [hsessions]
    exact fun s hs => .inl hs
  · rintro l ⟨s, hs, hl⟩
    change db'.sessions.find id = some s at hs
    rw [hsessions] at hs
    exact .inl ⟨s, hs, hl⟩

end Commit

/-- A step of a relocation. -/
theorem advances_relocationStep {r : RelocationPlace} (hr : r.Kept id b orphans) (m : Moment) :
    Advances env.settings id b (.relocate r) (relocationStep env id b r m).1
      (.relocate (relocationStep env id b r m).2) orphans := by
  cases r with
  | read request =>
    obtain ⟨hkept, hholds⟩ := kept_readObjectStep env hr request
    exact .of_db rfl hkept fun l hl => absurd hl (hholds l)
  | copyFor u o categories =>
    simp only [relocationStep]
    split
    · exact .of_db rfl hr.2.spared fun _ => False.elim
    · rename_i st bucket hcopy
      refine .of_db rfl ⟨hr.1.copied (relocates_of_relocateForVisibility hcopy), hr.2⟩ ?_
      rintro l ⟨x, rfl, rfl⟩
      obtain ⟨w, hw, rfl⟩ := bucket_relocateForVisibility hcopy
      exact .inr ⟨w, hw, rfl⟩
  | archive o =>
    simp only [relocationStep]
    refine .of_db rfl ⟨hr.1.copied (relocates_of_archiveDeletedBytes _ _ _ _), hr.2⟩ ?_
    rintro l ⟨x, hx, rfl⟩
    obtain rfl := bucket_archiveDeletedBytes hx
    exact .inr rfl
  | commitPatch u o categories bucket =>
    obtain ⟨ho, hrow⟩ := hr
    have hid : o.id = id := Table.key_of_find ho.1
    simp only [relocationStep]
    split
    · cases bucket with
      | none => exact .of_db rfl hrow.spared fun _ => False.elim
      | some x => exact .of_db rfl (fun q hq hmem => absurd hmem (hrow q hq)) fun _ => False.elim
    · rename_i db' hcommit
      obtain ⟨q', hwrite, hobjects, -, hsessions⟩ :=
        commitPatchedRow_ok hcommit (by rw [hid]; exact ho.1)
      obtain ⟨hid', -, hloc⟩ := write_row hwrite
      have hfound : db'.objects.find id = some q' := by
        rw [hobjects, ← hid, ← hid']
        exact Table.find_update_self (by rw [hid', hid]; exact ho.1)
      obtain ⟨hstays, hmoves⟩ := ho.committed hrow hfound hloc
      refine .of_commit ho hobjects (hid'.trans hid) hloc hsessions
        (fun x hx => ⟨x, hx, rfl⟩) ?_ ?_
      · cases bucket with
        | none => exact (hstays rfl).spared
        | some x => exact hmoves x rfl (.ok ())
      · cases bucket <;> exact fun _ => False.elim
  | commitDelete o bucket =>
    obtain ⟨ho, hrow⟩ := hr
    have hid : o.id = id := Table.key_of_find ho.1
    simp only [relocationStep]
    split
    · exact .of_db rfl hrow.spared fun _ => False.elim
    · rename_i db' hcommit
      obtain ⟨hobjects, -, hsessions⟩ := commitDeletedRow_ok hcommit (by rw [hid]; exact ho.1)
      have hfound : db'.objects.find id = some { o with
          storageBucket := bucket.getD o.storageBucket
          deletedAt := some m.now
          status := column .deleted o.status o.status
          updatedAt := m.now } := by
        rw [hobjects, ← hid]
        exact Table.find_update_self (by rw [hid]; exact ho.1)
      obtain ⟨hstays, hmoves⟩ := ho.committed hrow hfound rfl
      refine .of_commit ho hobjects hid rfl hsessions (fun x hx => ⟨x, hx, rfl⟩) ?_ ?_
      · cases bucket with
        | none => exact hstays rfl
        | some x => exact hmoves x rfl (.ok ())
      · cases bucket <;> exact fun _ => False.elim
  | reread =>
    simp only [relocationStep]
    split
    · exact .of_db rfl hr.spared fun _ => False.elim
    · split
      · exact .of_db rfl (fun q hq hmem => absurd hmem (hr q hq)) fun _ => False.elim
      · exact .of_db rfl hr.spared fun _ => False.elim
  | drop l answer =>
    refine .of_db rfl (fun q hq _ hmem => ?_) fun _ => False.elim
    obtain ⟨hne, hbytes⟩ := hr q hq hmem
    change ((b.storage.bestEffortRemove m.faults l).content q.location).isSome = true
    rw [Storage.content_bestEffortRemove, if_neg fun h => hne h.2]
    exact hbytes
  | finished _ => exact .of_db rfl hr fun _ => False.elim

/-- The recording of a session at the location a request takes or holds. -/
theorem advances_recordUploadSession {staged : StagedUpload} {req : UploadInitiateRequest}
    {now expiresAt : Timestamp} {db' : Database}
    (h : recordUploadSession b.db staged req now expiresAt = .ok db') (hid : staged.mediaId = id)
    (htakes : p.Holds staged.location ∨ p.Takes settings staged.location)
    (hkept : db'.objects = b.db.objects → p'.Kept id { b with db := db' } orphans)
    (hnone : ∀ l, ¬ p'.Holds l) :
    Advances settings id b p { b with db := db' } p' orphans := by
  obtain ⟨-, t, ht, rfl⟩ := Database.insertSession_ok h
  refine ⟨hkept rfl, fun o' ho' => .inl ⟨o', ho', rfl⟩, fun s hs => ?_,
    fun l hl => absurd hl (hnone l), ?_⟩
  · rcases (Table.mem_insert ht).mp hs with hs | rfl
    · exact .inl hs
    · exact .inr hid
  · rintro l ⟨s, hs, hinit, rfl⟩
    rw [Table.find_insert ht,
      if_pos (show id = (stagedSession staged req now expiresAt).id from hid.symm)] at hs
    cases hs
    exact .inr htakes

/-- A step of the request. -/
theorem advances_trafficStep (env : Env) (hp : p.Kept id b orphans) (m : Moment) :
    Advances env.settings id b p (trafficStep env id b p m).1 (trafficStep env id b p m).2
      orphans := by
  cases p with
  | initiate client body =>
    simp only [trafficStep, initiateStep]
    split
    · exact .of_db rfl hp.spared fun _ => False.elim
    · split
      · exact .of_db rfl hp.spared fun _ => False.elim
      · rename_i staged hstaged
        split
        · exact .of_db rfl hp.spared fun _ => False.elim
        · exact .of_db rfl ⟨(stageUpload_ok hstaged).1, hp⟩ fun _ => False.elim
  | recordUpload staged req form client =>
    simp only [trafficStep]
    split
    · exact .of_db rfl hp.2.spared fun _ => False.elim
    · rename_i db' hrecord
      refine advances_recordUploadSession hrecord hp.1 (.inr rfl) (fun hobjects => ?_)
        fun _ => False.elim
      exact fun o ho => hp.2 o (by rwa [hobjects] at ho)
  | post form client => exact .of_db rfl hp fun _ => False.elim
  | stage user info entry categories =>
    simp only [trafficStep, stageStep]
    split
    · exact .of_db rfl hp.2.spared fun _ => False.elim
    · split
      · exact .of_db rfl hp.2.spared fun _ => False.elim
      · split
        · exact .of_db rfl hp.2.spared fun _ => False.elim
        · split
          · exact .of_db rfl hp.2.spared fun _ => False.elim
          · rename_i staged hstaged
            exact .of_db rfl ⟨(stageUpload_ok hstaged).1.trans hp.1, hp.2⟩ fun _ => False.elim
  | put staged req data user completion =>
    simp only [trafficStep]
    split
    · exact .of_db rfl hp.2 fun _ => False.elim
    · rename_i st hput
      obtain ⟨content, -, hput⟩ := Option.bind_eq_some_iff.mp hput
      refine .of_db rfl ⟨⟨hp.1, ?_⟩, hp.2⟩ fun l hl => .inr hl
      rw [Storage.content_putObjectStream hput, if_pos rfl]
      rfl
  | dropUnstored l =>
    exact .of_db rfl (fun q hq _ hmem => absurd hmem (hp q hq)) fun _ => False.elim
  | recordImport staged req user completion =>
    simp only [trafficStep]
    split
    · exact .of_db rfl hp.2.spared fun _ => False.elim
    · rename_i db' hrecord
      refine advances_recordUploadSession hrecord hp.1.1 (.inl rfl) (fun hobjects => ?_)
        fun _ => False.elim
      exact fun o ho => hp.2 o (by rwa [hobjects] at ho)
  | complete r => exact advances_raceStep hp m
  | relocate r => exact advances_relocationStep hp m
  | finished => exact .of_db rfl hp fun _ => False.elim

/-- A clear step of the request. -/
theorem repairInv_trafficStep {s : Repair} (h : RepairInv id s.shared s.left s.right)
    (hclear : RepairClear env.settings limit id s (true, m)) :
    RepairInv id (trafficStep env id s.shared s.right m).1 s.left
      (trafficStep env id s.shared s.right m).2 := by
  obtain ⟨b, p, q⟩ := s
  obtain ⟨hknows, hkept⟩ := h
  have hq := advances_trafficStep env hkept m
  refine ⟨?_, hq.kept⟩
  dsimp only at hknows hclear ⊢
  have hprotects : ∀ {pending : List Location},
      (∀ s ∈ b.db.sessions, s.status = .initiated → s.location ∈ pending ∨ s.id = id) →
        ∀ s ∈ (trafficStep env id b q m).1.db.sessions, s.status = .initiated →
          s.location ∈ pending ∨ s.id = id := by
    intro pending hall s hs hst
    rcases hq.sessions s hs with hs | hid
    · exact hall s hs hst
    · exact .inr hid
  cases p with
  | protect => trivial
  | list sw _ | check sw _ _ _ | finished sw => exact hprotects hknows
  | remove sw bucket key keys todo =>
    obtain ⟨hall, hpending, hrows, hholds, hawaits⟩ := hknows
    have htakes : ¬ q.Takes env.settings ⟨bucket, key⟩ := hclear ⟨bucket, key⟩ rfl
    refine ⟨hprotects hall, hpending, fun o' ho' hl => ?_, fun hl => ?_, fun hl => ?_⟩
    · rcases hq.rows o' ho' with ⟨o, ho, he⟩ | hnew | hnew
      · exact hrows o ho (he.trans hl)
      · exact hholds (hl ▸ hnew)
      · exact hawaits (hl ▸ hnew)
    · exact (hq.holds _ hl).elim hholds htakes
    · rcases hq.awaits _ hl with hl | hl | hl
      · exact hawaits hl
      · exact hholds hl
      · exact htakes hl

end Traffic

/-! ### Every interleaving -/

section Runs

variable {id : UUID} {b : Backend} {orphans : List Location}

theorem TrafficPlace.Kept.rowSpared {p : TrafficPlace} (h : p.Kept id b orphans) :
    RowSpared id b orphans := by
  cases p with
  | initiate _ _ | post _ _ | dropUnstored _ => exact RowApart.spared h
  | stage _ _ _ _ | recordUpload _ _ _ _ | put _ _ _ _ _ | recordImport _ _ _ _ =>
    exact RowApart.spared h.2
  | complete p =>
    cases p with
    | read request =>
      cases request with
      | complete _ _ => exact RowApart.spared h
      | abort _ => exact h.elim
      | purge => exact h.elim
    | expire _ | stat _ | head _ _ | digest _ _ | pin _ _ | promote _ _ | reject _ _ _ =>
      exact RowApart.spared h.2
    | dropRejected _ _ =>
      obtain ⟨o, ho, hst⟩ := h
      intro q hq hlive
      obtain rfl := Option.some.inj (ho.symm.trans hq)
      exact absurd hst hlive
    | finished _ => exact h
    | dropAborted _ | markAborted _ | purge _ _ => exact h.elim
  | relocate p =>
    cases p with
    | read _ | reread => exact RowApart.spared h
    | copyFor _ _ _ | archive _ | commitPatch _ _ _ _ | commitDelete _ _ =>
      exact RowApart.spared h.2
    | drop l _ => exact fun o ho _ hmem => (h o ho hmem).2
    | finished _ => exact h
  | finished => exact h

theorem repairInv_start (b : Backend) (request : Traffic) :
    RepairInv request.id b .protect request.start := by
  have hrow : RowApart request.id b [] := fun _ _ => List.not_mem_nil
  refine ⟨trivial, ?_⟩
  cases request with
  | upload _ _ _ => exact hrow
  | importFile _ _ _ _ => exact ⟨rfl, hrow⟩
  | relocation _ _ => exact hrow

/-- A run whose steps are clear takes no bytes of an initiated session and none of
the request's row. -/
theorem repair_spares (env : Env) (buckets : List String) (limit : ℕ) (repair : Bool)
    (b : Backend) (request : Traffic) (ms : List (Bool × Moment))
    (hclear : Guarded (repairTurn env buckets limit repair request.id)
      (RepairClear env.settings limit request.id) (repairStart b request) ms) :
    Guarded (repairTurn env buckets limit repair request.id) SparesInitiated
        (repairStart b request) ms ∧
      Always (repairTurn env buckets limit repair request.id)
        (fun s => RowSpared request.id s.shared s.left.orphans) (repairStart b request) ms := by
  have hinv := always_duo (I := RepairInv request.id) (fun _ _ => repairInv_sweepStep)
    (fun _ _ => repairInv_trafficStep) (repairInv_start b request) hclear
  exact ⟨hinv.guarded fun s m h => sparesInitiated_of_repairInv h m,
    hinv.mono fun s h => h.2.rowSpared⟩

/-- The first user uploads a private PNG as object 2. -/
def pngTraffic : Traffic :=
  .upload ⟨2⟩ ⟨.ordinary 1, pngSignature, ⟨none, none⟩⟩ (pngUpload .private)

/-- A schedule of turns in which nothing fails. -/
def takeTurns (turns : List Bool) : List (Bool × Moment) := turns.map fun i => (i, ⟨0, Faults.none⟩)

/-- The session is recorded before the sweep reads the protected keys. -/
def protectedUpload : List (Bool × Moment) :=
  takeTurns
    [true, true, false, true, false, false, false, true, true, true, true, true, true, false]

theorem repair_spares_protectedUpload :
    Guarded (repairTurn Env.default ["private-media"] 10 true ⟨2⟩) SparesInitiated
        (repairStart World.initial.backend pngTraffic) protectedUpload ∧
      Always (repairTurn Env.default ["private-media"] 10 true ⟨2⟩)
        (fun s => RowSpared ⟨2⟩ s.shared s.left.orphans)
        (repairStart World.initial.backend pngTraffic) protectedUpload :=
  repair_spares Env.default ["private-media"] 10 true World.initial.backend pngTraffic
    protectedUpload (by decide +kernel)

/-- The sweep reads the protected keys, the upload is initiated and posted, and the
sweep lists, checks and removes. -/
def unprotectedUpload : List (Bool × Moment) :=
  takeTurns [false, true, true, true, false, false, false]

/-- The object of the kept backend is made public by its owner. -/
def publishTraffic : Traffic :=
  .relocation ⟨2⟩ (.update (.ordinary 1) ⟨some (some .public), none, none, none⟩)

/-- The relocation copies, the sweep runs to the end, the relocation commits and
removes the source. -/
def sweptCopy : List (Bool × Moment) :=
  takeTurns [true, true, false, false, false, false, false, false, true, true]

theorem not_repair_spares :
    ¬ Guarded (repairTurn Env.default ["private-media"] 10 true ⟨2⟩) SparesInitiated
        (repairStart World.initial.backend pngTraffic) unprotectedUpload ∧
      ¬ Always (repairTurn Env.default ["public-media"] 10 true ⟨2⟩)
        (fun s => RowSpared ⟨2⟩ s.shared s.left.orphans)
        (repairStart keptBackend publishTraffic) sweptCopy := by
  decide +kernel

/-- What the sweep condemns it takes with its next turn, whoever needs it. -/
theorem condemned_taken {env : Env} {buckets : List String} {limit : ℕ} {s : Repair} {l : Location}
    (hl : l ∈ s.left.condemned limit s.shared.db) (m m' : Moment)
    (hfault : m'.faults .remove l = false) :
    (run (repairTurn env buckets limit true id) s [(false, m), (false, m')]).shared.storage.content
      l = none := by
  obtain ⟨b, p, q⟩ := s
  cases p with
  | check sw bucket keys todo =>
    cases keys with
    | nil => cases hl
    | cons key keys =>
      rw [SweepPlace.condemned, Option.mem_def, Option.ite_none_right_eq_some] at hl
      obtain ⟨⟨hroom, hclaimed⟩, hl⟩ := hl
      obtain rfl := Option.some.inj hl
      simp only [run_cons, run_nil, duoTurn, sweepStep, hclaimed, ge_iff_le, not_le.mpr hroom,
        if_false, Bool.false_eq_true, if_true]
      rw [Storage.content_bestEffortRemove, if_pos ⟨hfault, rfl⟩]
  | _ => cases hl

end Runs

end MediaService
