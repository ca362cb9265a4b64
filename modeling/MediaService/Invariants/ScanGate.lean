import MediaService.Lifecycle.Service

/-! The scan gate. Downloads, shares, archive payloads and variant jobs each test
the row before they hand out an object; the rows are written by uploads, imports,
patches, deletions and verdicts. Over every run, what passes a gate is live and
was found clean by the last verdict applied to it. -/

namespace MediaService

open Foundation

variable {env : Env}

/-! ### Verdicts -/

/-- A world, and the last verdict applied to each object in it. -/
structure Judged where
  world : World
  latest : UUID → Option ScanStatus

def Judged.initial : Judged := ⟨World.initial, fun _ => none⟩

/-- The last verdicts after a request: a verdict on a row that is there counts
if it is accepted, and what is not there has none, so a new object starts without. -/
def noteVerdict (s : Judged) (r : Request) (id : UUID) : Option ScanStatus :=
  if s.world.backend.db.objects.find id = none then none
  else
    match r with
    | .scanResult now objectId scanStatus =>
      match applyScanResult s.world.backend.db now objectId scanStatus with
      | .ok _ => if objectId = id then some scanStatus else s.latest id
      | .error _ => s.latest id
    | _ => s.latest id

def serveJudged (env : Env) (s : Judged) (r : Request) : Judged :=
  ⟨serve env s.world r, noteVerdict s r⟩

/-- The history is only kept, never read. -/
theorem run_serveJudged_world (s : Judged) (rs : List Request) :
    (run (serveJudged env) s rs).world = run (serve env) s.world rs := by
  induction rs generalizing s with
  | nil => rfl
  | cons r rs ih => exact ih _

/-! ### The gates -/

/-- Live, and found clean by the last verdict. -/
def Judged.Opens (s : Judged) (id : UUID) : Prop :=
  ∃ o ∈ s.world.backend.db.objects, o.id = id ∧ o.deletedAt = none ∧ s.latest id = some .clean

/-- Whatever passes a gate of the service is open. -/
structure ScanGate (env : Env) (s : Judged) : Prop where
  download : ∀ now user id url,
    downloadUrl env.settings s.world.backend.db now user id = .ok url → s.Opens id
  share : ∀ now tokenId db url,
    resolveShare env.settings s.world.backend.db now tokenId = .ok (db, url) →
    ∃ share, s.world.backend.db.shares.find tokenId = some share ∧ s.Opens share.mediaObjectId
  archive : ∀ now jobId user filters db job,
    startArchiveExport env s.world.backend.db now jobId user filters = .ok (db, job) →
    ∀ e ∈ job.objects, s.Opens e.objectId
  generate : ∀ now jobId user objectId req db job,
    generateVariants env s.world.backend.db now jobId user objectId req = .ok (db, job) →
    s.Opens objectId

/-- A clean row was found clean by its last verdict. -/
def Judged.Noted (s : Judged) : Prop :=
  ∀ o ∈ s.world.backend.db.objects, o.scanStatus = .clean → s.latest o.id = some .clean

theorem Judged.Noted.opens {s : Judged} (hs : s.Noted) {o : MediaObject}
    (ho : o ∈ s.world.backend.db.objects) (hi : o.InService) : s.Opens o.id :=
  ⟨o, ho, rfl, hi.1, hs o ho hi.2⟩

theorem generateVariants_inService {db db' : Database} {now : Timestamp} {jobId : UUID}
    {user : UserModel} {objectId : UUID} {req : VariantGenerateRequest} {job : VariantJobPayload}
    (h : generateVariants env db now jobId user objectId req = .ok (db', job)) :
    ∃ o ∈ db.objects, o.id = objectId ∧ o.InService := by
  unfold generateVariants at h
  split at h
  · cases h
  · rename_i o hload
    obtain ⟨ho, hid, hlive, -⟩ := loadObject_ok hload
    split at h
    · exact absurd h refuse_ne_ok
    · rename_i hgate
      rw [not_or, not_not, not_not] at hgate
      exact ⟨o, ho, hid, hlive rfl, hgate.2⟩

theorem Judged.Noted.scanGate {s : Judged} (hs : s.Noted) : ScanGate env s where
  download now user id url h := by
    obtain ⟨o, ho, rfl, hi, -⟩ := downloadUrl_eq_ok.mp h
    exact hs.opens ho hi
  share now tokenId db url h := by
    obtain ⟨-, share, o, hshare, ho, hid, hi, -⟩ := resolveShare_ok h
    exact ⟨share, hshare, hid ▸ hs.opens ho hi⟩
  archive now jobId user filters db job h e he := by
    obtain ⟨-, hobjects, -⟩ := startArchiveExport_ok h
    obtain ⟨o, ho, hi, rfl⟩ := hobjects e he
    exact hs.opens ho hi
  generate now jobId user objectId req db job h := by
    obtain ⟨o, ho, rfl, hi⟩ := generateVariants_inService h
    exact hs.opens ho hi

/-! ### Steps -/

/-- Verdicts apart, no move makes a row clean: a new row is unscanned, and the
others keep their status. -/
theorem Moves.clean_before {m : Move} {h h' : Holdings} (hm : Moves env m h h')
    (hj : ∀ o o', m ≠ .judged o o') {o : MediaObject} (ho : o ∈ h'.objects)
    (hclean : o.scanStatus = .clean) :
    ∃ q ∈ h.objects, q.id = o.id ∧ q.scanStatus = .clean := by
  have hupdate : ∀ {q q' : MediaObject}, q ∈ h.objects → q'.id = q.id →
      q'.scanStatus = q.scanStatus → o ∈ h.objects.update q' →
      ∃ q ∈ h.objects, q.id = o.id ∧ q.scanStatus = .clean := by
    intro q q' hq hid hscan hmem
    rcases (Table.mem_update (by rw [hid]; exact Table.find_of_mem hq)).mp hmem with rfl | ⟨hmem, -⟩
    · exact ⟨q, hq, hid.symm, hscan ▸ hclean⟩
    · exact ⟨o, hmem, rfl, hclean⟩
  cases hm with
  | promoted _ _ he _ ht =>
    rcases (Table.mem_insert ht).mp ho with hmem | rfl
    · exact ⟨o, hmem, rfl, hclean⟩
    · rw [he] at hclean
      cases hclean
  | rejected _ _ he ht =>
    rcases (Table.mem_insert ht).mp ho with hmem | rfl
    · exact ⟨o, hmem, rfl, hclean⟩
    · rw [he] at hclean
      cases hclean
  | judged => exact absurd rfl (hj _ _)
  | patched hq _ he _ => exact hupdate hq (by rw [he]) (by rw [he]) ho
  | softDeleted hq _ he => exact hupdate hq (by rw [he]) (by rw [he]) ho
  | purged _ => exact ⟨o, (Table.mem_erase.mp ho).1, rfl, hclean⟩
  | _ => exact ⟨o, ho, rfl, hclean⟩

theorem noteVerdict_of_ne {s : Judged} {r : Request} {q : MediaObject}
    (hr : ∀ now st, r ≠ .scanResult now q.id st) (hq : q ∈ s.world.backend.db.objects) :
    noteVerdict s r q.id = s.latest q.id := by
  unfold noteVerdict
  rw [if_neg (by simp [Table.find_of_mem hq])]
  split
  · rename_i now objectId st
    split
    · exact if_neg fun he => hr now st (by rw [he])
    · rfl
  · rfl

/-- A request that is no verdict neither makes a row clean nor forgets a verdict. -/
theorem Judged.Noted.serve_of_ne {s : Judged} (hw : WorldInv env s.world) (hs : s.Noted)
    {r : Request} (hr : ∀ now id st, r ≠ .scanResult now id st) : (serveJudged env s r).Noted := by
  intro o ho hclean
  have hbefore : ∃ q ∈ s.world.backend.db.objects, q.id = o.id ∧ q.scanStatus = .clean := by
    refine (movesTo_serve hw r).preserves (I := fun h => ∀ o ∈ h.objects, o.scanStatus = .clean →
      ∃ q ∈ s.world.backend.db.objects, q.id = o.id ∧ q.scanStatus = .clean) ?_
      (fun q hq hc => ⟨q, hq, rfl, hc⟩) o ho hclean
    intro m h h' hcause hm ih q hq hc
    obtain ⟨p, hp, hid, hpc⟩ := hm.clean_before (by
      rintro p p' rfl
      obtain ⟨now, st, rfl, -⟩ := hcause
      exact hr now p.id st rfl) hq hc
    obtain ⟨p', hp', hid', hpc'⟩ := ih p hp hpc
    exact ⟨p', hp', hid'.trans hid, hpc'⟩
  obtain ⟨q, hq, hid, hqc⟩ := hbefore
  change noteVerdict s r o.id = some .clean
  rw [← hid, noteVerdict_of_ne (fun now st => hr now q.id st) hq]
  exact hs q hq hqc

/-- A verdict is noted on its object and on no other. -/
theorem Judged.Noted.serve_scanResult {s : Judged} (hs : s.Noted)
    (now : Timestamp) (id : UUID) (st : ScanStatus) :
    (serveJudged env s (.scanResult now id st)).Noted := by
  intro o ho hclean
  change noteVerdict s (.scanResult now id st) o.id = some .clean
  change o ∈ (serve env s.world (.scanResult now id st)).backend.db.objects at ho
  rw [serve_backend] at ho
  cases h : applyScanResult s.world.backend.db now id st with
  | error e =>
    simp only [answer, h] at ho
    unfold noteVerdict
    rw [if_neg (by simp [Table.find_of_mem (show o ∈ s.world.backend.db.objects from ho)])]
    simp only [h]
    exact hs o ho hclean
  | ok res =>
    obtain ⟨db', q'⟩ := res
    obtain ⟨q, hq, rfl, hor, outbox, rfl⟩ := applyScanResult_ok h
    simp only [answer, h] at ho
    have hid : q'.id = q.id := by rcases hor with ⟨-, rfl⟩ | ⟨-, rfl⟩ <;> rfl
    have ho : o ∈ s.world.backend.db.objects.update q' := ho
    rcases (Table.mem_update (by rw [hid]; exact Table.find_of_mem hq)).mp ho with rfl | ⟨hmem, hne⟩
    · have hst : st = .clean := by
        rcases hor with ⟨rfl, -⟩ | ⟨-, rfl⟩
        · rfl
        · cases hclean
      unfold noteVerdict
      rw [hid, if_neg (by simp [Table.find_of_mem hq])]
      simp only [h, if_true]
      rw [hst]
    · rw [noteVerdict_of_ne ?_ hmem]
      · exact hs o hmem hclean
      · rintro now' st' he
        simp only [Request.scanResult.injEq] at he
        exact hne (he.2.1.symm.trans hid.symm)

theorem Judged.Noted.serve {s : Judged} (hw : WorldInv env s.world) (hs : s.Noted) (r : Request) :
    (serveJudged env s r).Noted := by
  by_cases hr : ∃ now id st, r = .scanResult now id st
  · obtain ⟨now, id, st, rfl⟩ := hr
    exact hs.serve_scanResult now id st
  · exact hs.serve_of_ne hw fun now id st he => hr ⟨now, id, st, he⟩

/-! ### Runs -/

theorem noted_run (env : Env) (rs : List Request) :
    (run (serveJudged env) Judged.initial rs).Noted :=
  (always_of_inv (I := fun s : Judged => WorldInv env s.world ∧ s.Noted)
    (fun _ r h => ⟨h.1.serve r, h.2.serve h.1 r⟩)
    ⟨worldInv_initial env, fun o ho => absurd ho (Table.not_mem_empty o)⟩ rs).last.2

/-- Without a verdict on it, an object keeps having none. -/
theorem latest_run_of_unjudged {s : Judged} {id : UUID} {rs : List Request}
    (hs : s.latest id = none) (hrs : ∀ r ∈ rs, ∀ now st, r ≠ .scanResult now id st) :
    (run (serveJudged env) s rs).latest id = none := by
  induction rs generalizing s with
  | nil => exact hs
  | cons r rs ih =>
    refine ih ?_ fun r' hr' => hrs r' (List.mem_cons_of_mem r hr')
    change noteVerdict s r id = none
    unfold noteVerdict
    split
    · rfl
    · split
      · rename_i now objectId st
        split
        · rw [if_neg (fun he => hrs _ List.mem_cons_self now st (by rw [he])), hs]
        · exact hs
      · exact hs

/-- In every run, what passes a gate is live and its last verdict was clean; and
an object that a request creates stays closed until a verdict on it. -/
theorem scanGate_of_run (env : Env) :
    (∀ rs, ScanGate env (run (serveJudged env) Judged.initial rs)) ∧
    ∀ (rs : List Request) (r : Request) (rs' : List Request) (id : UUID),
      (run (serve env) World.initial rs).backend.db.objects.find id = none →
      (∀ r' ∈ rs', ∀ now st, r' ≠ .scanResult now id st) →
      ¬ (run (serveJudged env) Judged.initial (rs ++ r :: rs')).Opens id := by
  refine ⟨fun rs => (noted_run env rs).scanGate, ?_⟩
  rintro rs r rs' id hnone hrs' ⟨-, -, -, -, hclean⟩
  have hnew : noteVerdict (run (serveJudged env) Judged.initial rs) r id = none := by
    refine if_pos ?_
    rw [run_serveJudged_world]
    exact hnone
  rw [run_append, run_cons, latest_run_of_unjudged hnew hrs'] at hclean
  cases hclean

end MediaService
