import MediaService.Lifecycle.Service
import MediaService.Scenario

/-! Served bytes. A completion checks an object's bytes and a clean verdict
releases them, but the form they were posted through takes posts until it
expires. What a download, a share or an archive payload hands out is what was
checked, throughout a run, exactly if no clean verdict finds other bytes than the
completion verified, and no post replaces the bytes of an object in service. -/

namespace MediaService

open Foundation

/-! ### What is handed out -/

/-- The bytes at a location are those a completion verified for the object, and
those its last clean verdict was about. -/
def World.Checked (w : World) (id : UUID) (l : Location) : Prop :=
  ∃ c, w.backend.storage.content l = some c ∧ w.verified id = some c ∧ w.cleared id = some c

/-- Whatever the service hands out, to whomever and whenever, is checked. -/
structure ServesChecked (env : Env) (w : World) : Prop where
  download : ∀ now user id url, downloadUrl env.settings w.backend.db now user id = .ok url →
    w.Checked id url.location
  share : ∀ now tokenId db url, resolveShare env.settings w.backend.db now tokenId = .ok (db, url) →
    ∃ share, w.backend.db.shares.find tokenId = some share ∧
      w.Checked share.mediaObjectId url.location
  archive : ∀ now jobId user filters db job,
    startArchiveExport env w.backend.db now jobId user filters = .ok (db, job) →
    ∀ e ∈ job.objects, w.Checked e.objectId e.source

/-- The bytes of every object in service are checked. -/
def InServiceChecked (w : World) : Prop :=
  ∀ o ∈ w.backend.db.objects, o.InService → w.Checked o.id o.location

variable {env : Env} {w : World} {r : Request}

/-- Its owner can always download an object in service. -/
theorem downloadUrl_owner {settings : Settings} {db : Database} {o : MediaObject}
    (ho : o ∈ db.objects) (hs : o.InService) (now : Timestamp) :
    downloadUrl settings db now (some ⟨o.ownerUserId, false, o.tenantId⟩) o.id =
      .ok (objectUrl settings o now) :=
  downloadUrl_eq_ok.mpr ⟨o, ho, rfl, hs, .inr ⟨_, rfl, .inr (.inl rfl)⟩, rfl⟩

/-- The three ways of handing out bytes reach exactly the objects in service. -/
theorem servesChecked_iff : ServesChecked env w ↔ InServiceChecked w := by
  constructor
  · intro h o ho hs
    exact h.download 0 _ _ _ (downloadUrl_owner ho hs 0)
  · intro h
    refine ⟨?_, ?_, ?_⟩
    · intro now user id url hurl
      obtain ⟨o, ho, rfl, hs, -, rfl⟩ := downloadUrl_eq_ok.mp hurl
      exact h o ho hs
    · intro now tokenId db url hurl
      obtain ⟨-, share, o, hshare, ho, hid, hs, rfl⟩ := resolveShare_ok hurl
      exact ⟨share, hshare, hid ▸ h o ho hs⟩
    · intro now jobId user filters db job hjob e he
      obtain ⟨-, hobjects, -⟩ := startArchiveExport_ok hjob
      obtain ⟨o, ho, hs, rfl⟩ := hobjects e he
      exact h o ho hs

/-! ### Moves -/

/-- Every object in service is promoted, with the given bytes. -/
def Holdings.Serves (good : UUID → Option Bytes) (h : Holdings) : Prop :=
  ∀ o ∈ h.objects, o.InService → h.Promoted o.id ∧ (good o.id).isSome ∧
    h.content o.location = good o.id

/-- Verdicts and posts apart, no move brings an object into service or touches
the bytes of one. -/
theorem Holdings.Serves.move {good : UUID → Option Bytes} {m : Move} {h h' : Holdings}
    (hs : h.Serves good) (hm : Moves env m h h') (hj : ∀ o o', m ≠ .judged o o')
    (hp : ∀ l c, m ≠ .posted l c) : h'.Serves good := by
  have hkeep : ∀ q ∈ h.objects, q.InService → h'.content q.location = h.content q.location →
      h'.Promoted q.id ∧ (good q.id).isSome ∧ h'.content q.location = good q.id := by
    intro q hq hi hc
    obtain ⟨hpr, hgood, hbytes⟩ := hs q hq hi
    exact ⟨hm.promoted_mono hpr, hgood, hc.trans hbytes⟩
  have hpromote := fun {q : UUID} (hq : h.Promoted q) => hm.promoted_mono hq
  intro q hq hi
  cases hm with
  | promoted _ _ ho _ ht =>
    rcases (Table.mem_insert ht).mp hq with hq | rfl
    · exact hkeep q hq hi rfl
    · rw [ho] at hi
      cases hi.2
  | rejected _ _ ho ht =>
    rcases (Table.mem_insert ht).mp hq with hq | rfl
    · exact hkeep q hq hi rfl
    · rw [ho] at hi
      cases hi.2
  | judged => exact absurd rfl (hj _ _)
  | @patched _ o o' _ _ _ _ _ ho hlive ho' hbytes =>
    have hid : o'.id = o.id := by rw [ho']
    rcases (Table.mem_update (by rw [hid, Table.find_of_mem ho])).mp hq with rfl | ⟨hq, -⟩
    · have hclean : o.scanStatus = .clean := by
        rw [ho'] at hi
        exact hi.2
      obtain ⟨hpr, hgood, hc⟩ := hs o ho ⟨hlive, hclean⟩
      rw [hid]
      exact ⟨hpromote hpr, hgood, hbytes.trans hc⟩
    · exact hkeep q hq hi rfl
  | @softDeleted _ o o' _ _ ho _ ho' =>
    have hid : o'.id = o.id := by rw [ho']
    rcases (Table.mem_update (by rw [hid, Table.find_of_mem ho])).mp hq with rfl | ⟨hq, -⟩
    · rw [ho'] at hi
      cases hi.1
    · exact hkeep q hq hi rfl
  | purged _ => exact hkeep q (Table.mem_erase.mp hq).1 hi rfl
  | posted => exact absurd rfl (hp _ _)
  | stored hfree => exact hkeep q hq hi (Function.update_of_ne (hfree q hq) _ _)
  | discarded hfree =>
    exact hkeep q hq hi (Function.update_of_ne (hfree q ⟨hq, hi.1, (hs q hq hi).1⟩) _ _)
  | _ => exact hkeep q hq hi rfl

/-! ### Steps -/

/-- Whatever has verified bytes is promoted. -/
def VerifiedPromoted (w : World) : Prop :=
  ∀ id, (w.verified id).isSome → w.backend.holdings.Promoted id

/-- A clean verdict on a live row finds the bytes its completion verified, and a
post at the location of an object in service repeats its bytes. -/
def KeepsChecked (w : World) : Request → Prop
  | .scanResult _ objectId .clean => ∀ o ∈ w.backend.db.objects, o.id = objectId →
      o.deletedAt = none → (w.verified o.id).isSome ∧
        w.backend.storage.content o.location = w.verified o.id
  | .post now form content => w.acceptsPost now form content = true →
      ∀ o ∈ w.backend.db.objects, o.InService → o.location = form.location →
        w.backend.storage.content o.location = some content
  | _ => True

theorem handOut_verified (w w' : World) (r : Request) :
    (handOut env w w' r).verified = w'.verified := by
  unfold handOut
  split
  · split <;> rfl
  · split <;> rfl
  · split <;> rfl
  · rfl
  · rfl

theorem serve_verified (id : UUID) : (serve env w r).verified id =
    if (answer env w r).isPromoted id ∧ !w.backend.isPromoted id then (answer env w r).bytesOf id
    else w.verified id := by
  rw [serve, handOut_verified]
  rfl

theorem handOut_cleared {w' : World} (hr : ∀ now id, r ≠ .scanResult now id .clean) :
    (handOut env w w' r).cleared = w'.cleared := by
  unfold handOut
  split
  · split <;> rfl
  · split <;> rfl
  · split <;> rfl
  · exact absurd rfl (hr _ _)
  · rfl

theorem serve_cleared (hr : ∀ now id, r ≠ .scanResult now id .clean) :
    (serve env w r).cleared = w.cleared :=
  handOut_cleared hr

theorem isPromoted_backend {b : Backend} {id : UUID} :
    b.isPromoted id = true ↔ b.holdings.Promoted id :=
  Holdings.isPromoted_iff (h := b.holdings)

/-- What was promoted before a step keeps its verified bytes. -/
theorem serve_verified_of_promoted {id : UUID} (hp : w.backend.holdings.Promoted id) :
    (serve env w r).verified id = w.verified id := by
  rw [serve_verified, if_neg]
  rintro ⟨-, h⟩
  simp [isPromoted_backend.mpr hp] at h

theorem VerifiedPromoted.serve (hw : WorldInv env w) (hv : VerifiedPromoted w) (r : Request) :
    VerifiedPromoted (serve env w r) := by
  intro id hid
  rw [serve_verified] at hid
  split at hid
  · rename_i h
    rw [serve_backend]
    exact isPromoted_backend.mp h.1
  · exact (movesTo_serve hw r).preserves (I := fun h => h.Promoted id)
      (fun m h h' _ hm hp => hm.promoted_mono hp) (hv id hid)

/-- The bytes on which a completion and the last clean verdict agree. -/
def World.agreed (w : World) (id : UUID) : Option Bytes :=
  if w.verified id = w.cleared id then w.verified id else none

theorem World.agreed_isSome {id : UUID} (h : (w.agreed id).isSome) :
    ∃ c, w.verified id = some c ∧ w.cleared id = some c := by
  unfold agreed at h
  split at h
  · rename_i he
    obtain ⟨c, hc⟩ := Option.isSome_iff_exists.mp h
    exact ⟨c, hc, he ▸ hc⟩
  · cases h

theorem World.checked_iff {id : UUID} {l : Location} :
    w.Checked id l ↔ (w.agreed id).isSome ∧ w.backend.storage.content l = w.agreed id := by
  constructor
  · rintro ⟨c, hc, hv, hcl⟩
    simp [agreed, hc, hv, hcl]
  · rintro ⟨hsome, hc⟩
    obtain ⟨c, hv, hcl⟩ := agreed_isSome hsome
    rw [agreed, hv, hcl, if_pos rfl] at hc
    exact ⟨c, hc, hv, hcl⟩

theorem inServiceChecked_iff_serves (hv : VerifiedPromoted w) :
    InServiceChecked w ↔ w.backend.holdings.Serves w.agreed := by
  refine forall₂_congr fun o ho => imp_congr_right fun hs => ?_
  rw [World.checked_iff]
  refine ⟨fun h => ⟨hv _ ?_, h⟩, And.right⟩
  obtain ⟨c, hc, -⟩ := World.agreed_isSome h.1
  rw [hc]
  rfl

/-- Neither a verdict nor a post: the objects in service keep their bytes. -/
theorem InServiceChecked.step (hw : WorldInv env w) (hv : VerifiedPromoted w)
    (h : InServiceChecked w) (hscan : ∀ now id st, r ≠ .scanResult now id st)
    (hpost : ∀ now form content, r ≠ .post now form content) :
    InServiceChecked (serve env w r) := by
  have hs : (serve env w r).backend.holdings.Serves w.agreed := by
    refine (movesTo_serve hw r).preserves (I := Holdings.Serves w.agreed) ?_
      ((inServiceChecked_iff_serves hv).mp h)
    intro m h h' hcause hm hs
    refine hs.move hm ?_ ?_
    · rintro o o' rfl
      obtain ⟨now, st, rfl, -⟩ := hcause
      exact hscan _ _ _ rfl
    · rintro l c rfl
      obtain ⟨now, form, rfl, -⟩ := hcause
      exact hpost _ _ _ rfl
  intro o ho hi
  obtain ⟨-, hsome, hc⟩ := hs o ho hi
  obtain ⟨c, hvc, hclc⟩ := World.agreed_isSome hsome
  refine ⟨c, ?_, ?_, ?_⟩
  · rw [World.agreed, hvc, hclc, if_pos rfl] at hc
    exact hc
  · rw [serve_verified_of_promoted (hv o.id (by rw [hvc]; rfl)), hvc]
  · rw [serve_cleared fun now id => hscan now id .clean, hclc]

/-! ### Posts -/

/-- A request that leaves the sessions alone promotes nothing. -/
theorem serve_verified_of_sessions
    (hs : (answer env w r).db.sessions = w.backend.db.sessions) :
    (serve env w r).verified = w.verified := by
  funext id
  have hp : (answer env w r).isPromoted id = w.backend.isPromoted id := by
    rw [Backend.isPromoted, hs]
    rfl
  rw [serve_verified, hp, if_neg]
  simp

theorem answer_post_db {now : Timestamp} {form : UploadForm} {content : Bytes} :
    (answer env w (.post now form content)).db = w.backend.db := by
  simp only [answer]
  split <;> rfl

/-- What was checked stays so through a post elsewhere, or of the same bytes. -/
theorem World.Checked.post_iff {now : Timestamp} {form : UploadForm} {content : Bytes} {id : UUID}
    {l : Location} (h : w.Checked id l) :
    (serve env w (.post now form content)).Checked id l ↔
      (w.acceptsPost now form content = true → l = form.location →
        w.backend.storage.content l = some content) := by
  obtain ⟨c, hc, hv, hcl⟩ := h
  have hver : (serve env w (.post now form content)).verified id = some c := by
    rw [serve_verified_of_sessions (congrArg Database.sessions answer_post_db), hv]
  have hclr : (serve env w (.post now form content)).cleared id = some c := by
    rw [serve_cleared (fun _ _ hne => by cases hne), hcl]
  have hagree : (serve env w (.post now form content)).Checked id l ↔
      (serve env w (.post now form content)).backend.storage.content l = some c := by
    refine ⟨?_, fun h => ⟨c, h, hver, hclr⟩⟩
    rintro ⟨c', h, hver', -⟩
    rw [h, ← hver', hver]
  rw [hagree, serve_backend]
  simp only [answer]
  split
  · rename_i hacc
    simp only [Backend.store, Storage.content_put, Function.update_apply, hacc, hc, true_implies]
    by_cases hl : l = form.location
    · simp [hl, eq_comm]
    · simp [hl]
  · rename_i hacc
    exact iff_of_true hc fun hacc' => absurd hacc' hacc

theorem inServiceChecked_post {now : Timestamp} {form : UploadForm} {content : Bytes}
    (h : InServiceChecked w) :
    InServiceChecked (serve env w (.post now form content)) ↔
      KeepsChecked w (.post now form content) := by
  unfold InServiceChecked KeepsChecked
  rw [serve_backend, answer_post_db]
  constructor
  · intro h' hacc o ho hi
    exact (h o ho hi).post_iff.mp (h' o ho hi) hacc
  · intro hk o ho hi
    exact (h o ho hi).post_iff.mpr fun hacc => hk hacc o ho hi

/-! ### Verdicts -/

variable {now : Timestamp} {id : UUID} {st : ScanStatus}

/-- A verdict leaves the bytes and the sessions, and rewrites the row it is
about. -/
theorem answer_scanResult (hw : WorldInv env w) (now : Timestamp) (st : ScanStatus)
    {o : MediaObject} (ho : o ∈ w.backend.db.objects) :
    ∃ o', o'.id = o.id ∧ o'.location = o.location ∧ o'.deletedAt = o.deletedAt ∧
      (o'.scanStatus = .clean ↔ st = .clean) ∧
      (answer env w (.scanResult now o.id st)).db.objects = w.backend.db.objects.update o' := by
  obtain ⟨db', o', h⟩ := applyScanResult_eq_ok hw.kept ho now st
  obtain ⟨q, hq, hid, hor, outbox, rfl⟩ := applyScanResult_ok h
  obtain rfl := Table.eq_of_key_eq hq ho hid
  have hdb : (answer env w (.scanResult now q.id st)).db.objects =
      w.backend.db.objects.update o' := by
    simp only [answer, h]
    rfl
  rcases hor with ⟨hst, ho'⟩ | ⟨hst, ho'⟩
  · exact ⟨o', by rw [ho'], by rw [ho']; rfl, by rw [ho'], by simp [ho', hst], hdb⟩
  · exact ⟨o', by rw [ho'], by rw [ho']; rfl, by rw [ho'], by simp [ho', hst], hdb⟩

theorem answer_scanResult_rest :
    (answer env w (.scanResult now id st)).storage = w.backend.storage ∧
      (answer env w (.scanResult now id st)).db.sessions = w.backend.db.sessions := by
  cases h : applyScanResult w.backend.db now id st with
  | error e =>
    simp only [answer, h]
    exact ⟨rfl, rfl⟩
  | ok res =>
    obtain ⟨db', o'⟩ := res
    obtain ⟨-, -, -, -, outbox, rfl⟩ := applyScanResult_ok h
    simp only [answer, h]
    exact ⟨rfl, rfl⟩

/-- A verdict on another object changes nothing about this one. -/
theorem World.checked_scanResult_ne {q : UUID} (hne : q ≠ id) (l : Location) :
    (serve env w (.scanResult now id st)).Checked q l ↔ w.Checked q l := by
  have hclr : (serve env w (.scanResult now id st)).cleared q = w.cleared q := by
    cases st with
    | clean => exact if_neg hne
    | _ => rfl
  unfold Checked
  rw [serve_verified_of_sessions answer_scanResult_rest.2, hclr, serve_backend,
    answer_scanResult_rest.1]

/-- A clean verdict leaves its object checked if the bytes it finds are the
verified ones. -/
theorem World.checked_scanResult {o : MediaObject} (ho : o ∈ w.backend.db.objects) :
    (serve env w (.scanResult now o.id .clean)).Checked o.id o.location ↔
      (w.verified o.id).isSome ∧ w.backend.storage.content o.location = w.verified o.id := by
  have hclr : (serve env w (.scanResult now o.id .clean)).cleared o.id =
      w.backend.storage.content o.location := by
    refine (if_pos rfl).trans ?_
    rw [Backend.bytesOf, Table.find_of_mem ho]
    rfl
  unfold Checked
  rw [serve_verified_of_sessions answer_scanResult_rest.2, hclr, serve_backend,
    answer_scanResult_rest.1]
  constructor
  · rintro ⟨c, hc, hv, -⟩
    exact ⟨by rw [hv]; rfl, hc.trans hv.symm⟩
  · rintro ⟨hsome, hc⟩
    obtain ⟨c, hv⟩ := Option.isSome_iff_exists.mp hsome
    exact ⟨c, hc.trans hv, hv, hc.trans hv⟩

theorem inServiceChecked_scanResult (hw : WorldInv env w) (h : InServiceChecked w) :
    InServiceChecked (serve env w (.scanResult now id st)) ↔
      KeepsChecked w (.scanResult now id st) := by
  by_cases hex : ∃ o ∈ w.backend.db.objects, o.id = id
  · obtain ⟨o, ho, rfl⟩ := hex
    obtain ⟨o', hid, hloc, hdel, hclean, hdb⟩ := answer_scanResult hw now st ho
    have hmem := fun q => Table.mem_update (q := q)
      (by rw [hid]; exact Table.find_of_mem ho : w.backend.db.objects.find o'.id = some o)
    have honly : InServiceChecked (serve env w (.scanResult now o.id st)) ↔ (o'.InService →
        (serve env w (.scanResult now o.id st)).Checked o.id o.location) := by
      unfold InServiceChecked
      rw [serve_backend, hdb]
      constructor
      · intro h' hi
        have hchecked := h' o' ((hmem o').mpr (.inl rfl)) hi
        rwa [hid, hloc] at hchecked
      · intro h' q hq hi
        rcases (hmem q).mp hq with rfl | ⟨hq, hne⟩
        · rw [hid, hloc]
          exact h' hi
        · exact (World.checked_scanResult_ne (hid ▸ hne) _).mpr (h q hq hi)
    rw [honly, MediaObject.InService, hclean, hdel]
    cases st with
    | clean =>
      simp only [KeepsChecked, and_true, World.checked_scanResult ho]
      refine ⟨fun h' q hq hqid hlive => ?_, fun h' hlive => h' o ho rfl hlive⟩
      obtain rfl := Table.eq_of_key_eq hq ho hqid
      exact h' hlive
    | _ => simp [KeepsChecked]
  · have hne : ∀ q ∈ w.backend.db.objects, q.id ≠ id := fun q hq he => hex ⟨q, hq, he⟩
    have hdb : (answer env w (.scanResult now id st)).db.objects = w.backend.db.objects := by
      cases hres : applyScanResult w.backend.db now id st with
      | error e =>
        simp only [answer, hres]
        rfl
      | ok res =>
        obtain ⟨o, ho, he, -⟩ := applyScanResult_ok hres
        exact absurd he (hne o ho)
    refine iff_of_true ?_ ?_
    · intro q hq hi
      rw [serve_backend, hdb] at hq
      exact (World.checked_scanResult_ne (hne q hq) _).mpr (h q hq hi)
    · cases st with
      | clean => exact fun q hq he => absurd he (hne q hq)
      | _ => trivial

/-! ### Runs -/

/-- Throughout a run, whatever is handed out has the bytes its completion
verified and its last clean verdict was about, if and only if every clean verdict
of the run on a live row finds the verified bytes, and no post changes the bytes
of an object in service. -/
theorem servesChecked_run_iff (env : Env) (rs : List Request) :
    Always (serve env) (ServesChecked env) World.initial rs ↔
      Guarded (serve env) KeepsChecked World.initial rs := by
  refine always_iff_guarded (I := fun w => WorldInv env w ∧ VerifiedPromoted w)
    (A := fun _ _ => True) (fun w r hw _ _ _ => ⟨hw.1.serve r, hw.2.serve hw.1 r⟩)
    (fun w r hw hP _ => ?_) ⟨worldInv_initial env, fun _ h => by cases h⟩ ?_
    (guarded_of_forall (fun _ _ _ => trivial) _)
  · rw [servesChecked_iff] at hP ⊢
    cases r with
    | post now form content => exact inServiceChecked_post hP
    | scanResult now id st => exact inServiceChecked_scanResult hw.1 hP
    | _ =>
      refine iff_of_true (hP.step hw.1 hw.2 ?_ ?_) trivial
      · exact fun _ _ _ he => by cases he
      · exact fun _ _ _ he => by cases he
  · exact servesChecked_iff.mpr fun o ho => absurd ho (Table.not_mem_empty o)

/-- A clean upload, and a second post through its form before that expires. -/
def postedAgain : List Request :=
  cleanUploadRequests Env.default 0 ⟨2⟩ (.ordinary 1) .private pngSignature ++
    [.post 1 (signedForm Env.default 0 ⟨2⟩ (.ordinary 1) (pngUpload .private)) [0]]

theorem not_servesChecked :
    ¬ Always (serve Env.default) (ServesChecked Env.default) World.initial postedAgain := by
  intro h
  have hrow : ∃ o ∈ (run (serve Env.default) World.initial postedAgain).backend.db.objects,
      o.InService ∧ (run (serve Env.default) World.initial postedAgain).verified o.id ≠
        (run (serve Env.default) World.initial postedAgain).backend.storage.content o.location := by
    decide +kernel
  obtain ⟨o, ho, hi, hne⟩ := hrow
  obtain ⟨c, hc, hv, -⟩ := servesChecked_iff.mp h.last o ho hi
  exact hne (hv.trans hc.symm)

end MediaService
