import MediaService.Lifecycle.Service
import MediaService.Scenario

/-! World-readable variants. A variant of an object that is soft-deleted or not
`PUBLIC` has no business in the public bucket. The bucket of a variant is fixed
when its job is created, and relocation moves the original alone; so this holds
throughout a run exactly if nothing hides an object that has a variant there,
and nothing registers a variant there for an object that is hidden. -/

namespace MediaService

open Foundation

/-- Soft-deleted, or not for everyone. -/
def MediaObject.Hidden (o : MediaObject) : Prop := o.deletedAt.isSome ∨ o.visibility ≠ .public

/-- No variant of the object is in the public bucket. -/
def NonePublic (settings : Settings) (variants : Table MediaVariant.id) (objectId : UUID) : Prop :=
  ∀ v ∈ variants, v.mediaObjectId = objectId → v.storageBucket ≠ settings.s3BucketPublic

/-- No hidden object has a variant in the public bucket. -/
def NoLeftovers (settings : Settings) (objects : Table MediaObject.id)
    (variants : Table MediaVariant.id) : Prop :=
  ∀ o ∈ objects, o.Hidden → NonePublic settings variants o.id

variable {env : Env} {settings : Settings} {objects : Table MediaObject.id}
  {variants : Table MediaVariant.id}

/-! ### Writes -/

/-- Rewriting a row is safe unless it hides an object with a public variant. -/
theorem NoLeftovers.update (h : NoLeftovers settings objects variants) {o o' : MediaObject}
    (ho : o ∈ objects) (hid : o'.id = o.id)
    (hhide : o'.Hidden → o.Hidden ∨ NonePublic settings variants o.id) :
    NoLeftovers settings (objects.update o') variants := by
  intro q hq hhidden
  rcases (Table.mem_update (by rw [hid, Table.find_of_mem ho])).mp hq with rfl | ⟨hq, -⟩
  · rw [hid]
    rcases hhide hhidden with ho' | hnone
    · exact h o ho ho'
    · exact hnone
  · exact h q hq hhidden

/-- After a rewrite, what is hidden has nothing public. -/
theorem NoLeftovers.of_update {o o' : MediaObject} (ho : o ∈ objects) (hid : o'.id = o.id)
    (h : NoLeftovers settings (objects.update o') variants) (hhidden : o'.Hidden) :
    NonePublic settings variants o.id := by
  have hfind : objects.find o'.id = some o := by rw [hid]; exact Table.find_of_mem ho
  rw [← hid]
  exact h o' (Table.mem_of_find (Table.find_update_self hfind)) hhidden

/-- A move that neither patches, deletes nor registers exposes nothing. -/
theorem NoLeftovers.move {m : Move} {h h' : Holdings} (hk : WellKept env h)
    (hl : NoLeftovers settings h.objects h.variants) (hm : Moves env m h h')
    (hpatch : ∀ o o', m = .patched o o' → o'.visibility = o.visibility)
    (hdel : ∀ o o', m ≠ .softDeleted o o') (hreg : ∀ v, m ≠ .registered v) :
    NoLeftovers settings h'.objects h'.variants := by
  have hmv := hm
  have hinsert : ∀ {o : MediaObject} {t : Table MediaObject.id}, h.objects.insert o = some t →
      NoLeftovers settings t h.variants := by
    intro o t ht q hq hhidden v hv hid
    rcases (Table.mem_insert ht).mp hq with hq | rfl
    · exact hl q hq hhidden v hv hid
    · obtain ⟨p, hp, hpid⟩ := hk.variant_object v hv
      exact absurd (hpid.trans hid) (Table.find_eq_none.mp (Table.find_none_of_insert ht) p hp)
  cases hm with
  | promoted _ _ _ _ ht => exact hinsert ht
  | rejected _ _ _ ht => exact hinsert ht
  | judged ho hor =>
    refine hl.update ho hmv.same_of_judged.2.id_eq fun hh => .inl ?_
    rcases hor with rfl | rfl <;> exact hh
  | patched _ _ _ _ =>
    obtain ⟨ho, hs⟩ := hmv.same_of_patched
    refine hl.update ho hs.id_eq fun hh => .inl ?_
    rwa [MediaObject.Hidden, hs.deletedAt_eq, hpatch _ _ rfl] at hh
  | softDeleted _ _ _ => exact absurd rfl (hdel _ _)
  | purged _ =>
    exact fun o ho hh v hv => hl o (Table.mem_erase.mp ho).1 hh v (Table.mem_filter.mp hv).1
  | registered _ _ _ => exact absurd rfl (hreg _)
  | unregistered => exact fun o ho hh v hv => hl o ho hh v (Table.mem_erase.mp hv).1
  | _ => exact hl

/-! ### Runs -/

/-- No accepted patch or delete hides an object that has a variant in the public
bucket, and no accepted registration puts one there for a hidden object. -/
def KeepsCovered (env : Env) (w : World) : Request → Prop
  | .update faults commitFails now user objectId body =>
    (updateObject env w.backend faults commitFails now user objectId body).2.isOk →
      ∀ o ∈ w.backend.db.objects, o.id = objectId →
        body.visibility.join.getD o.visibility ≠ .public →
          NonePublic env.settings w.backend.db.variants objectId
  | .delete _ commitFails _ user objectId => commitFails = false →
    ∀ o, loadObject w.backend.db user objectId true = .ok o → o.deletedAt = none →
      NonePublic env.settings w.backend.db.variants objectId
  | .registerVariant now freshId objectId body => w.maySend objectId body = true →
    (registerVariant w.backend.db now freshId objectId body).isOk →
      body.storageBucket = env.settings.s3BucketPublic →
        ∀ o ∈ w.backend.db.objects, o.id = objectId → ¬ o.Hidden
  | _ => True

/-- The visibility an accepted body leaves. -/
theorem visibility_of_validated {body u : MediaObjectUpdate} {v v' : MediaVisibility}
    (hu : body.validated env = some u) (hv : u.visibility.getD (some v) = some v') :
    v' = body.visibility.join.getD v := by
  obtain ⟨name, rfl, -⟩ := MediaObjectUpdate.eq_of_validated hu
  dsimp only at hv
  rcases hb : body.visibility with _ | _ | x <;> simp [hb] at hv ⊢ <;> exact hv.symm

/-- What an update does to the rows: nothing, or the patch it was sent. -/
theorem updateObject_rows (env : Env) (b : Backend) (faults : Faults) (commitFails : Bool)
    (now : Timestamp) (user : UserModel) (objectId : UUID) (body : MediaObjectUpdate) :
    (∃ e, (updateObject env b faults commitFails now user objectId body).2 = .error e ∧
      (updateObject env b faults commitFails now user objectId body).1.db = b.db) ∨
    ∃ o ∈ b.db.objects, ∃ o', o.id = objectId ∧ o'.id = o.id ∧ o'.deletedAt = none ∧
      o.deletedAt = none ∧ o'.visibility = body.visibility.join.getD o.visibility ∧
      (updateObject env b faults commitFails now user objectId body).2 = .ok o' ∧
      ∃ links, (updateObject env b faults commitFails now user objectId body).1.db =
        { b.db with objects := b.db.objects.update o', links := links } := by
  rcases updateObject_cases env b faults commitFails now user objectId body with
    ⟨e, st, he, -⟩ | ⟨u, o, st, bucket, categories, db', o', hu, hload, -, -, hpatch, he⟩
  · exact .inl ⟨e, by rw [he], by rw [he]⟩
  · right
    obtain ⟨ho, hid, hlive, -⟩ := loadObject_ok hload
    obtain ⟨⟨v, c, hv, ho'⟩, links, rfl⟩ := patchedDatabase_ok hpatch
    have hvis : o'.visibility = v := by rw [ho']
    refine ⟨o, ho, o', hid, by rw [ho'], by rw [ho']; exact hlive rfl, hlive rfl, ?_, by rw [he],
      links, by rw [he]⟩
    rw [hvis]
    exact visibility_of_validated hu hv

section Step

variable {w : World}

theorem noLeftovers_update_iff (hl : NoLeftovers env.settings w.backend.db.objects
      w.backend.db.variants) (faults : Faults) (commitFails : Bool) (now : Timestamp)
    (user : UserModel) (objectId : UUID) (body : MediaObjectUpdate) :
    NoLeftovers env.settings
        (updateObject env w.backend faults commitFails now user objectId body).1.db.objects
        (updateObject env w.backend faults commitFails now user objectId body).1.db.variants ↔
      KeepsCovered env w (.update faults commitFails now user objectId body) := by
  dsimp only [KeepsCovered]
  rcases updateObject_rows env w.backend faults commitFails now user objectId body with
    ⟨e, he, hdb⟩ | ⟨o, ho, o', hid, hid', hlive', hlive, hvis, hok, links, hdb⟩
  · rw [hdb, he]
    exact ⟨fun _ h => (by cases h), fun _ => hl⟩
  · rw [hdb, hok]
    have hhidden : o'.Hidden ↔ o'.visibility ≠ .public := by simp [MediaObject.Hidden, hlive']
    constructor
    · intro h _ q hq hqid hv
      obtain rfl := Table.eq_of_key_eq hq ho (hqid.trans hid.symm)
      rw [← hid]
      exact h.of_update ho hid' (hhidden.mpr (by rw [hvis]; exact hv))
    · intro h
      refine hl.update ho hid' fun hh => .inr ?_
      rw [hid]
      exact h rfl o ho hid (by rw [← hvis]; exact hhidden.mp hh)

theorem noLeftovers_delete_iff (hw : WorldInv env w) (hl : NoLeftovers env.settings
      w.backend.db.objects w.backend.db.variants) (faults : Faults) (commitFails : Bool)
    (now : Timestamp) (user : UserModel) (objectId : UUID) :
    NoLeftovers env.settings
        (deleteObject env w.backend faults commitFails now user objectId).1.db.objects
        (deleteObject env w.backend faults commitFails now user objectId).1.db.variants ↔
      KeepsCovered env w (.delete faults commitFails now user objectId) := by
  dsimp only [KeepsCovered]
  constructor
  · rintro h rfl o hload hlive
    obtain ⟨bucket, db', hcommit, hdb⟩ := deleteObject_effective hw.kept faults now hload hlive
    obtain ⟨outbox, rfl⟩ := softDeletedDatabase_ok hcommit
    obtain ⟨ho, hid, -, -⟩ := loadObject_ok hload
    rw [hdb] at h
    have h : NoLeftovers env.settings (w.backend.db.objects.update _) w.backend.db.variants := h
    rw [← hid]
    refine h.of_update ho ?_ ?_
    · rfl
    · exact .inl rfl
  · intro h
    rcases deleteObject_cases env w.backend faults commitFails now user objectId with
      he | ⟨o, st, bucket, hload, hlive, -, ⟨e, he⟩ | ⟨db', hfails, hcommit, he⟩⟩
    · rw [he]
      exact hl
    · rw [he]
      exact hl
    · obtain ⟨outbox, rfl⟩ := softDeletedDatabase_ok hcommit
      obtain ⟨ho, hid, -, -⟩ := loadObject_ok hload
      rw [he]
      refine hl.update ho rfl fun _ => .inr ?_
      rw [hid]
      exact h hfails o hload hlive

theorem noLeftovers_register_iff (hl : NoLeftovers env.settings
      w.backend.db.objects w.backend.db.variants) (now : Timestamp) (freshId objectId : UUID)
    (body : VariantRegisterRequest) :
    NoLeftovers env.settings
        (answer env w (.registerVariant now freshId objectId body)).db.objects
        (answer env w (.registerVariant now freshId objectId body)).db.variants ↔
      KeepsCovered env w (.registerVariant now freshId objectId body) := by
  dsimp only [KeepsCovered, answer]
  cases hsend : w.maySend objectId body with
  | false => simpa using hl
  | true =>
    cases hreg : registerVariant w.backend.db now freshId objectId body with
    | error e => simpa [Backend.withDb, Except.map, Except.isOk, Except.toBool] using hl
    | ok res =>
      obtain ⟨db', v⟩ := res
      obtain ⟨hid, hloc, -, t, outbox, ht, rfl⟩ := registerVariant_ok hreg
      have hbucket : v.storageBucket = body.storageBucket := congrArg Location.bucket hloc
      simp only [Backend.withDb, Except.map, if_true]
      constructor
      · rintro h - - hpublic o ho rfl hh
        exact h o ho hh v ((ht v).mpr (.inl rfl)) hid (hbucket.trans hpublic)
      · intro h o ho hh q hq hqid
        rcases (ht q).mp hq with rfl | ⟨hq, -⟩
        · intro hpublic
          exact h trivial rfl (hbucket ▸ hpublic) o ho (hqid.symm.trans hid) hh
        · exact hl o ho hh q hq hqid

theorem noLeftovers_serve_iff (hw : WorldInv env w) (hl : NoLeftovers env.settings
      w.backend.db.objects w.backend.db.variants) (r : Request) :
    NoLeftovers env.settings (serve env w r).backend.db.objects
      (serve env w r).backend.db.variants ↔ KeepsCovered env w r := by
  have hother : (∀ o o', (Move.patched o o').CausedBy env w r → o'.visibility = o.visibility) →
      (∀ o o', ¬ (Move.softDeleted o o').CausedBy env w r) →
      (∀ v, ¬ (Move.registered v).CausedBy env w r) →
      NoLeftovers env.settings (serve env w r).backend.db.objects
        (serve env w r).backend.db.variants := by
    intro hpatch hdel hreg
    have hmoves := movesTo_serve hw r
    have hboth := hmoves.preserves
      (I := fun h => WellKept env h ∧ NoLeftovers env.settings h.objects h.variants)
      (fun m h h' hc hm ⟨hk, hl⟩ => ⟨hk.move hm, hl.move hk hm
        (fun o o' he => hpatch o o' (he ▸ hc)) (fun o o' he => hdel o o' (he ▸ hc))
        (fun v he => hreg v (he ▸ hc))⟩) ⟨hw.kept, hl⟩
    exact hboth.2
  have hcalm : (∀ faults commitFails now user objectId body,
        r ≠ .update faults commitFails now user objectId body) →
      (∀ faults commitFails now user objectId, r ≠ .delete faults commitFails now user objectId) →
      (∀ now freshId objectId body, r ≠ .registerVariant now freshId objectId body) →
      NoLeftovers env.settings (serve env w r).backend.db.objects
        (serve env w r).backend.db.variants := by
    intro hupd hdel hreg
    refine hother ?_ ?_ ?_
    · rintro o o' (hv | ⟨faults, commitFails, now, user, body, hr, -⟩)
      · exact hv
      · exact absurd hr (hupd _ _ _ _ _ _)
    · rintro o o' ⟨faults, now, user, hr, -⟩
      exact hdel _ _ _ _ _ hr
    · rintro v ⟨now, freshId, body, hr, -⟩
      exact hreg _ _ _ _ hr
  cases r with
  | update faults commitFails now user objectId body =>
    rw [serve_backend]
    exact noLeftovers_update_iff hl faults commitFails now user objectId body
  | delete faults commitFails now user objectId =>
    rw [serve_backend]
    exact noLeftovers_delete_iff hw hl faults commitFails now user objectId
  | registerVariant now freshId objectId body =>
    rw [serve_backend]
    exact noLeftovers_register_iff hl now freshId objectId body
  | _ => exact iff_of_true (hcalm (by simp) (by simp) (by simp)) trivial

end Step

/-- No hidden object has a variant in the public bucket, in any state of a run,
exactly if no request of the run hides an object that has one there and none
registers one there for an object that is hidden. -/
theorem noLeftovers_iff (env : Env) (rs : List Request) :
    Always (serve env) (fun w => NoLeftovers env.settings w.backend.db.objects
        w.backend.db.variants) World.initial rs ↔
      Guarded (serve env) (KeepsCovered env) World.initial rs := by
  refine always_iff_guarded (I := WorldInv env) (A := fun _ _ => True)
    (fun _ r hw _ _ _ => hw.serve r) (fun w r hw hl _ => noLeftovers_serve_iff hw hl r)
    (worldInv_initial env) ?_ (guarded_of_forall (fun _ _ _ => trivial) _)
  exact fun o ho => absurd ho (Table.not_mem_empty o)

/-- A public image gets its thumbnail and is then made private. -/
def hiddenAfterThumbnail : List Request :=
  cleanUploadRequests Env.default 0 ⟨2⟩ (.ordinary 1) .public pngSignature ++
    [.generate 1 ⟨3⟩ (.ordinary 1) ⟨2⟩ thumbRequest,
      .registerVariant 2 ⟨4⟩ ⟨2⟩ (thumbRegistration "public-media" (by decide)),
      .update Faults.none false 3 (.ordinary 1) ⟨2⟩ ⟨some (some .private), none, none, none⟩]

theorem not_noLeftovers : ¬ Always (serve Env.default)
    (fun w => NoLeftovers Env.default.settings w.backend.db.objects w.backend.db.variants)
    World.initial hiddenAfterThumbnail := by
  intro h
  have hleft : ∃ o ∈ (run (serve Env.default) World.initial
      hiddenAfterThumbnail).backend.db.objects.rows, o.visibility ≠ .public ∧
      ∃ v ∈ (run (serve Env.default) World.initial
        hiddenAfterThumbnail).backend.db.variants.rows, v.mediaObjectId = o.id ∧
        v.storageBucket = Env.default.settings.s3BucketPublic := by decide +kernel
  obtain ⟨o, ho, hv, v, hmem, hid, hbucket⟩ := hleft
  exact h.last o ho (.inr hv) v hmem hid hbucket

end MediaService
