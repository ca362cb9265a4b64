import MediaService.Lifecycle.Service
import MediaService.Scenario

/-! Bytes of closed sessions. Rejecting, aborting and purging a session each
remove its bytes; a completion that comes too late marks the session expired and
does not. So nothing is stored for an aborted or expired session, throughout a
run of uploads whose removals succeed, exactly if no late completion finds bytes
at an initiated session's location. -/

namespace MediaService

open Foundation

/-- Closed without an object. -/
def UploadSession.WasDropped (s : UploadSession) : Prop :=
  s.status = .aborted ∨ s.status = .expired

instance (s : UploadSession) : Decidable s.WasDropped := by
  unfold UploadSession.WasDropped
  infer_instance

/-- Nothing is stored for a session that was closed without its object. -/
def NothingLeft (b : Backend) : Prop :=
  ∀ s ∈ b.db.sessions, s.WasDropped → b.storage.content s.location = none

instance (b : Backend) : Decidable (NothingLeft b) := by
  unfold NothingLeft
  infer_instance

/-- Storage removes any session's bytes when asked. -/
def RemovalsSucceed (b : Backend) (faults : Faults) : Prop :=
  ∀ s ∈ b.db.sessions, faults .remove s.location = false

/-! ### What closing a session leaves behind -/

variable {env : Env} {b b' : Backend}

theorem Storage.content_removed {st : Storage} {faults : Faults} {l : Location}
    (hf : faults .remove l = false) : (st.bestEffortRemove faults l).content l = none := by
  rw [content_bestEffortRemove, if_pos ⟨hf, rfl⟩]

theorem Storage.content_remove_none {st : Storage} {l : Location} (faults : Faults) (r : Location)
    (hl : st.content l = none) : (st.bestEffortRemove faults r).content l = none := by
  rw [content_bestEffortRemove, hl, ite_self]

/-- A session written over in place, while no bytes appear anywhere: what is
owed is only that the session itself, if dropped, leaves nothing. -/
theorem NothingLeft.update {s r : UploadSession} (hb : NothingLeft b)
    (hs : b.db.sessions.find s.id = some s) (hid : r.id = s.id)
    (hsess : b'.db.sessions = b.db.sessions.update r)
    (hbytes : ∀ l, b.storage.content l = none → b'.storage.content l = none)
    (hr : r.WasDropped → b'.storage.content r.location = none) : NothingLeft b' := by
  intro q hq hst
  rw [hsess] at hq
  rcases (Table.mem_update (by rw [hid, hs])).mp hq with rfl | ⟨hq, -⟩
  · exact hr hst
  · exact hbytes _ (hb q hq hst)

theorem NothingLeft.of_eq (hb : NothingLeft b) (hsess : b'.db.sessions = b.db.sessions)
    (hbytes : b'.storage.content = b.storage.content) : NothingLeft b' := by
  intro s hs
  rw [hsess] at hs
  rw [hbytes]
  exact hb s hs

variable {faults : Faults} (hremove : RemovalsSucceed b faults)

include hremove

theorem nothingLeft_rejectUpload {s : UploadSession} (hb : NothingLeft b)
    (hs : b.db.sessions.find s.id = some s) (usage : UsageTable) (now : Timestamp)
    (reason : UploadRejectReason) (size : ℕ) :
    NothingLeft (rejectUpload b usage faults now s reason size).1 := by
  unfold rejectUpload
  split
  · exact hb
  · rename_i db hins
    obtain ⟨-, t, -, rfl⟩ := Database.insertObject_ok hins
    refine hb.update (r := { s with status := .aborted }) hs rfl rfl ?_ ?_
    · exact fun l hl => Storage.content_remove_none faults s.location hl
    · exact fun _ => Storage.content_removed (hremove s (Table.mem_of_find hs))

theorem nothingLeft_completeSession {s : UploadSession} (hb : NothingLeft b)
    (hs : b.db.sessions.find s.id = some s) (now : Timestamp) (sha256 : Option String)
    (categories : List Category) :
    NothingLeft (completeSession env b faults now s sha256 categories).1 := by
  have hreject := fun reason size =>
    nothingLeft_rejectUpload hremove hb hs b.db.usage now reason size
  unfold completeSession
  split
  · exact hb
  · rename_i size hstat
    split
    · exact hreject _ _
    · dsimp only
      split
      · exact hreject _ _
      · split
        · exact hb
        · exact hreject _ _
        · split
          · exact hb
          · rename_i storage hct
            have hbytes := Storage.content_setObjectContentType hct
            have hb' : NothingLeft { b with storage := storage } := hb.of_eq rfl (funext hbytes)
            split
            · exact nothingLeft_rejectUpload (b := ⟨b.db, storage⟩) hremove hb' hs _ now _ size
            · unfold promoteUpload
              dsimp only
              split
              · exact hb'
              · rename_i db hins
                obtain ⟨-, t, -, rfl⟩ := Database.insertObject_ok hins
                exact hb'.update (r := { s with status := .completed, completedAt := some now })
                  hs rfl rfl (fun l hl => hl) (by rintro (h | h) <;> cases h)

theorem nothingLeft_abortUpload (hb : NothingLeft b) (user : UserModel) (sessionId : UUID) :
    NothingLeft (abortUpload b faults user sessionId).1 := by
  unfold abortUpload
  split
  · exact hb
  · rename_i s hload
    obtain ⟨hs, -, -⟩ := loadOwnedSession_ok hload
    split
    · exact hb
    · rename_i hnc
      dsimp only
      split
      · refine hb.update (r := { s with status := .aborted }) hs rfl rfl ?_ ?_
        · exact fun l hl => Storage.content_remove_none faults s.location hl
        · exact fun _ => Storage.content_removed (hremove s (Table.mem_of_find hs))
      · rename_i hni
        -- aborting again finds nothing, as the first closing removed the bytes
        refine hb.update (r := { s with status := .aborted }) hs rfl rfl (fun l hl => hl) ?_
        refine fun _ => hb s (Table.mem_of_find hs) ?_
        cases hst : s.status with
        | initiated => exact absurd hst hni
        | completed => exact absurd hst hnc
        | aborted => exact .inl hst
        | expired => exact .inr hst

omit hremove in
theorem content_foldl_remove (ss : List UploadSession) (st : Storage) (l : Location)
    (hss : ∀ s ∈ ss, faults .remove s.location = false)
    (hl : st.content l = none ∨ ∃ s ∈ ss, s.location = l) :
    (ss.foldl (fun st s => st.bestEffortRemove faults s.location) st).content l = none := by
  induction ss generalizing st with
  | nil =>
    rcases hl with hl | ⟨s, hs, -⟩
    · exact hl
    · cases hs
  | cons s ss ih =>
    refine ih _ (fun q hq => hss q (List.mem_cons_of_mem s hq)) ?_
    rcases hl with hl | ⟨q, hq, rfl⟩
    · exact .inl (Storage.content_remove_none faults _ hl)
    · rcases List.mem_cons.mp hq with rfl | hq
      · exact .inl (Storage.content_removed (hss q List.mem_cons_self))
      · exact .inr ⟨q, hq, rfl⟩

theorem nothingLeft_purgeStaleUploads (hb : NothingLeft b) (now : Timestamp) :
    NothingLeft (purgeStaleUploads b faults now).1 := by
  intro q hq hst
  refine content_foldl_remove _ _ _ (fun s hs => hremove s (List.mem_filter.mp hs).1) ?_
  have hrow : q ∈ b.db.sessions.mapRows (expireStale now) (id_expireStale now) := hq
  obtain ⟨s, hs, rfl⟩ := Table.mem_mapRows.mp hrow
  by_cases hstale : isStale now s = true
  · rw [show (expireStale now s).location = s.location by simp [expireStale, hstale]; rfl]
    exact .inr ⟨s, List.mem_filter.mpr ⟨hs, hstale⟩, rfl⟩
  · rw [show expireStale now s = s by simp [expireStale, hstale]] at hst ⊢
    exact .inl (hb s hs hst)

omit hremove

/-! ### Completions -/

/-- What a completion comes to on a session still initiated after its expiry. -/
theorem completeUpload_late {user : UserModel} {sessionId : UUID} {s : UploadSession}
    {now : Timestamp} (faults : Faults) (req : UploadCompleteRequest)
    (hload : loadOwnedSession b.db user sessionId = .ok s) (hi : s.status = .initiated)
    (hlate : s.expiresAt < now) :
    (completeUpload env b faults now user sessionId req).1 =
      { b with db := b.db.updateSession { s with status := .expired } } := by
  have hens : ensureCompletable b.db s now =
      (b.db.updateSession { s with status := .expired },
        refuse 409 "Upload session has expired.") := by
    rw [ensureCompletable, if_neg (by simp [hi]), if_pos hlate]
  unfold completeUpload
  simp only [hload, hens]
  rfl

theorem nothingLeft_completeUpload (hremove : RemovalsSucceed b faults) (hb : NothingLeft b)
    (now : Timestamp) (user : UserModel) (sessionId : UUID) (req : UploadCompleteRequest)
    (hlate : ∀ s, loadOwnedSession b.db user sessionId = .ok s → s.status = .initiated →
      s.expiresAt < now → b.storage.content s.location = none) :
    NothingLeft (completeUpload env b faults now user sessionId req).1 := by
  rcases completeUpload_cases env b faults now user sessionId req with
    ⟨_, _, he⟩ | ⟨s, hload, hi, hexpired, _, _, he⟩ | ⟨_, _, -, he⟩ | ⟨s, _, hload, -, -, -, he⟩
  · rw [he]
    exact hb
  · rw [he]
    obtain ⟨hs, -, -⟩ := loadOwnedSession_ok hload
    exact hb.update (r := { s with status := .expired }) hs rfl rfl (fun l hl => hl)
      fun _ => hlate s hload hi hexpired
  · rw [he]
    exact hb
  · rw [he]
    obtain ⟨hs, -, -⟩ := loadOwnedSession_ok hload
    exact nothingLeft_completeSession hremove hb hs now req.sha256 _

/-! ### Runs -/

/-- Uploads alone, with nothing posted at a session's location once it is closed
and no removal of a session's bytes failing. -/
def OnlyUploads (w : World) : Request → Prop
  | .initiate .. => True
  | .post _ form _ => ∀ s ∈ w.backend.db.sessions, s.location = form.location →
      s.status = .initiated
  | .complete faults .. => RemovalsSucceed w.backend faults
  | .abort faults .. => RemovalsSucceed w.backend faults
  | .purgeStale faults _ => RemovalsSucceed w.backend faults
  | _ => False

/-- No completion by an allowed caller meets bytes of a session that is initiated
but past its expiry. -/
def MeetsNoLateBytes (w : World) : Request → Prop
  | .complete _ now user sessionId _ => ∀ s ∈ w.backend.db.sessions, s.id = sessionId →
      user.isSuperuser ∨ s.ownerUserId = user.id → s.status = .initiated → s.expiresAt < now →
      w.backend.storage.content s.location = none
  | _ => True

instance (w : World) (r : Request) : Decidable (OnlyUploads w r) := by
  unfold OnlyUploads RemovalsSucceed
  cases r <;> infer_instance

instance (w : World) (r : Request) : Decidable (MeetsNoLateBytes w r) := by
  unfold MeetsNoLateBytes
  cases r <;> infer_instance

variable {w : World} {r : Request}

theorem NothingLeft.serve (hb : NothingLeft w.backend) (hr : OnlyUploads w r)
    (hc : MeetsNoLateBytes w r) : NothingLeft (serve env w r).backend := by
  rw [serve_backend]
  cases r with
  | initiate faults now mediaId user body =>
    cases h : initiateUpload env w.backend.db faults now mediaId user body with
    | error e =>
      simp only [answer, h]
      exact hb
    | ok res =>
      simp only [answer, h]
      obtain ⟨req, staged, -, -, -, hrec⟩ := initiateUpload_ok h
      obtain ⟨-, t, ht, hdb⟩ := Database.insertSession_ok hrec
      intro s hs hst
      simp only [Except.map, Backend.withDb, hdb] at hs ⊢
      rcases (Table.mem_insert ht).mp hs with hs | rfl
      · exact hb s hs hst
      · rcases hst with h | h <;> cases h
  | post now form content =>
    simp only [answer]
    split
    · intro s hs hst
      have hne : s.location ≠ form.location := by
        intro hl
        have hi := hr s hs hl
        rcases hst with h | h <;> rw [hi] at h <;> cases h
      simp only [Backend.store, Storage.content_put, Function.update_of_ne hne]
      exact hb s hs hst
    · exact hb
  | complete faults now user sessionId body =>
    refine nothingLeft_completeUpload hr hb now user sessionId body fun s hload => ?_
    obtain ⟨hs, hid, hallowed⟩ := loadOwnedSession_ok hload
    exact hc s (Table.mem_of_find hs) hid hallowed
  | abort faults user sessionId => exact nothingLeft_abortUpload hr hb user sessionId
  | purgeStale faults now => exact nothingLeft_purgeStaleUploads hr hb now
  | _ => exact hr.elim

/-- A late completion that meets bytes leaves them under an expired session. -/
theorem meetsNoLateBytes_of_nothingLeft_serve (hb : NothingLeft (serve env w r).backend) :
    MeetsNoLateBytes w r := by
  unfold MeetsNoLateBytes
  split
  · rename_i faults now user sessionId body
    rintro s hs rfl hallowed hi hlate
    rw [serve_backend] at hb
    simp only [answer] at hb
    let expired : UploadSession := { s with status := .expired }
    have hfind : w.backend.db.sessions.find expired.id = some s := Table.find_of_mem hs
    rw [completeUpload_late faults body (loadOwnedSession_eq_ok hfind hallowed) hi hlate] at hb
    exact hb expired (Table.mem_of_find (Table.find_update_self hfind)) (.inr rfl)
  · trivial

/-- Throughout a run of uploads nothing is stored for an aborted or expired
session, if and only if no late completion of the run meets bytes. -/
theorem nothingLeft_iff (env : Env) (rs : List Request)
    (hrs : Guarded (serve env) OnlyUploads World.initial rs) :
    Always (serve env) (fun w => NothingLeft w.backend) World.initial rs ↔
      Guarded (serve env) MeetsNoLateBytes World.initial rs := by
  refine always_iff_guarded (I := fun _ => True) (A := OnlyUploads) (fun _ _ _ _ _ _ => trivial)
    (fun w r _ hb hr => ?_) trivial ?_ hrs
  · exact ⟨meetsNoLateBytes_of_nothingLeft_serve, hb.serve hr⟩
  · exact fun s hs => absurd hs (Table.not_mem_empty s)

/-- Bytes that are no PNG are posted, and the completion in time rejects them. -/
def rejectedInTime : List Request :=
  uploadRequests Env.default 0 ⟨2⟩ (.ordinary 1) .public [0]

theorem nothingLeft_rejectedInTime :
    Always (serve Env.default) (fun w => NothingLeft w.backend) World.initial rejectedInTime :=
  (nothingLeft_iff Env.default rejectedInTime (by decide +kernel)).mpr (by decide +kernel)

/-- The same bytes, and a completion after the session's expiry. -/
def completedLate : List Request :=
  (uploadRequests Env.default 0 ⟨2⟩ (.ordinary 1) .public [0]).take 2 ++
    [.complete Faults.none (seconds 301) (.ordinary 1) ⟨2⟩ ⟨none, none⟩]

/-- Every request of the run is one the uploads may make, and it leaves bytes
under an expired session. -/
theorem not_nothingLeft : Guarded (serve Env.default) OnlyUploads World.initial completedLate ∧
    ¬ Always (serve Env.default) (fun w => NothingLeft w.backend) World.initial completedLate := by
  decide +kernel

end MediaService
