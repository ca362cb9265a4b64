import MediaService.Invariants.ForeignKeys
import MediaService.Invariants.HardPurge
import MediaService.Lifecycle.Service
import MediaService.Scenario

/-! The life of an upload. A session is opened once and never removed; what it says of the
upload stays as it was, and it leaves INITIATED and EXPIRED only forwards. The object that
comes from it keeps its identity, its key and what was verified of its bytes; a deletion is
for good, only a purge of a deleted row removes it, and as the session stays its id never
names an object again. -/

namespace MediaService

open Foundation

variable {env : Env} {w : World}

/-! ### Sessions -/

/-- One session, earlier and later. -/
structure UploadSession.Becomes (s s' : UploadSession) : Prop where
  same : s' = { s with status := s'.status, completedAt := s'.completedAt }
  closed : s.status = .completed ∨ s.status = .aborted → s' = s
  expired : s.status = .expired → s'.status = .expired ∨ s'.status = .aborted
  completedAt : s'.completedAt = s.completedAt ∨ s.status = .initiated ∧ s'.status = .completed

theorem UploadSession.Becomes.refl (s : UploadSession) : s.Becomes s :=
  ⟨rfl, fun _ => rfl, .inl, .inl rfl⟩

theorem UploadSession.Becomes.trans {s s' s'' : UploadSession} (h : s.Becomes s')
    (h' : s'.Becomes s'') : s.Becomes s'' where
  same := by
    rw [h'.same, h.same]
  closed hs := by
    obtain rfl := h.closed hs
    exact h'.closed hs
  expired hs := by
    rcases h.expired hs with hs' | hs'
    · exact h'.expired hs'
    · rw [h'.closed (.inr hs')]
      exact .inr hs'
  completedAt := by
    rcases h.completedAt with hs | ⟨hi, hc⟩
    · rcases h'.completedAt with hs' | ⟨hi, hc⟩
      · exact .inl (hs'.trans hs)
      · cases hst : s.status with
        | initiated => exact .inr ⟨rfl, hc⟩
        | completed =>
          rw [h.closed (.inl hst), hst] at hi
          cases hi
        | aborted =>
          rw [h.closed (.inr hst), hst] at hi
          cases hi
        | expired =>
          rcases h.expired hst with hs' | hs' <;> rw [hi] at hs' <;> cases hs'
    · rw [h'.closed (.inl hc)]
      exact .inr ⟨hi, hc⟩

/-- A move leaves every session there, and further on if anywhere. -/
theorem Moves.session_becomes {m : Move} {h h' : Holdings} (hm : Moves env m h h')
    {s : UploadSession} (hs : h.sessions.find s.id = some s) :
    ∃ s', h'.sessions.find s.id = some s' ∧ s.Becomes s' := by
  have hupdate : ∀ r q : UploadSession, h.sessions.find r.id = some r → r.status = .initiated →
      q = { r with status := q.status, completedAt := q.completedAt } →
      (q.completedAt = r.completedAt ∨ q.status = .completed) →
      ∃ s', (h.sessions.update q).find s.id = some s' ∧ s.Becomes s' := by
    intro r q hr hi hq hcompleted
    have hid : q.id = r.id := by rw [hq]
    by_cases he : s.id = r.id
    · obtain rfl := Option.some.inj (hs.symm.trans (he ▸ hr))
      refine ⟨q, ?_, hq, fun hc => ?_, fun hc => ?_, hcompleted.imp_right fun hc => ⟨hi, hc⟩⟩
      · rw [← hid]
        exact Table.find_update_self (by rw [hid]; exact hs)
      · rcases hc with hc | hc <;> rw [hi] at hc <;> cases hc
      · rw [hi] at hc
        cases hc
    · refine ⟨s, ?_, .refl s⟩
      rw [Table.find_update_ne (hid ▸ he)]
      exact hs
  cases hm with
  | opened _ _ ht => exact ⟨s, Table.find_of_mem ((Table.mem_insert ht).mpr
      (.inl (Table.mem_of_find hs))), .refl s⟩
  | closed hc =>
    rcases hc s.id with he | ⟨q, st, hq, hnc, hst, hfind⟩
    · exact ⟨s, he.trans hs, .refl s⟩
    · obtain rfl := Option.some.inj (hs.symm.trans hq)
      refine ⟨_, hfind, rfl, fun hclosed => ?_, fun _ => ?_, .inl rfl⟩
      · rcases hst with rfl | ⟨hi, rfl⟩
        · rw [← hclosed.resolve_left hnc]
        · rcases hclosed with hc | hc <;> rw [hi] at hc <;> cases hc
      · rcases hst with rfl | ⟨-, rfl⟩
        · exact .inr rfl
        · exact .inl rfl
  | promoted hf hi _ _ _ => exact hupdate _ _ hf hi rfl (.inr rfl)
  | rejected hf hi _ _ => exact hupdate _ _ hf hi rfl (.inl rfl)
  | _ => exact ⟨s, hs, .refl s⟩

theorem session_becomes_serve (hw : WorldInv env w) (r : Request) {s : UploadSession}
    (hs : w.backend.db.sessions.find s.id = some s) :
    ∃ s', (serve env w r).backend.db.sessions.find s.id = some s' ∧ s.Becomes s' := by
  refine (movesTo_serve hw r).preserves
    (I := fun h => ∃ s', h.sessions.find s.id = some s' ∧ s.Becomes s')
    (fun m h h' _ hm hI => ?_) ⟨s, hs, .refl s⟩
  obtain ⟨q, hq, hbecomes⟩ := hI
  have hid : q.id = s.id := Table.key_of_find hq
  rw [← hid] at hq ⊢
  obtain ⟨q', hq', hbecomes'⟩ := hm.session_becomes hq
  exact ⟨q', hq', hbecomes.trans hbecomes'⟩

/-! ### Objects -/

/-- One object, earlier and later. Only what a patch, a verdict, a filing or a deletion
writes has changed, and nothing but a verdict changes a deleted one. -/
structure MediaObject.Becomes (o o' : MediaObject) : Prop where
  same : o' = { o with
    category := o'.category
    visibility := o'.visibility
    storageBucket := o'.storageBucket
    originalFilename := o'.originalFilename
    status := o'.status
    scanStatus := o'.scanStatus
    updatedAt := o'.updatedAt
    deletedAt := o'.deletedAt }
  deleted : o.deletedAt.isSome → o' = { o with
    status := o'.status
    scanStatus := o'.scanStatus
    updatedAt := o'.updatedAt }
  status : o'.status = o.status ∨ o'.status = .ready ∨ o'.status = .deleted
  scanStatus : o'.scanStatus = o.scanStatus ∨ o'.scanStatus = .clean ∨ o'.scanStatus = .quarantined

theorem MediaObject.Becomes.refl (o : MediaObject) : o.Becomes o :=
  ⟨rfl, fun _ => rfl, .inl rfl, .inl rfl⟩

theorem MediaObject.Becomes.id_eq {o o' : MediaObject} (h : o.Becomes o') : o'.id = o.id := by
  rw [h.same]

theorem MediaObject.Becomes.trans {o o' o'' : MediaObject} (h : o.Becomes o')
    (h' : o'.Becomes o'') : o.Becomes o'' where
  same := by
    rw [h'.same, h.same]
  deleted hd := by
    have hd' : o'.deletedAt.isSome := by
      rw [h.deleted hd]
      exact hd
    rw [h'.deleted hd', h.deleted hd]
  status := by
    rcases h'.status with hs | hs
    · rw [hs]
      exact h.status
    · exact .inr hs
  scanStatus := by
    rcases h'.scanStatus with hs | hs
    · rw [hs]
      exact h.scanStatus
    · exact .inr hs

/-- An object that is gone while its session says that it is closed. -/
def GoneFor (id : UUID) (h : Holdings) : Prop :=
  h.objects.find id = none ∧
    ∃ s, h.sessions.find id = some s ∧ (s.status = .completed ∨ s.status = .aborted)

/-- What was an object is one still, as it was or further on, or is gone. -/
def Lives (o : MediaObject) (h : Holdings) : Prop :=
  (∃ o', h.objects.find o.id = some o' ∧ o.Becomes o') ∨ GoneFor o.id h

theorem find_insert_gone {h : Holdings} {id : UUID} {s : UploadSession} {o : MediaObject}
    {t : Table MediaObject.id} (hgone : GoneFor id h) (hs : h.sessions.find s.id = some s)
    (hi : s.status = .initiated) (hid : o.id = s.id) (ht : h.objects.insert o = some t) :
    t.find id = none := by
  obtain ⟨hnone, q, hq, hclosed⟩ := hgone
  rw [Table.find_insert ht, if_neg, hnone]
  rintro rfl
  obtain rfl := Option.some.inj ((hid ▸ hq).symm.trans hs)
  rcases hclosed with hc | hc <;> rw [hi] at hc <;> cases hc

/-- A gone object stays gone through every move. -/
theorem Moves.goneFor {m : Move} {h h' : Holdings} (hm : Moves env m h h') {id : UUID}
    (hgone : GoneFor id h) : GoneFor id h' := by
  have hobjects : h'.objects.find id = none := by
    have hupdate : ∀ q, (h.objects.update q).find id = none := by
      intro q
      have hsome := Table.find_update_isSome h.objects q id
      rw [hgone.1, Option.isSome_none, Option.isSome_eq_false_iff, Option.isNone_iff_eq_none]
        at hsome
      exact hsome
    cases hm with
    | promoted hf hi ho _ ht => exact find_insert_gone hgone hf hi (by rw [ho]; rfl) ht
    | rejected hf hi ho ht => exact find_insert_gone hgone hf hi (by rw [ho]; rfl) ht
    | judged _ _ => exact hupdate _
    | patched _ _ _ _ => exact hupdate _
    | softDeleted _ _ _ => exact hupdate _
    | purged _ =>
      refine Table.find_eq_none.mpr fun o ho => ?_
      exact Table.find_eq_none.mp hgone.1 o (Table.mem_erase.mp ho).1
    | _ => exact hgone.1
  obtain ⟨-, s, hs, hclosed⟩ := hgone
  obtain rfl : s.id = id := Table.key_of_find hs
  obtain ⟨s', hs', hbecomes⟩ := hm.session_becomes hs
  rw [hbecomes.closed hclosed] at hs'
  exact ⟨hobjects, s, hs', hclosed⟩

/-- A move rewrites an object as the move says, purges it once deleted, or leaves it. -/
theorem Moves.lives {m : Move} {h h' : Holdings} (hk : WellKept env h) (hm : Moves env m h h')
    {o : MediaObject} (ho : h.objects.find o.id = some o) : Lives o h' := by
  have hkept : h'.objects.find o.id = some o → Lives o h' := fun hfind => .inl ⟨o, hfind, .refl o⟩
  have hinsert : ∀ {q : MediaObject} {t}, h.objects.insert q = some t →
      t.find o.id = some o := by
    intro q t ht
    exact Table.find_of_mem ((Table.mem_insert ht).mpr (.inl (Table.mem_of_find ho)))
  have hupdate : ∀ {q q' : MediaObject}, q ∈ h.objects → q.Becomes q' →
      h'.objects = h.objects.update q' → Lives o h' := by
    intro q q' hq hbecomes hobjects
    left
    rw [hobjects]
    by_cases he : o.id = q.id
    · obtain rfl := Table.eq_of_key_eq (Table.mem_of_find ho) hq he
      refine ⟨q', ?_, hbecomes⟩
      rw [← hbecomes.id_eq]
      exact Table.find_update_self (by rw [hbecomes.id_eq]; exact ho)
    · refine ⟨o, ?_, .refl o⟩
      rw [Table.find_update_ne (hbecomes.id_eq ▸ he)]
      exact ho
  have hmove := hm
  cases hm with
  | promoted _ _ _ _ ht => exact hkept (hinsert ht)
  | rejected _ _ _ ht => exact hkept (hinsert ht)
  | judged hq hor =>
    rcases hor with rfl | rfl
    · refine hupdate hq ?_ rfl
      exact ⟨rfl, fun _ => rfl, .inr (.inl rfl), .inr (.inl rfl)⟩
    · refine hupdate hq ?_ rfl
      exact ⟨rfl, fun _ => rfl, .inl rfl, .inr (.inr rfl)⟩
  | patched hq hlive hq' _ =>
    refine hupdate hq ⟨?_, fun hd => ?_, .inl ?_, .inl ?_⟩ rfl
    · rw [hq']
    · rw [hlive] at hd
      cases hd
    · rw [hq']
    · rw [hq']
  | softDeleted hq hlive hq' =>
    refine hupdate hq ⟨?_, fun hd => ?_, .inr (.inr ?_), .inl ?_⟩ rfl
    · rw [hq']
    · rw [hlive] at hd
      cases hd
    · rw [hq']
    · rw [hq']
  | @purged _ id hdeleted =>
    by_cases he : o.id = id
    · right
      obtain ⟨s, hs, hid, -, -, hclosed⟩ := hk.object_session o (Table.mem_of_find ho)
      refine ⟨Table.find_eq_none.mpr fun q hq hqo => (Table.mem_erase.mp hq).2 (hqo.trans he),
        s, ?_, hclosed⟩
      exact hid ▸ Table.find_of_mem hs
    · exact hkept (Table.find_of_mem (Table.mem_erase.mpr ⟨Table.mem_of_find ho, he⟩))
  | _ => exact hkept ho

theorem lives_serve (hw : WorldInv env w) (r : Request) {o : MediaObject}
    (h : Lives o w.backend.holdings) : Lives o (serve env w r).backend.holdings := by
  have hboth := (movesTo_serve hw r).preserves
    (I := fun h => WellKept env h ∧ Lives o h) (fun m h h' _ hm hI => ?_) ⟨hw.kept, h⟩
  · exact hboth.2
  · obtain ⟨hk, ⟨o', ho', hbecomes⟩ | hgone⟩ := hI
    · refine ⟨hk.move hm, ?_⟩
      have hid : o'.id = o.id := Table.key_of_find ho'
      have hlives := hm.lives hk (hid.symm ▸ ho' : h.objects.find o'.id = some o')
      unfold Lives GoneFor at hlives ⊢
      rw [hid] at hlives
      exact hlives.imp_left fun ⟨o'', ho'', hbecomes'⟩ => ⟨o'', ho'', hbecomes.trans hbecomes'⟩
    · exact ⟨hk.move hm, .inr (hm.goneFor hgone)⟩

/-- Only a purge that may take an object removes it. -/
theorem purges_of_gone {r : Request} {o : MediaObject}
    (ho : w.backend.db.objects.find o.id = some o)
    (hgone : (serve env w r).backend.db.objects.find o.id = none) : r.Purges o := by
  rw [serve_backend] at hgone
  have hmem := Table.mem_of_find ho
  by_cases hpurge : ∃ faults now olderThan limit, r = .hardPurge faults now olderThan limit
  · obtain ⟨faults, now, olderThan, limit, rfl⟩ := hpurge
    have hfirst := purgeCandidates_first w.backend.db (now - olderThan) limit
    simp only [answer] at hgone
    rw [db_hardPurgeExpired] at hgone
    by_contra hnot
    refine Table.find_eq_none.mp hgone o (Table.mem_filter.mpr ⟨hmem, decide_eq_true ?_⟩) rfl
    intro hin
    obtain ⟨q, hq, hid⟩ := List.mem_map.mp hin
    obtain ⟨hqmem, hqpurgeable⟩ := hfirst.deleted q hq
    obtain rfl := Table.eq_of_key_eq hqmem hmem hid
    exact hnot hqpurgeable
  · have hr : ∀ faults now olderThan limit, r ≠ .hardPurge faults now olderThan limit :=
      fun faults now olderThan limit he => hpurge ⟨faults, now, olderThan, limit, he⟩
    obtain ⟨o', ho', hid, -⟩ := objectsStay_answer env w hr o hmem
    exact absurd hid (Table.find_eq_none.mp hgone o' ho')

/-! ### Runs -/

/-- The object is there, as it was or further on. -/
def MediaObject.StandsIn (o : MediaObject) (w : World) : Prop :=
  ∃ o', w.backend.db.objects.find o.id = some o' ∧ o.Becomes o'

/-- The request purges the object as it stands. -/
def MediaObject.PurgedBy (o : MediaObject) (w : World) (r : Request) : Prop :=
  ∃ o', w.backend.db.objects.find o.id = some o' ∧ r.Purges o'

/-- From any state the service comes to, an object stays what it is through every run, in
every state of it; or some purge takes it, which finds it deleted before its cutoff, and
then no state after has an object of its id. -/
theorem object_life (env : Env) (before rs : List Request) (o : MediaObject)
    (h : o ∈ (run (serve env) World.initial before).backend.db.objects) :
    Always (serve env) o.StandsIn (run (serve env) World.initial before) rs ∨
      Switches (serve env) o.StandsIn (fun w => w.backend.db.objects.find o.id = none) o.PurgedBy
        (run (serve env) World.initial before) rs := by
  have hend := @always_or_switches _ _ (serve env) (WorldInv env) o.StandsIn
    (fun w => GoneFor o.id w.backend.holdings) o.PurgedBy (fun _ r hw => hw.serve r)
    (fun w r hw hstands => ?_) (fun w r hw hgone => ?_) _ (worldInv_run env before)
    ⟨o, Table.find_of_mem h, .refl o⟩ rs
  · rcases hend with halways | ⟨rs₁, r, rs₂, he, h₁, hr, h₂⟩
    · exact .inl halways
    · exact .inr ⟨rs₁, r, rs₂, he, h₁, hr, h₂.mono fun w hgone => hgone.1⟩
  · rcases lives_serve hw r (.inl hstands) with hstands' | hgone
    · exact .inl hstands'
    · obtain ⟨o', ho', hbecomes⟩ := hstands
      have hid : o.id = o'.id := hbecomes.id_eq.symm
      exact .inr ⟨⟨o', ho', purges_of_gone (hid ▸ ho') (hid ▸ hgone.1)⟩, hgone⟩
  · exact (movesTo_serve hw r).preserves (I := GoneFor o.id)
      (fun _ _ _ _ hm hI => hm.goneFor hI) hgone

/-- A clean upload's deletion and purge, and a late verdict on it. -/
def purgedUploadRequests : List Request :=
  [.delete Faults.none false 2 (.ordinary 1) ⟨2⟩, .hardPurge Faults.none 9 3 5,
    .scanResult 10 ⟨2⟩ .clean]

theorem object_life_purged : ∃ o : MediaObject, o.id = ⟨2⟩ ∧
    let w := run (serve Env.default) World.initial
      (cleanUploadRequests Env.default 0 ⟨2⟩ (.ordinary 1) .private pngSignature)
    (Always (serve Env.default) o.StandsIn w purgedUploadRequests ∨
      Switches (serve Env.default) o.StandsIn (fun w => w.backend.db.objects.find o.id = none)
        o.PurgedBy w purgedUploadRequests) ∧
      (run (serve Env.default) w purgedUploadRequests).backend.db.objects.find o.id = none := by
  have hsome : (keptBackend.db.objects.find ⟨2⟩).isSome = true := by decide +kernel
  obtain ⟨o, ho⟩ := Option.isSome_iff_exists.mp hsome
  have hid : o.id = ⟨2⟩ := Table.key_of_find ho
  unfold keptBackend at ho
  refine ⟨o, hid, object_life Env.default _ purgedUploadRequests o (Table.mem_of_find ho), ?_⟩
  rw [hid]
  decide +kernel

/-! ### Runs of a session -/

/-- The session is there, as it was or further on, and an object has its id only once it
is closed, under its scope and key. -/
def UploadSession.StandsIn (s : UploadSession) (w : World) : Prop :=
  ∃ s', w.backend.db.sessions.find s.id = some s' ∧ s.Becomes s' ∧
    ∀ o, w.backend.db.objects.find s.id = some o →
      (s'.status = .completed ∨ s'.status = .aborted) ∧ o.scope = s.scope ∧
        o.objectKey = s.objectKey

/-- If the request makes an object of the session's id, it closes the session, which it
found initiated. -/
def UploadSession.ClosedIfMade (env : Env) (s : UploadSession) (w : World) (r : Request) : Prop :=
  w.backend.db.objects.find s.id = none →
    (serve env w r).backend.db.objects.find s.id ≠ none →
      ∃ s₀ s₁, w.backend.db.sessions.find s.id = some s₀ ∧ s₀.status = .initiated ∧
        (serve env w r).backend.db.sessions.find s.id = some s₁ ∧
        (s₁.status = .completed ∨ s₁.status = .aborted)

theorem UploadSession.Becomes.initiated {s s' : UploadSession} (h : s.Becomes s')
    (hi : s'.status = .initiated) : s.status = .initiated := by
  cases hs : s.status with
  | initiated => rfl
  | completed => rw [← hs, ← h.closed (.inl hs), hi]
  | aborted => rw [← hs, ← h.closed (.inr hs), hi]
  | expired =>
    rcases h.expired hs with hs' | hs' <;> rw [hi] at hs' <;> cases hs'

/-- A move makes an object of an id only by closing the session of that id. -/
theorem Moves.object_none {m : Move} {h h' : Holdings} (hm : Moves env m h h')
    {s : UploadSession} (hs : h.sessions.find s.id = some s)
    (hnone : h.objects.find s.id = none) :
    h'.objects.find s.id = none ∨ s.status = .initiated ∧
      ∃ s', h'.sessions.find s.id = some s' ∧ (s'.status = .completed ∨ s'.status = .aborted) := by
  have hupdate : ∀ q, (h.objects.update q).find s.id = none := by
    intro q
    have hsome := Table.find_update_isSome h.objects q s.id
    rw [hnone, Option.isSome_none, Option.isSome_eq_false_iff, Option.isNone_iff_eq_none] at hsome
    exact hsome
  have hinsert : ∀ {q : UploadSession} {o : MediaObject} {t}, o.id = q.id →
      h.objects.insert o = some t → s.id ≠ q.id → t.find s.id = none := by
    intro q o t hid ht hne
    rw [Table.find_insert ht, if_neg (by rw [hid]; exact hne), hnone]
  cases hm with
  | @promoted _ q o t _ _ _ now hf hi ho _ ht =>
    by_cases he : s.id = q.id
    · obtain rfl := Option.some.inj (hs.symm.trans (he ▸ hf))
      exact .inr ⟨hi, _, Table.find_update_self (by exact hs), .inl rfl⟩
    · exact .inl (hinsert (by rw [ho]; rfl) ht he)
  | @rejected _ q o t _ _ now hf hi ho ht =>
    by_cases he : s.id = q.id
    · obtain rfl := Option.some.inj (hs.symm.trans (he ▸ hf))
      exact .inr ⟨hi, _, Table.find_update_self (by exact hs), .inr rfl⟩
    · exact .inl (hinsert (by rw [ho]; rfl) ht he)
  | judged _ _ => exact .inl (hupdate _)
  | patched _ _ _ _ => exact .inl (hupdate _)
  | softDeleted _ _ _ => exact .inl (hupdate _)
  | purged _ =>
    refine .inl (Table.find_eq_none.mpr fun o ho => ?_)
    exact Table.find_eq_none.mp hnone o (Table.mem_erase.mp ho).1
  | _ => exact .inl hnone

/-- Through the moves of a request the session goes on, and its object comes only with
its closing. -/
theorem closedIfMade_serve (hw : WorldInv env w) (r : Request) {s : UploadSession}
    (hs : w.backend.db.sessions.find s.id = some s) : s.ClosedIfMade env w r := by
  intro hnone hmade
  have hend := (movesTo_serve hw r).preserves
    (I := fun h => ∃ q, h.sessions.find s.id = some q ∧ s.Becomes q ∧
      (h.objects.find s.id = none ∨
        s.status = .initiated ∧ (q.status = .completed ∨ q.status = .aborted)))
    (fun m h h' _ hm hI => ?_) ⟨s, hs, .refl s, .inl hnone⟩
  · obtain ⟨q, hq, -, hnot | ⟨hi, hclosed⟩⟩ := hend
    · exact absurd hnot hmade
    · exact ⟨s, q, hs, hi, hq, hclosed⟩
  · obtain ⟨q, hq, hbecomes, hobject⟩ := hI
    have hid : q.id = s.id := Table.key_of_find hq
    rw [← hid] at hq hobject ⊢
    obtain ⟨q', hq', hbecomes'⟩ := hm.session_becomes hq
    refine ⟨q', hq', hbecomes.trans hbecomes', ?_⟩
    rcases hobject with hnone | ⟨hi, hclosed⟩
    · refine (hm.object_none hq hnone).imp_right fun ⟨hi, s', hs', hclosed⟩ => ?_
      obtain rfl := Option.some.inj (hs'.symm.trans hq')
      exact ⟨hbecomes.initiated hi, hclosed⟩
    · refine .inr ⟨hi, ?_⟩
      rw [hbecomes'.closed hclosed]
      exact hclosed

theorem standsIn_of_becomes (hw : WorldInv env w) {s s' : UploadSession}
    (hs' : w.backend.db.sessions.find s.id = some s') (hbecomes : s.Becomes s') :
    s.StandsIn w := by
  refine ⟨s', hs', hbecomes, fun o ho => ?_⟩
  obtain ⟨q, hq, hid, hscope, hkey, hclosed⟩ := hw.kept.object_session o (Table.mem_of_find ho)
  have hqs : q.id = s.id := hid.trans (Table.key_of_find ho)
  obtain rfl : q = s' := Option.some.inj ((hqs ▸ Table.find_of_mem hq).symm.trans hs')
  refine ⟨hclosed, ?_, ?_⟩
  · rw [← hscope, hbecomes.same]
    rfl
  · rw [← hkey, hbecomes.same]

/-- From any state the service comes to, in every state of every run, a session is there, as
it was or further on, with no object of its id unless it is closed. An object comes to it only
with the request that closes it, so a session that is closed without one never has one. -/
theorem session_life (env : Env) (before rs : List Request) (s : UploadSession)
    (h : s ∈ (run (serve env) World.initial before).backend.db.sessions) :
    let w := run (serve env) World.initial before
    Always (serve env) s.StandsIn w rs ∧ Guarded (serve env) (s.ClosedIfMade env) w rs ∧
      (s.status = .completed ∨ s.status = .aborted → w.backend.db.objects.find s.id = none →
        Always (serve env) (fun w => w.backend.db.objects.find s.id = none) w rs) := by
  intro w
  have hw : WorldInv env w := worldInv_run env before
  have hs : w.backend.db.sessions.find s.id = some s := Table.find_of_mem h
  have hstands : Always (serve env) (fun w => WorldInv env w ∧
      ∃ s', w.backend.db.sessions.find s.id = some s' ∧ s.Becomes s') w rs := by
    refine always_of_inv (fun w r hI => ?_) ⟨hw, s, hs, .refl s⟩ rs
    obtain ⟨hw, s', hs', hbecomes⟩ := hI
    have hid : s'.id = s.id := Table.key_of_find hs'
    rw [← hid] at hs' ⊢
    obtain ⟨s'', hs'', hbecomes'⟩ := session_becomes_serve hw r hs'
    exact ⟨hw.serve r, s'', hs'', hbecomes.trans hbecomes'⟩
  refine ⟨hstands.mono fun w hI => ?_, hstands.guarded fun w r hI => ?_, fun hclosed hnone => ?_⟩
  · obtain ⟨hw, s', hs', hbecomes⟩ := hI
    exact standsIn_of_becomes hw hs' hbecomes
  · obtain ⟨hw, s', hs', -⟩ := hI
    have hid : s'.id = s.id := Table.key_of_find hs'
    have hmade := closedIfMade_serve hw r (hid.symm ▸ hs')
    unfold UploadSession.ClosedIfMade at hmade ⊢
    rw [hid] at hmade
    exact hmade
  · have hgone : Always (serve env) (fun w => WorldInv env w ∧ GoneFor s.id w.backend.holdings)
        w rs := by
      refine always_of_inv (fun w r hI => ?_) ⟨hw, hnone, s, hs, hclosed⟩ rs
      exact ⟨hI.1.serve r, (movesTo_serve hI.1 r).preserves (I := GoneFor s.id)
        (fun _ _ _ _ hm hI => hm.goneFor hI) hI.2⟩
    exact hgone.mono fun w hI => hI.2.1

/-- A posted upload is completed: its object comes with the closing. -/
theorem session_life_completed : ∃ s : UploadSession, s.id = ⟨2⟩ ∧ s.status = .initiated ∧
    let w := run (serve Env.default) World.initial postedRequests
    let rs := [.complete Faults.none 0 (.ordinary 1) ⟨2⟩ ⟨none, none⟩, .scanResult 1 ⟨2⟩ .clean]
    (Always (serve Env.default) s.StandsIn w rs ∧
        Guarded (serve Env.default) (s.ClosedIfMade Env.default) w rs) ∧
      w.backend.db.objects.find ⟨2⟩ = none ∧
      ((run (serve Env.default) w rs).backend.db.objects.find ⟨2⟩).isSome = true := by
  have hsome : ((run (serve Env.default) World.initial
      postedRequests).backend.db.sessions.find ⟨2⟩).any
        (fun s => decide (s.status = .initiated)) = true := by
    decide +kernel
  obtain ⟨s, hs, hi⟩ := (Option.any_eq_true _ _).mp hsome
  obtain ⟨hstands, hmade, -⟩ := session_life Env.default postedRequests
    [.complete Faults.none 0 (.ordinary 1) ⟨2⟩ ⟨none, none⟩, .scanResult 1 ⟨2⟩ .clean] s
    (Table.mem_of_find hs)
  refine ⟨s, Table.key_of_find hs, of_decide_eq_true hi, ⟨hstands, hmade⟩, ?_, ?_⟩
  · decide +kernel
  · decide +kernel

end MediaService
