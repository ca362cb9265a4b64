import Mathlib.Logic.Relation
import MediaService.Controllers.Transfer
import MediaService.Controllers.Uploads

/-! The life of stored media, abstractly. Holdings are the rows that own bytes,
the charged totals and the bytes at each location; a move is one thing that can
happen to them. The controllers are shown elsewhere to make only these moves.
Here it is shown that every move keeps the holdings well kept: each object comes
from the session of its id, under that session's key, and closed sessions stay
closed. -/

namespace MediaService

open Foundation

/-! ### Holdings -/

structure Holdings where
  objects : Table MediaObject.id
  sessions : Table UploadSession.id
  variants : Table MediaVariant.id
  exportJobs : Table ExportJob.id
  totals : Scope → ℤ × ℤ
  content : Location → Option Bytes

/-- What a backend holds. -/
def Backend.holdings (b : Backend) : Holdings where
  objects := b.db.objects
  sessions := b.db.sessions
  variants := b.db.variants
  exportJobs := b.db.exportJobs
  totals := usageTotals b.db.usage
  content := b.storage.content

namespace Holdings

variable (h : Holdings)

/-- The session of this id was completed. -/
def Promoted (id : UUID) : Prop := ∃ s ∈ h.sessions, s.id = id ∧ s.status = .completed

/-- `Promoted`, decided. -/
def isPromoted (id : UUID) : Bool :=
  ((h.sessions.find id).map UploadSession.status) = some .completed

theorem isPromoted_iff {h : Holdings} {id : UUID} : h.isPromoted id = true ↔ h.Promoted id := by
  simp only [isPromoted, decide_eq_true_eq, Option.map_eq_some_iff, Table.find_eq_some, Promoted]
  tauto

/-- A promoted object that has not been deleted. -/
def Holds (o : MediaObject) : Prop := o ∈ h.objects ∧ o.deletedAt = none ∧ h.Promoted o.id

end Holdings

/-- The totals with one object more. -/
def charge (totals : Scope → ℤ × ℤ) (o : MediaObject) : Scope → ℤ × ℤ := fun scope =>
  totals scope + if scope = o.scope then ((o.sizeBytes : ℤ), 1) else 0

/-- The totals with one object less, floored at zero. -/
def discharge (totals : Scope → ℤ × ℤ) (o : MediaObject) : Scope → ℤ × ℤ := fun scope =>
  if scope = o.scope then
    (max 0 ((totals o.scope).1 - o.sizeBytes), max 0 ((totals o.scope).2 - 1))
  else totals scope

/-! ### Moves -/

inductive Move where
  | opened (s : UploadSession)
  | closed
  | promoted (o : MediaObject)
  | rejected (o : MediaObject)
  | judged (o o' : MediaObject)
  | patched (o o' : MediaObject)
  | softDeleted (o o' : MediaObject)
  | purged (id : UUID)
  | registered (v : MediaVariant)
  | unregistered (id : UUID)
  | exported
  | posted (l : Location) (c : Bytes)
  | stored (l : Location) (c : Bytes)
  | discarded (l : Location)

/-- The key of an original: built for its owner, tenant and media id. -/
def IsOriginalKey (env : Env) (scope : Scope) (id : UUID) (key : String) : Prop :=
  ∃ category filename,
    key = buildObjectKey env scope.ownerUserId id category filename scope.tenantId

def IsVariantKey (env : Env) (key : String) : Prop :=
  ∃ ownerUserId mediaId category variantName filename tenantId,
    key = buildVariantKey env ownerUserId mediaId category variantName filename tenantId

/-- A completed export is where it was commissioned, until some time. -/
def ExportJob.WellPlaced (settings : Settings) (j : ExportJob) : Prop :=
  j.status = .completed → j.storageBucket = some (j.target settings).bucket ∧
    j.objectKey = some (j.target settings).objectKey ∧ j.expiresAt.isSome

/-- Some sessions are aborted or, while still initiated, expired; a completed one
is left alone. -/
def Closes (t t' : Table UploadSession.id) : Prop :=
  ∀ id, t'.find id = t.find id ∨ ∃ s st, t.find id = some s ∧ s.status ≠ .completed ∧
    (st = .aborted ∨ s.status = .initiated ∧ st = .expired) ∧
    t'.find id = some { s with status := st }

/-- The moves and what each does. -/
inductive Moves (env : Env) : Move → Holdings → Holdings → Prop
  | opened {h s t} : s.status = .initiated → IsOriginalKey env s.scope s.id s.objectKey →
      h.sessions.insert s = some t → Moves env (.opened s) h { h with sessions := t }
  | closed {h t} : Closes h.sessions t → Moves env .closed h { h with sessions := t }
  | promoted {h : Holdings} {s o t mime c sha now} : h.sessions.find s.id = some s →
      s.status = .initiated →
      o = sessionObject s mime (List.length c) sha .uploaded now → h.content o.location = some c →
      h.objects.insert o = some t →
      Moves env (.promoted o) h { h with
        objects := t
        sessions := h.sessions.update { s with status := .completed, completedAt := some now }
        totals := charge h.totals o }
  | rejected {h : Holdings} {s o t mime size now} : h.sessions.find s.id = some s →
      s.status = .initiated →
      o = sessionObject s mime size none .rejected now → h.objects.insert o = some t →
      Moves env (.rejected o) h { h with
        objects := t
        sessions := h.sessions.update { s with status := .aborted } }
  | judged {h : Holdings} {o o' now} : o ∈ h.objects →
      (o' = { o with scanStatus := .clean, status := .ready, updatedAt := now } ∨
        o' = { o with scanStatus := .quarantined, updatedAt := now }) →
      Moves env (.judged o o') h { h with objects := h.objects.update o' }
  | patched {h : Holdings} {o o' visibility category filename bucket now} : o ∈ h.objects →
      o.deletedAt = none →
      o' = { o with
        visibility := visibility
        category := category
        originalFilename := filename
        storageBucket := bucket
        updatedAt := now } →
      h.content o'.location = h.content o.location →
      Moves env (.patched o o') h { h with objects := h.objects.update o' }
  | softDeleted {h : Holdings} {o o' bucket now} : o ∈ h.objects → o.deletedAt = none →
      o' = { o with
        storageBucket := bucket
        deletedAt := some now
        status := .deleted
        updatedAt := now } →
      Moves env (.softDeleted o o') h { h with
        objects := h.objects.update o'
        totals := discharge h.totals o }
  | purged {h : Holdings} {id} : (∀ o ∈ h.objects, o.id = id → o.deletedAt.isSome) →
      Moves env (.purged id) h { h with
        objects := h.objects.erase id
        variants := h.variants.filter fun v => v.mediaObjectId ≠ id }
  | registered {h v t} : IsVariantKey env v.objectKey → (∃ o ∈ h.objects, o.id = v.mediaObjectId) →
      (∀ q, q ∈ t ↔ q = v ∨ q ∈ h.variants ∧ q.id ≠ v.id) →
      Moves env (.registered v) h { h with variants := t }
  | unregistered {h : Holdings} {id} :
      Moves env (.unregistered id) h { h with variants := h.variants.erase id }
  | exported {h t} : (∀ j ∈ t, j.WellPlaced env.settings) →
      Moves env .exported h { h with exportJobs := t }
  | posted {h : Holdings} {l c} :
      Moves env (.posted l c) h { h with content := Function.update h.content l (some c) }
  | stored {h : Holdings} {l c} : (∀ o ∈ h.objects, o.location ≠ l) →
      Moves env (.stored l c) h { h with content := Function.update h.content l (some c) }
  | discarded {h : Holdings} {l} : (∀ o, h.Holds o → o.location ≠ l) →
      Moves env (.discarded l) h { h with content := Function.update h.content l none }

/-! ### Well-kept holdings -/

structure WellKept (env : Env) (h : Holdings) : Prop where
  session_key : ∀ s ∈ h.sessions, IsOriginalKey env s.scope s.id s.objectKey
  object_session : ∀ o ∈ h.objects, ∃ s ∈ h.sessions, s.id = o.id ∧ s.scope = o.scope ∧
    s.objectKey = o.objectKey ∧ (s.status = .completed ∨ s.status = .aborted)
  variant_key : ∀ v ∈ h.variants, IsVariantKey env v.objectKey
  variant_object : ∀ v ∈ h.variants, ∃ o ∈ h.objects, o.id = v.mediaObjectId
  export_placed : ∀ j ∈ h.exportJobs, j.WellPlaced env.settings

theorem wellKept_empty (env : Env) : WellKept env Backend.empty.holdings where
  session_key _ hs := absurd hs (Table.not_mem_empty _)
  object_session _ ho := absurd ho (Table.not_mem_empty _)
  variant_key _ hv := absurd hv (Table.not_mem_empty _)
  variant_object _ hv := absurd hv (Table.not_mem_empty _)
  export_placed _ hj := absurd hj (Table.not_mem_empty _)

namespace WellKept

variable {env : Env} {h h' : Holdings}

theorem object_key (hk : WellKept env h) {o : MediaObject} (ho : o ∈ h.objects) :
    IsOriginalKey env o.scope o.id o.objectKey := by
  obtain ⟨s, hs, hid, hscope, hkey, -⟩ := hk.object_session o ho
  rw [← hid, ← hscope, ← hkey]
  exact hk.session_key s hs

end WellKept

theorem IsOriginalKey.id_eq {env : Env} {scope scope' : Scope} {id id' : UUID} {key : String}
    (h : IsOriginalKey env scope id key) (h' : IsOriginalKey env scope' id' key) : id = id' := by
  obtain ⟨c, f, rfl⟩ := h
  obtain ⟨c', f', he⟩ := h'
  exact (buildObjectKey_inj he).2.2

theorem IsOriginalKey.not_variant {env : Env} {scope : Scope} {id : UUID} {key : String}
    (h : IsOriginalKey env scope id key) : ¬ IsVariantKey env key := by
  obtain ⟨c, f, rfl⟩ := h
  rintro ⟨o, m, c', v, f', t, he⟩
  exact buildObjectKey_ne_buildVariantKey _ _ _ _ _ _ _ _ _ _ _ he

theorem IsOriginalKey.ne_exportTarget {env : Env} {scope : Scope} {id : UUID} {key : String}
    (h : IsOriginalKey env scope id key) (settings : Settings) (owner job : UUID)
    (tenant : Option UUID) : key ≠ (exportTarget settings owner job tenant).objectKey := by
  obtain ⟨c, f, rfl⟩ := h
  exact buildObjectKey_ne_buildExportArchiveKey _ _ _ _ _ _ _ _

namespace WellKept

variable {env : Env} {h h' : Holdings}

/-- No two objects are stored under one key. -/
theorem id_eq_of_key_eq (hk : WellKept env h) {o o' : MediaObject} (ho : o ∈ h.objects)
    (ho' : o' ∈ h.objects) (he : o.objectKey = o'.objectKey) : o.id = o'.id :=
  (hk.object_key ho).id_eq (he ▸ hk.object_key ho')

/-- Until its session is closed, an upload has no object. -/
theorem find_object_eq_none (hk : WellKept env h) {s : UploadSession}
    (hs : s ∈ h.sessions) (hc : s.status ≠ .completed) (ha : s.status ≠ .aborted) :
    h.objects.find s.id = none := by
  rw [Table.find_eq_none]
  intro o ho hid
  obtain ⟨s', hs', hid', -, -, hst⟩ := hk.object_session o ho
  rw [Table.eq_of_key_eq hs hs' (hid.symm.trans hid'.symm)] at hc ha
  exact hst.elim hc ha

/-- A key that is some session's own is no other id's object's. -/
theorem location_ne_of_find_none (hk : WellKept env h) {scope : Scope} {id : UUID} {l : Location}
    (hkey : IsOriginalKey env scope id l.objectKey) (hnone : h.objects.find id = none) :
    ∀ o ∈ h.objects, o.location ≠ l := by
  rintro o ho rfl
  exact Table.find_eq_none.mp hnone o ho ((hk.object_key ho).id_eq hkey)

theorem location_ne_of_variantKey (hk : WellKept env h) {l : Location}
    (hkey : IsVariantKey env l.objectKey) : ∀ o ∈ h.objects, o.location ≠ l := by
  rintro o ho rfl
  exact (hk.object_key ho).not_variant hkey

end WellKept

theorem Holdings.Promoted.find {h : Holdings} {id : UUID} (hp : h.Promoted id) :
    ∃ s, h.sessions.find id = some s ∧ s.status = .completed := by
  obtain ⟨s, hs, rfl, hst⟩ := hp
  exact ⟨s, Table.find_of_mem hs, hst⟩

/-! ### Sessions along a move -/

/-- A session as a move finds it and as it leaves it. -/
def Persists (s s' : UploadSession) : Prop :=
  s'.id = s.id ∧ s'.scope = s.scope ∧ s'.objectKey = s.objectKey ∧
    (s.status = .completed → s'.status = .completed) ∧
    (s.status = .aborted → s'.status = .aborted)

theorem Persists.refl (s : UploadSession) : Persists s s := ⟨rfl, rfl, rfl, id, id⟩

/-- Writing over an initiated session leaves every session in place. -/
theorem persists_update {t : Table UploadSession.id} {s r : UploadSession}
    (hf : t.find s.id = some s) (hst : s.status = .initiated) (hid : r.id = s.id)
    (hscope : r.scope = s.scope) (hkey : r.objectKey = s.objectKey) {q : UploadSession}
    (hq : q ∈ t) : ∃ q' ∈ t.update r, Persists q q' := by
  have hmem := @Table.mem_update _ _ _ _ t r s (by rw [hid, hf])
  by_cases hk : q.id = r.id
  · obtain rfl := Table.eq_of_key_eq hq (Table.mem_of_find hf) (hk.trans hid)
    refine ⟨r, hmem.mpr (.inl rfl), hid, hscope, hkey, ?_, ?_⟩ <;> simp [hst]
  · exact ⟨q, hmem.mpr (.inr ⟨hq, hk⟩), .refl q⟩

theorem Moves.session_persists {env : Env} {m : Move} {h h' : Holdings} (hm : Moves env m h h')
    {s : UploadSession} (hs : s ∈ h.sessions) : ∃ s' ∈ h'.sessions, Persists s s' := by
  cases hm with
  | opened _ _ ht => exact ⟨s, (Table.mem_insert ht).mpr (.inl hs), .refl s⟩
  | @closed h t hc =>
    rcases hc s.id with he | ⟨q, st, hq, hnc, hst, hfind⟩
    · rw [Table.find_of_mem hs] at he
      exact ⟨s, Table.mem_of_find he, .refl s⟩
    · obtain rfl := Option.some.inj ((Table.find_of_mem hs).symm.trans hq)
      refine ⟨_, Table.mem_of_find hfind, rfl, rfl, rfl, fun h => absurd h hnc, fun ha => ?_⟩
      rcases hst with rfl | ⟨hi, -⟩
      · rfl
      · rw [ha] at hi
        cases hi
  | promoted hf hst _ _ _ => refine persists_update hf hst ?_ ?_ ?_ hs <;> rfl
  | rejected hf hst _ _ => refine persists_update hf hst ?_ ?_ ?_ hs <;> rfl
  | _ => exact ⟨s, hs, .refl s⟩

/-- A session a move leaves was there before it, or is the one it opened. -/
theorem Moves.session_origin {env : Env} {m : Move} {h h' : Holdings} (hm : Moves env m h h')
    {s' : UploadSession} (hs' : s' ∈ h'.sessions) :
    (∃ s ∈ h.sessions, s'.id = s.id ∧ s'.scope = s.scope ∧ s'.objectKey = s.objectKey) ∨
      IsOriginalKey env s'.scope s'.id s'.objectKey := by
  have hupd : ∀ {t : Table UploadSession.id} {s r : UploadSession}, t.find s.id = some s →
      r.id = s.id → r.scope = s.scope → r.objectKey = s.objectKey → s' ∈ t.update r →
      ∃ s ∈ t, s'.id = s.id ∧ s'.scope = s.scope ∧ s'.objectKey = s.objectKey := by
    intro t s r hf hid hscope hkey hmem
    rcases (Table.mem_update (by rw [hid, hf])).mp hmem with rfl | ⟨hq, -⟩
    · exact ⟨s, Table.mem_of_find hf, hid, hscope, hkey⟩
    · exact ⟨s', hq, rfl, rfl, rfl⟩
  cases hm with
  | opened _ hkey ht =>
    rcases (Table.mem_insert ht).mp hs' with hs | rfl
    · exact .inl ⟨s', hs, rfl, rfl, rfl⟩
    · exact .inr hkey
  | closed hc =>
    left
    rcases hc s'.id with he | ⟨q, st, hq, -, -, hfind⟩
    · rw [Table.find_of_mem hs'] at he
      exact ⟨s', Table.mem_of_find he.symm, rfl, rfl, rfl⟩
    · obtain rfl := Option.some.inj ((Table.find_of_mem hs').symm.trans hfind)
      exact ⟨q, Table.mem_of_find hq, rfl, rfl, rfl⟩
  | promoted hf _ _ _ _ => refine .inl (hupd hf ?_ ?_ ?_ hs') <;> rfl
  | rejected hf _ _ _ => refine .inl (hupd hf ?_ ?_ ?_ hs') <;> rfl
  | _ => exact .inl ⟨s', hs', rfl, rfl, rfl⟩

theorem Moves.promoted_mono {env : Env} {m : Move} {h h' : Holdings} (hm : Moves env m h h')
    {id : UUID} (hp : h.Promoted id) : h'.Promoted id := by
  obtain ⟨s, hs, rfl, hst⟩ := hp
  obtain ⟨s', hs', hid, -, -, hc, -⟩ := hm.session_persists hs
  exact ⟨s', hs', hid, hc hst⟩

/-- Only a promotion promotes, and only the object it inserts. -/
theorem Moves.promoted_origin {env : Env} {m : Move} {h h' : Holdings} (hm : Moves env m h h')
    {id : UUID} (hp : h'.Promoted id) : h.Promoted id ∨ ∃ o, m = .promoted o ∧ o.id = id := by
  obtain ⟨s', hs', rfl, hst⟩ := hp
  cases hm with
  | opened hi _ ht =>
    rcases (Table.mem_insert ht).mp hs' with hs | rfl
    · exact .inl ⟨s', hs, rfl, hst⟩
    · rw [hi] at hst
      cases hst
  | closed hc =>
    left
    rcases hc s'.id with he | ⟨q, st, hq, hnc, hor, hfind⟩
    · rw [Table.find_of_mem hs'] at he
      exact ⟨s', Table.mem_of_find he.symm, rfl, hst⟩
    · obtain rfl := Option.some.inj ((Table.find_of_mem hs').symm.trans hfind)
      rcases hor with rfl | ⟨-, rfl⟩ <;> cases hst
  | promoted hf _ ho _ _ =>
    rcases (Table.mem_update (by exact hf)).mp hs' with rfl | ⟨hs, -⟩
    · exact .inr ⟨_, rfl, by rw [ho]; rfl⟩
    · exact .inl ⟨s', hs, rfl, hst⟩
  | rejected hf _ _ _ =>
    rcases (Table.mem_update (by exact hf)).mp hs' with rfl | ⟨hs, -⟩
    · cases hst
    · exact .inl ⟨s', hs, rfl, hst⟩
  | _ => exact .inl ⟨s', hs', rfl, hst⟩

/-- A promotion leaves its object held. -/
theorem Moves.holds_of_promoted {env : Env} {o : MediaObject} {h h' : Holdings}
    (hm : Moves env (.promoted o) h h') : h'.Holds o := by
  cases hm with
  | promoted hf _ ho _ ht =>
    refine ⟨(Table.mem_insert ht).mpr (.inr rfl), by rw [ho]; rfl, _,
      Table.mem_of_find (Table.find_update_self (by exact hf)), by rw [ho]; rfl, rfl⟩

/-- A rejection leaves its object unpromoted. -/
theorem Moves.not_promoted_of_rejected {env : Env} {o : MediaObject} {h h' : Holdings}
    (hm : Moves env (.rejected o) h h') : ¬ h'.Promoted o.id := by
  intro hp
  rcases hm.promoted_origin hp with hp | ⟨q, hq, -⟩
  · obtain ⟨s', hs', hst⟩ := hp.find
    cases hm with
    | rejected hf hi ho _ =>
      rw [ho] at hs'
      rw [Option.some.inj (hs'.symm.trans hf), hi] at hst
      cases hst
  · cases hq

/-- Two rows that stand for the same stored bytes of the same scope. -/
structure SameHolding (o o' : MediaObject) : Prop where
  id_eq : o'.id = o.id
  scope_eq : o'.scope = o.scope
  objectKey_eq : o'.objectKey = o.objectKey
  sizeBytes_eq : o'.sizeBytes = o.sizeBytes
  deletedAt_eq : o'.deletedAt = o.deletedAt

/-- Verdicts and patches rewrite a row that is there, as the same holding. -/
theorem Moves.same_of_judged {env : Env} {o o' : MediaObject} {h h' : Holdings}
    (hm : Moves env (.judged o o') h h') : o ∈ h.objects ∧ SameHolding o o' := by
  cases hm with
  | judged ho hor => rcases hor with rfl | rfl <;> exact ⟨ho, rfl, rfl, rfl, rfl, rfl⟩

theorem Moves.same_of_patched {env : Env} {o o' : MediaObject} {h h' : Holdings}
    (hm : Moves env (.patched o o') h h') : o ∈ h.objects ∧ SameHolding o o' := by
  cases hm with
  | patched ho _ ho' _ =>
    subst ho'
    exact ⟨ho, rfl, rfl, rfl, rfl, rfl⟩

/-- No other move promotes or demotes anything. -/
theorem Moves.isPromoted_eq {env : Env} {m : Move} {h h' : Holdings} (hm : Moves env m h h')
    {id : UUID} (hne : ∀ o, m = .promoted o → o.id ≠ id) : h'.isPromoted id = h.isPromoted id := by
  rw [Bool.eq_iff_iff, Holdings.isPromoted_iff, Holdings.isPromoted_iff]
  refine ⟨fun hp => (hm.promoted_origin hp).resolve_right ?_, hm.promoted_mono⟩
  rintro ⟨o, ho, hid⟩
  exact hne o ho hid

/-! ### Every move keeps the holdings well kept -/

namespace WellKept

variable {env : Env} {m : Move} {h h' : Holdings}

/-- An object keeps its session through any move that keeps its id, scope and key. -/
theorem session_after (hk : WellKept env h) (hm : Moves env m h h') {o o' : MediaObject}
    (ho : o ∈ h.objects) (hid : o'.id = o.id) (hscope : o'.scope = o.scope)
    (hkey : o'.objectKey = o.objectKey) :
    ∃ s ∈ h'.sessions, s.id = o'.id ∧ s.scope = o'.scope ∧ s.objectKey = o'.objectKey ∧
      (s.status = .completed ∨ s.status = .aborted) := by
  obtain ⟨s, hs, hsid, hsscope, hskey, hst⟩ := hk.object_session o ho
  obtain ⟨s', hs', hid', hscope', hkey', hc, ha⟩ := hm.session_persists hs
  exact ⟨s', hs', by rw [hid', hsid, hid], by rw [hscope', hsscope, hscope],
    by rw [hkey', hskey, hkey], hst.imp hc ha⟩

/-- Where an object's row is rewritten under its id, scope and key. -/
theorem objects_update (hk : WellKept env h) {o o' : MediaObject} (hm : Moves env m h h')
    (hobj : h'.objects = h.objects.update o') (ho : o ∈ h.objects)
    (hid : o'.id = o.id) (hscope : o'.scope = o.scope) (hkey : o'.objectKey = o.objectKey) :
    ∀ q ∈ h'.objects, ∃ s ∈ h'.sessions, s.id = q.id ∧ s.scope = q.scope ∧
      s.objectKey = q.objectKey ∧ (s.status = .completed ∨ s.status = .aborted) := by
  intro q hq
  rw [hobj] at hq
  rcases (Table.mem_update (by rw [hid, Table.find_of_mem ho])).mp hq with rfl | ⟨hq, -⟩
  · exact hk.session_after hm ho hid hscope hkey
  · exact hk.session_after hm hq rfl rfl rfl

/-- Where an object's row is inserted as its session closes over `r`. -/
theorem objects_insert (hk : WellKept env h) {o : MediaObject} {t : Table MediaObject.id}
    {r : UploadSession} (hm : Moves env m h h') (ht : h.objects.insert o = some t)
    (hobj : h'.objects = t) (hr : r ∈ h'.sessions) (hid : r.id = o.id) (hscope : r.scope = o.scope)
    (hkey : r.objectKey = o.objectKey) (hst : r.status = .completed ∨ r.status = .aborted) :
    ∀ q ∈ h'.objects, ∃ s ∈ h'.sessions, s.id = q.id ∧ s.scope = q.scope ∧
      s.objectKey = q.objectKey ∧ (s.status = .completed ∨ s.status = .aborted) := by
  intro q hq
  rw [hobj] at hq
  rcases (Table.mem_insert ht).mp hq with hq | rfl
  · exact hk.session_after hm hq rfl rfl rfl
  · exact ⟨r, hr, hid, hscope, hkey, hst⟩

theorem object_session_move (hk : WellKept env h) (hm : Moves env m h h') :
    ∀ o ∈ h'.objects, ∃ s ∈ h'.sessions, s.id = o.id ∧ s.scope = o.scope ∧
      s.objectKey = o.objectKey ∧ (s.status = .completed ∨ s.status = .aborted) := by
  have hmv := hm
  cases hm with
  | promoted hf _ ho _ ht =>
    refine hk.objects_insert hmv ht rfl (Table.mem_of_find (Table.find_update_self (by exact hf)))
      ?_ ?_ ?_ (.inl rfl) <;> rw [ho] <;> rfl
  | rejected hf _ ho ht =>
    refine hk.objects_insert hmv ht rfl (Table.mem_of_find (Table.find_update_self (by exact hf)))
      ?_ ?_ ?_ (.inr rfl) <;> rw [ho] <;> rfl
  | judged ho ho' =>
    rcases ho' with rfl | rfl <;> exact hk.objects_update hmv rfl ho rfl rfl rfl
  | patched ho _ ho' _ =>
    subst ho'
    exact hk.objects_update hmv rfl ho rfl rfl rfl
  | softDeleted ho _ ho' =>
    subst ho'
    exact hk.objects_update hmv rfl ho rfl rfl rfl
  | purged _ => exact fun o ho => hk.session_after hmv (Table.mem_erase.mp ho).1 rfl rfl rfl
  | _ => exact fun o ho => hk.session_after hmv ho rfl rfl rfl

theorem variant_key_move (hk : WellKept env h) (hm : Moves env m h h') :
    ∀ v ∈ h'.variants, IsVariantKey env v.objectKey := by
  cases hm with
  | purged _ => exact fun v hv => hk.variant_key v (Table.mem_filter.mp hv).1
  | registered hkey _ ht =>
    intro v hv
    rcases (ht v).mp hv with rfl | ⟨hv, -⟩
    · exact hkey
    · exact hk.variant_key v hv
  | unregistered => exact fun v hv => hk.variant_key v (Table.mem_erase.mp hv).1
  | _ => exact hk.variant_key

/-- An id that names an object keeps naming one, unless it is purged. -/
theorem object_persists (hm : Moves env m h h') {o : MediaObject} (ho : o ∈ h.objects)
    (hp : m ≠ .purged o.id) : ∃ o' ∈ h'.objects, o'.id = o.id := by
  have hupd : ∀ {r : MediaObject}, ∃ o' ∈ h.objects.update r, o'.id = o.id := by
    intro r
    have hsome := Table.find_update_isSome h.objects r o.id
    rw [Table.find_of_mem ho, Option.isSome_some, Option.isSome_iff_exists] at hsome
    obtain ⟨o', ho'⟩ := hsome
    exact ⟨o', Table.mem_of_find ho', Table.key_of_find ho'⟩
  cases hm with
  | promoted _ _ _ _ ht => exact ⟨o, (Table.mem_insert ht).mpr (.inl ho), rfl⟩
  | rejected _ _ _ ht => exact ⟨o, (Table.mem_insert ht).mpr (.inl ho), rfl⟩
  | judged _ _ => exact hupd
  | patched _ _ _ _ => exact hupd
  | softDeleted _ _ _ => exact hupd
  | purged _ => exact ⟨o, Table.mem_erase.mpr ⟨ho, fun he => hp (by rw [he])⟩, rfl⟩
  | _ => exact ⟨o, ho, rfl⟩

theorem variant_object_move (hk : WellKept env h) (hm : Moves env m h h') :
    ∀ v ∈ h'.variants, ∃ o ∈ h'.objects, o.id = v.mediaObjectId := by
  have hold : ∀ v ∈ h.variants, m ≠ .purged v.mediaObjectId →
      ∃ o ∈ h'.objects, o.id = v.mediaObjectId := by
    intro v hv hp
    obtain ⟨o, ho, hid⟩ := hk.variant_object v hv
    rw [← hid] at hp ⊢
    exact object_persists hm ho hp
  cases hm with
  | purged _ =>
    intro v hv
    rw [Table.mem_filter, decide_eq_true_eq] at hv
    exact hold v hv.1 (fun he => hv.2 (Move.purged.inj he).symm)
  | registered _ hobj ht =>
    intro v hv
    rcases (ht v).mp hv with rfl | ⟨hv, -⟩
    · exact hobj
    · exact hold v hv (by simp)
  | unregistered => exact fun v hv => hold v (Table.mem_erase.mp hv).1 (by simp)
  | _ => exact fun v hv => hold v hv (by simp)

theorem move (hk : WellKept env h) (hm : Moves env m h h') : WellKept env h' where
  session_key s' hs' := by
    rcases hm.session_origin hs' with ⟨s, hs, hid, hscope, hkey⟩ | hkey
    · rw [hid, hscope, hkey]
      exact hk.session_key s hs
    · exact hkey
  object_session := hk.object_session_move hm
  variant_key := hk.variant_key_move hm
  variant_object := hk.variant_object_move hm
  export_placed := by
    cases hm with
    | exported ht => exact ht
    | _ => exact hk.export_placed

end WellKept

/-! ### Sequences of moves -/

/-- Some moves of an allowed kind lead from the first holdings to the second. -/
def MovesTo (env : Env) (C : Move → Prop) : Holdings → Holdings → Prop :=
  Relation.ReflTransGen fun h h' => ∃ m, C m ∧ Moves env m h h'

namespace MovesTo

variable {env : Env} {C D : Move → Prop} {h h' h'' : Holdings}

theorem refl (h : Holdings) : MovesTo env C h h := Relation.ReflTransGen.refl

theorem of_eq (he : h' = h) : MovesTo env C h h' := by
  rw [he]
  exact refl h

theorem single {m : Move} (hc : C m) (hm : Moves env m h h') : MovesTo env C h h' :=
  Relation.ReflTransGen.single ⟨m, hc, hm⟩

theorem trans (h₁ : MovesTo env C h h') (h₂ : MovesTo env C h' h'') : MovesTo env C h h'' :=
  Relation.ReflTransGen.trans h₁ h₂

theorem mono (hCD : ∀ m, C m → D m) (hm : MovesTo env C h h') : MovesTo env D h h' := by
  refine Relation.ReflTransGen.mono ?_ _ _ hm
  rintro a b ⟨m, hc, hstep⟩
  exact ⟨m, hCD m hc, hstep⟩

/-- What every allowed move preserves, a sequence of them preserves. -/
theorem preserves {I : Holdings → Prop} (hm : MovesTo env C h h')
    (hstep : ∀ m h h', C m → Moves env m h h' → I h → I h') (hI : I h) : I h' := by
  induction hm with
  | refl => exact hI
  | tail _ hlast ih =>
    obtain ⟨m, hc, hm⟩ := hlast
    exact hstep m _ _ hc hm ih

theorem wellKept (hm : MovesTo env C h h') (hk : WellKept env h) : WellKept env h' :=
  hm.preserves (fun _ _ _ _ hm hk => hk.move hm) hk

end MovesTo

end MediaService
