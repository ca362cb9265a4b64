import MediaService.Concurrency.RelocationTiers

/-! Which two requests on one object may run at once. A run whose operations all
go through is a run of the moves between tiers, and every run of the moves whose
copies find the object is one of the requests, so the requests keep the object's
bytes in every interleaving exactly if they do not clash. -/

namespace MediaService

open Foundation

/-! ### Steps that go through -/

theorem copyObject_isSome {st : Storage} {src : Location} (dest : Location)
    (h : (st.content src).isSome = true) :
    (st.copyObject Faults.none src dest).isSome = true := by
  rw [Storage.content, Option.isSome_map] at h
  change (Option.map _ (st.find src)).isSome = true
  rw [Option.isSome_map]
  exact h

theorem relocateForVisibility_isOk {settings : Settings} {st : Storage} {q : MediaObject}
    {v : Option MediaVisibility}
    (h : ∀ w, v = some w → ¬ (w = q.visibility ∨ bucketForVisibility settings w = q.storageBucket) →
      (st.content q.location).isSome = true) :
    (relocateForVisibility settings st Faults.none q v).isOk = true := by
  unfold relocateForVisibility
  cases v with
  | none => rfl
  | some w =>
    dsimp only
    by_cases hstays : w = q.visibility ∨ bucketForVisibility settings w = q.storageBucket
    · rw [if_pos hstays]
      rfl
    · rw [if_neg hstays]
      obtain ⟨st', hst'⟩ := Option.isSome_iff_exists.mp
        (copyObject_isSome ⟨bucketForVisibility settings w, q.objectKey⟩ (h w rfl hstays))
      rw [hst']
      rfl

theorem archiveDeletedBytes_isSome {settings : Settings} {st : Storage} {q : MediaObject}
    (hne : q.storageBucket ≠ bucketForStorageClass settings .archive)
    (h : (st.content q.location).isSome = true) :
    (archiveDeletedBytes settings st Faults.none q).2.isSome = true := by
  unfold archiveDeletedBytes
  dsimp only
  rw [if_neg hne]
  obtain ⟨st', hst'⟩ := Option.isSome_iff_exists.mp
    (copyObject_isSome ⟨bucketForStorageClass settings .archive, q.objectKey⟩ h)
  rw [hst']
  rfl

theorem updateObject_isOk {db : Database} {q : MediaObject}
    (h : ∀ p ∈ db.objects, p.id ≠ q.id → p.objectKey ≠ q.objectKey) :
    ∃ db', db.updateObject q = .ok db' := by
  refine ⟨{ db with objects := db.objects.update q }, ?_⟩
  rw [Database.updateObject, Database.locationTaken_eq_false.mpr fun p hp hne hl =>
    h p hp hne (congrArg Location.objectKey hl)]
  rfl

theorem write_storable {u : MediaObjectUpdate} (hu : u.Storable) (q current : MediaObject)
    (bucket : Option String) (now : Timestamp) :
    ∃ q', u.write q current bucket now = some q' ∧ q'.id = current.id ∧
      q'.objectKey = current.objectKey := by
  obtain ⟨visibility, filename, category, ids⟩ := u
  obtain ⟨hv, hc⟩ := hu
  unfold MediaObjectUpdate.write
  rcases visibility with _ | _ | v
  · rcases category with _ | _ | k
    · exact ⟨_, rfl, rfl, rfl⟩
    · exact absurd rfl hc
    · exact ⟨_, rfl, rfl, rfl⟩
  · exact absurd rfl hv
  · rcases category with _ | _ | k
    · exact ⟨_, rfl, rfl, rfl⟩
    · exact absurd rfl hc
    · exact ⟨_, rfl, rfl, rfl⟩

section Law

variable {env : Env} {hb : env.settings.BucketsApart} {id : UUID} {o : MediaObject} {c : Bytes}
  {db : Database} {requests : Bool → ObjectRequest} {s : Parties Bool Backend RelocationPlace}
  {t : Parties Bool (TierState String MediaVisibility) (MoverPlace String MediaVisibility)}

/-- What a copying request read it finds, if its move does. -/
theorem Tracks.finds (h : Tracks hb id o c db requests s t) {i : Bool} {q : MediaObject}
    {card : Card String MediaVisibility} (hp' : t.place i = .loaded card)
    (hread : ReadTracks id o c s.shared.storage q card)
    (hfinds : CopyFinds (env.settings.tiers hb) (asksOf env db o requests) t i)
    (hmoves : ((asksOf env db o requests i).target (env.settings.tiers hb) card).isSome = true) :
    (s.shared.storage.content q.location).isSome = true := by
  rw [CopyFinds, hp'] at hfinds
  have hcopy := (h.shared.copies card.bucket).mp (hfinds hmoves)
  obtain ⟨-, hkey, hcard, -⟩ := hread
  have hl : q.location = ⟨card.bucket, o.objectKey⟩ := by
    rw [← hcard, ← hkey]
    rfl
  rw [hl, hcopy]
  rfl

/-- With a store that does not fail, a step of the race goes through if the move
beside it finds what it copies. -/
theorem Tracks.succeeds (h : Tracks hb id o c db requests s t) (now : Timestamp) {i : Bool}
    (hfinds : CopyFinds (env.settings.tiers hb) (asksOf env db o requests) t i) :
    StepSucceeds env s.shared (s.place i) ⟨now, Faults.none⟩ := by
  have hplace := h.place i
  obtain ⟨current, hcurrent, hckey, -, -⟩ := h.shared.row
  have hcid : current.id = id := Table.key_of_find hcurrent
  have hfree : ∀ q' : MediaObject, q'.id = current.id → q'.objectKey = current.objectKey →
      ∃ db', s.shared.db.updateObject q' = .ok db' := fun q' hid hkey =>
    updateObject_isOk fun p hp hne => by
      rw [hkey, hckey]
      exact h.shared.apart p hp (by rwa [hid, hcid] at hne)
  cases hp : s.place i with
  | copyFor u q categories =>
    cases hp' : t.place i with
    | loaded card =>
      rw [hp, hp'] at hplace
      obtain ⟨hask, -, hread⟩ := hplace
      refine relocateForVisibility_isOk fun w hw hmoves => h.finds hp' hread hfinds ?_
      have hcard : q.card = card := hread.2.2.1
      rw [← hask, MediaObjectUpdate.ask, hw, ← hcard]
      change (if w = q.visibility ∨ bucketForVisibility env.settings w = q.storageBucket
        then none else some (bucketForVisibility env.settings w)).isSome = true
      rw [if_neg hmoves]
      rfl
    | _ => rw [hp, hp'] at hplace; exact hplace.elim
  | commitPatch u q categories bucket =>
    cases hp' : t.place i with
    | copied card =>
      rw [hp, hp'] at hplace
      obtain ⟨-, hstorable, hread, -, -⟩ := hplace
      obtain ⟨q', hwrite, hid, hkey⟩ := write_storable hstorable q current bucket now
      obtain ⟨db', hdb'⟩ := hfree q' hid hkey
      change (commitPatchedRow s.shared.db now u q categories bucket).isOk = true
      unfold commitPatchedRow
      rw [hread.1, hcurrent]
      simp only [Option.bind_some, hwrite, hdb']
      cases categories <;> rfl
    | _ => rw [hp, hp'] at hplace; exact hplace.elim
  | archive q =>
    cases hp' : t.place i with
    | loaded card =>
      rw [hp, hp'] at hplace
      obtain ⟨hask, hread⟩ := hplace
      by_cases hthere : q.storageBucket = bucketForStorageClass env.settings .archive
      · exact .inl hthere
      · refine .inr (archiveDeletedBytes_isSome hthere (h.finds hp' hread hfinds ?_))
        have hcard : q.card = card := hread.2.2.1
        rw [hask, ← hcard]
        change (if q.storageBucket = bucketForStorageClass env.settings .archive then none
          else some (bucketForStorageClass env.settings .archive)).isSome = true
        rw [if_neg hthere]
        rfl
    | _ => rw [hp, hp'] at hplace; exact hplace.elim
  | commitDelete q bucket =>
    cases hp' : t.place i with
    | copied card =>
      rw [hp, hp'] at hplace
      obtain ⟨-, hread, -, -⟩ := hplace
      change (commitDeletedRow s.shared.db now q bucket).isOk = true
      unfold commitDeletedRow
      rw [hread.1, hcurrent]
      dsimp only
      obtain ⟨db', hdb'⟩ := hfree { current with
        storageBucket := bucket.getD current.storageBucket
        deletedAt := some now
        status := column .deleted q.status current.status
        updatedAt := now } rfl rfl
      rw [hdb']
      rfl
    | _ => rw [hp, hp'] at hplace; exact hplace.elim
  | drop l answer => rfl
  | read _ => trivial
  | reread => trivial
  | finished _ => trivial

/-! ### Whole runs -/

theorem PlaceTracks.ended {a : Ask MediaVisibility} {request : ObjectRequest} {st : Storage}
    {p : RelocationPlace} {p' : MoverPlace String MediaVisibility}
    (h : PlaceTracks hb id o c a request st p p') : p.Ended ↔ p'.Ended := by
  cases p <;> cases p' <;> first | exact h.elim | exact Iff.rfl

/-- The law of the bytes is the law of the tiers. -/
theorem SharedTracks.lawful_iff {b : Backend} {σ : TierState String MediaVisibility}
    (h : SharedTracks env.settings id o c db b σ) :
    BytesLawful env.settings id c b ↔ σ.Lawful (env.settings.tiers hb) := by
  obtain ⟨q, hq, hkey, -, hcard⟩ := h.row
  have hl : q.location = ⟨σ.card.bucket, o.objectKey⟩ := by
    rw [← hcard, ← hkey]
    rfl
  have hlive : σ.card.live = true ↔ q.deletedAt = none := by
    rw [← hcard]
    exact Option.isNone_iff_eq_none
  have hvis : σ.card.visibility = q.visibility := by rw [← hcard]; rfl
  have hpub : (b.storage.content ⟨env.settings.s3BucketPublic, o.objectKey⟩).isSome = true ↔
      (env.settings.tiers hb).home (env.settings.tiers hb).pub ∈ σ.copies := by
    rw [h.copies]
    change _ ↔ b.storage.content ⟨env.settings.s3BucketPublic, o.objectKey⟩ = some c
    rw [Option.isSome_iff_exists]
    exact ⟨fun ⟨c', hc'⟩ => by rw [hc', h.cleanPublic c' hc'], fun hc => ⟨c, hc⟩⟩
  unfold BytesLawful TierState.Lawful
  rw [h.copies, hlive, hvis, ← hpub]
  constructor
  · rintro ⟨q', hq', hbytes, hshown⟩
    obtain rfl : q = q' := Option.some.inj (hq.symm.trans hq')
    rw [hl] at hbytes
    rw [hkey] at hshown
    exact ⟨hbytes, hshown⟩
  · rintro ⟨hbytes, hshown⟩
    exact ⟨q, hq, by rw [hl]; exact hbytes, by rw [hkey]; exact hshown⟩

variable {b : Backend}

theorem RelocationReady.atHome (h : RelocationReady env.settings b id o c) :
    o.card.AtHome (env.settings.tiers hb) :=
  fun hlive => h.home (Option.isNone_iff_eq_none.mp hlive)

theorem RelocationReady.sharedTracks (h : RelocationReady env.settings b id o c) :
    SharedTracks env.settings id o c b.db b ⟨o.card, copiesOf b.storage o.objectKey c⟩ := by
  have hclean : Clean b.storage o.objectKey c o.storageBucket := fun c' hc' =>
    Option.some.inj (hc'.symm.trans h.bytes)
  refine ⟨⟨o, h.row, rfl, rfl, rfl⟩, rfl, h.apart, fun x => mem_copiesOf, hclean,
    fun c' hc' => ?_⟩
  obtain ⟨hlive, hpub⟩ := h.shown (Option.isSome_iff_exists.mpr ⟨c', hc'⟩)
  refine hclean c' ?_
  rw [h.home hlive, hpub]
  exact hc'

theorem RelocationReady.lawful (h : RelocationReady env.settings b id o c) :
    (⟨o.card, copiesOf b.storage o.objectKey c⟩ : TierState String MediaVisibility).Lawful
      (env.settings.tiers hb) :=
  h.sharedTracks.lawful_iff.mp ⟨o, h.row, h.bytes, h.shown⟩

/-- The state at the start, and as the race goes on, beside the moves. -/
abbrev RaceTracks (hb : env.settings.BucketsApart) (id : UUID) (o : MediaObject) (c : Bytes)
    (db : Database) (requests : Bool → ObjectRequest)
    (s : Parties Bool Backend RelocationPlace)
    (t : Parties Bool (TierState String MediaVisibility) (MoverPlace String MediaVisibility)) :
    Prop :=
  Tracks hb id o c db requests s t ∧ Origin (env.settings.tiers hb) (asksOf env db o requests)
    o.card t

theorem RelocationReady.tracks (h : RelocationReady env.settings b id o c)
    (requests : Bool → ObjectRequest) :
    RaceTracks hb id o c b.db requests (relocationStart b requests)
      (moverStart o.card (copiesOf b.storage o.objectKey c)) :=
  ⟨⟨h.sharedTracks, fun _ => rfl⟩, origin_run _ _ _ _ []⟩

variable (hb) in
/-- A run that goes through is a run of the moves. -/
theorem tracks_run (h : RelocationReady env.settings b id o c)
    (hbodies : ∀ i, (requests i).Storable) {ms : List (Bool × Moment)}
    (hms : Guarded (relocationTurn env id) (fun s m => StepSucceeds env s.shared (s.place m.1) m.2)
      (relocationStart b requests) ms) :
    RaceTracks hb id o c b.db requests
      (run (relocationTurn env id) (relocationStart b requests) ms)
      (run (moverTurn (env.settings.tiers hb) (asksOf env b.db o requests))
        (moverStart o.card (copiesOf b.storage o.objectKey c)) (ms.map fun m => (m.1, ()))) :=
  run_simulates (R := RaceTracks hb id o c b.db requests)
    (fun _ _ m h' hm => ⟨h'.1.turn hbodies h.atHome h'.2 m.1 m.2 hm, h'.2.turn m.1⟩)
    (h.tracks requests) hms

/-- A run of the moves that finds what it copies is a run that goes through. -/
theorem tracks_moves (h : RelocationReady env.settings b id o c)
    (hbodies : ∀ i, (requests i).Storable) {is : List (Bool × Unit)}
    (his : Guarded (moverTurn (env.settings.tiers hb) (asksOf env b.db o requests))
      (fun t m => CopyFinds (env.settings.tiers hb) (asksOf env b.db o requests) t m.1)
      (moverStart o.card (copiesOf b.storage o.objectKey c)) is) :
    Guarded (relocationTurn env id) (fun s m => StepSucceeds env s.shared (s.place m.1) m.2)
        (relocationStart b requests) (is.map fun m => (m.1, ⟨0, Faults.none⟩)) ∧
      RaceTracks hb id o c b.db requests
        (run (relocationTurn env id) (relocationStart b requests)
          (is.map fun m => (m.1, ⟨0, Faults.none⟩)))
        (run (moverTurn (env.settings.tiers hb) (asksOf env b.db o requests))
          (moverStart o.card (copiesOf b.storage o.objectKey c)) is) := by
  refine Guarded.simulates (R := RaceTracks hb id o c b.db requests)
    (C := fun s m => StepSucceeds env s.shared (s.place m.1) m.2)
    (g := fun m => (m.1, ⟨0, Faults.none⟩)) (fun s t m h' hm => ?_) (h.tracks requests) his
  have hs := h'.1.succeeds 0 hm
  exact ⟨hs, h'.1.turn hbodies h.atHome h'.2 m.1 _ hs, h'.2.turn m.1⟩

/-- In every interleaving in which all goes through, the requests end with the
object's bytes where its row says and no public copy that it does not show. -/
def RelocationKeepsBytes (env : Env) (id : UUID) (c : Bytes) (b : Backend)
    (requests : Bool → ObjectRequest) : Prop :=
  ∀ ms : List (Bool × Moment),
    Guarded (relocationTurn env id) (fun s m => StepSucceeds env s.shared (s.place m.1) m.2)
      (relocationStart b requests) ms →
    (∀ i, ((run (relocationTurn env id) (relocationStart b requests) ms).place i).Ended) →
    BytesLawful env.settings id c
      (run (relocationTurn env id) (relocationStart b requests) ms).shared

/-- Two requests on one object keep its bytes in every interleaving if and only if
they are compatible: the object is deleted, or their moves do not clash. -/
theorem relocationKeepsBytes_iff (hb : env.settings.BucketsApart)
    (h : RelocationReady env.settings b id o c) (hbodies : ∀ i, (requests i).Storable) :
    RelocationKeepsBytes env id c b requests ↔
      Compatible (env.settings.tiers hb) (asksOf env b.db o requests) o.card := by
  constructor
  · intro hkeeps
    refine (compatible_iff h.atHome h.lawful).mpr ?_
    rintro ⟨is, his, hend, hspoilt⟩
    obtain ⟨hms, htracks, -⟩ := tracks_moves h hbodies his
    refine hspoilt (htracks.shared.lawful_iff.mp (hkeeps _ hms fun i => ?_))
    exact (htracks.place i).ended.mpr (hend i)
  · intro hclash ms hms hend
    have htracks := (tracks_run hb h hbodies hms).1
    refine htracks.shared.lawful_iff.mpr
      (lawful_run h.atHome h.lawful hclash _ fun i => ?_)
    exact (htracks.place i).ended.mp (hend i)

end Law

def keptObject : MediaObject := (keptBackend.db.objects.find ⟨2⟩).get (by decide +kernel)

theorem keptObject_ready :
    RelocationReady Env.default.settings keptBackend ⟨2⟩ keptObject pngSignature where
  row := (Option.some_get _).symm
  home := by decide +kernel
  bytes := by decide +kernel
  shown := by decide +kernel
  apart := by decide +kernel

/-- The owner makes the object `v` on one connection and deletes it on the other. -/
def patchAndDelete (v : MediaVisibility) : Bool → ObjectRequest
  | false => .update (.ordinary 1) ⟨some (some v), none, none, none⟩
  | true => .delete (.ordinary 1)

theorem keepsBytes_hide_and_delete :
    RelocationKeepsBytes Env.default ⟨2⟩ pngSignature keptBackend (patchAndDelete .sensitive) :=
  (relocationKeepsBytes_iff (by decide) keptObject_ready (by decide)).mpr (by decide +kernel)

/-- Both read the row and copy; the patch commits and removes, then the deletion. -/
def patchBesideDelete : List (Bool × Moment) :=
  [false, true, false, true, false, true, false, true].map fun i => (i, ⟨0, Faults.none⟩)

instance : (p : RelocationPlace) → Decidable p.Ended
  | .finished _ => inferInstanceAs (Decidable True)
  | .read _ | .copyFor _ _ _ | .commitPatch _ _ _ _ | .archive _ | .commitDelete _ _ | .reread |
    .drop _ _ => inferInstanceAs (Decidable False)

instance (settings : Settings) (id : UUID) (c : Bytes) (b : Backend) :
    Decidable (BytesLawful settings id c b) :=
  decidable_of_iff (∃ o ∈ b.db.objects.find id, b.storage.content o.location = some c ∧
    ((b.storage.content ⟨settings.s3BucketPublic, o.objectKey⟩).isSome = true →
      o.deletedAt = none ∧ o.visibility = .public)) Iff.rfl

theorem not_keepsBytes_publish_and_delete :
    RelocationReady Env.default.settings keptBackend ⟨2⟩ keptObject pngSignature ∧
      ¬ RelocationKeepsBytes Env.default ⟨2⟩ pngSignature keptBackend
        (patchAndDelete .public) := by
  refine ⟨keptObject_ready, fun h => ?_⟩
  have hrun : Guarded (relocationTurn Env.default ⟨2⟩)
      (fun s m => StepSucceeds Env.default s.shared (s.place m.1) m.2)
        (relocationStart keptBackend (patchAndDelete .public)) patchBesideDelete ∧
      (∀ i, ((run (relocationTurn Env.default ⟨2⟩)
        (relocationStart keptBackend (patchAndDelete .public)) patchBesideDelete).place i).Ended) ∧
      ¬ BytesLawful Env.default.settings ⟨2⟩ pngSignature (run (relocationTurn Env.default ⟨2⟩)
        (relocationStart keptBackend (patchAndDelete .public)) patchBesideDelete).shared := by
    decide +kernel
  exact hrun.2.2 (h patchBesideDelete hrun.1 hrun.2.1)

end MediaService
