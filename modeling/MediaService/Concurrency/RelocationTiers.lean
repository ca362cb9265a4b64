import MediaService.Concurrency.RelocationRace
import MediaService.Concurrency.TierClash
import MediaService.Lifecycle.Objects

/-! The relocation race is a race of two moves between tiers. The buckets are the
tiers, a row's visibility, bucket and deletion are the card, and the buckets that
hold the object's bytes under its key are the copies. As long as every storage
operation and every commit goes through, each step of the requests is a step of
the moves, so what holds of every interleaving is read off the requests. -/

namespace MediaService

open Foundation

/-! ### Buckets as tiers -/

/-- The buckets the relocations write are four buckets. -/
def Settings.BucketsApart (settings : Settings) : Prop :=
  [settings.s3BucketPublic, settings.s3BucketPrivate, settings.s3BucketSensitive,
    settings.s3BucketArchive].Nodup

instance (settings : Settings) : Decidable settings.BucketsApart :=
  inferInstanceAs (Decidable (List.Nodup _))

theorem Settings.BucketsApart.eq_public {settings : Settings} (h : settings.BucketsApart)
    (v : MediaVisibility)
    (hv : bucketForVisibility settings v = bucketForVisibility settings .public) :
    v = .public := by
  simp only [Settings.BucketsApart, List.nodup_cons, List.mem_cons, not_or] at h
  cases v with
  | «public» => rfl
  | «private» => exact absurd hv.symm h.1.1
  | sensitive => exact absurd hv.symm h.1.2.1
  | tenant => exact absurd hv.symm h.1.1

theorem Settings.BucketsApart.ne_archive {settings : Settings} (h : settings.BucketsApart)
    (v : MediaVisibility) :
    bucketForVisibility settings v ≠ bucketForStorageClass settings .archive := by
  simp only [Settings.BucketsApart, List.nodup_cons, List.mem_cons, not_or] at h
  cases v with
  | «public» => exact h.1.2.2.1
  | «private» => exact h.2.1.2.1
  | sensitive => exact h.2.2.1.1
  | tenant => exact h.2.1.2.1

/-- A visibility's bucket is its home, the archive bucket the archive. -/
def Settings.tiers (settings : Settings) (h : settings.BucketsApart) :
    Tiers String MediaVisibility where
  home := bucketForVisibility settings
  archive := bucketForStorageClass settings .archive
  pub := .public
  home_eq_pub := h.eq_public
  home_ne_archive := h.ne_archive

def MediaObject.card (o : MediaObject) : Card String MediaVisibility :=
  ⟨o.visibility, o.storageBucket, o.deletedAt.isNone⟩

/-- What a validated body asks of the tiers. -/
def MediaObjectUpdate.ask (u : MediaObjectUpdate) : Ask MediaVisibility :=
  match u.visibility.join with
  | none => .stay
  | some v => .become v

/-- What a request asks of the tiers, its object's row being `o`. -/
def ObjectRequest.ask (env : Env) (db : Database) (o : MediaObject) :
    ObjectRequest → Ask MediaVisibility
  | .update user body =>
    match body.validated env with
    | none => .refused
    | some u =>
      if !user.isSuperuser ∧ o.ownerUserId ≠ user.id then .refused
      else if (updateCategories db user u).isOk then u.ask
      else .refused
  | .delete user =>
    if !user.isSuperuser ∧ o.ownerUserId ≠ user.id then .refused else .retire

/-- A body that puts a null into no column that forbids it. -/
def MediaObjectUpdate.Storable (u : MediaObjectUpdate) : Prop :=
  u.visibility ≠ some none ∧ u.category ≠ some none

instance (u : MediaObjectUpdate) : Decidable u.Storable := inferInstanceAs (Decidable (_ ∧ _))

def ObjectRequest.Storable : ObjectRequest → Prop
  | .update _ body => body.Storable
  | .delete _ => True

instance : (request : ObjectRequest) → Decidable request.Storable
  | .update _ body => inferInstanceAs (Decidable body.Storable)
  | .delete _ => inferInstanceAs (Decidable True)

/-- The buckets that hold the bytes `c` under the key `k`. -/
def copiesOf (st : Storage) (k : String) (c : Bytes) : Finset String :=
  ((st.rows.filter fun s => s.location.objectKey = k ∧ s.content = c).map fun s =>
    s.location.bucket).toFinset

theorem mem_copiesOf {st : Storage} {k : String} {c : Bytes} {x : String} :
    x ∈ copiesOf st k c ↔ st.content ⟨x, k⟩ = some c := by
  simp only [copiesOf, List.mem_toFinset, List.mem_map, List.mem_filter, decide_eq_true_eq,
    Storage.content, Option.map_eq_some_iff, Table.find_eq_some]
  constructor
  · rintro ⟨s, ⟨hs, hk, hc⟩, rfl⟩
    exact ⟨s, ⟨hs, by rw [← hk]⟩, hc⟩
  · rintro ⟨s, ⟨hs, hl⟩, hc⟩
    exact ⟨s, ⟨hs, by rw [hl], hc⟩, by rw [hl]⟩

/-! ### The object before the race -/

/-- An object whose bytes are where its row says, a live one in the bucket of its
visibility, with no public copy that its row does not show, and no other row
under its key. -/
structure RelocationReady (settings : Settings) (b : Backend) (id : UUID) (o : MediaObject)
    (c : Bytes) : Prop where
  row : b.db.objects.find id = some o
  home : o.deletedAt = none → o.storageBucket = bucketForVisibility settings o.visibility
  bytes : b.storage.content o.location = some c
  shown : (b.storage.content ⟨settings.s3BucketPublic, o.objectKey⟩).isSome = true →
    o.deletedAt = none ∧ o.visibility = .public
  apart : ∀ q ∈ b.db.objects, q.id ≠ id → q.objectKey ≠ o.objectKey

/-! ### Steps beside steps -/

/-- What a bucket holds under the key, if anything, are the object's bytes. -/
def Clean (st : Storage) (k : String) (c : Bytes) (x : String) : Prop :=
  ∀ c', st.content ⟨x, k⟩ = some c' → c' = c

theorem clean_copy {st st' : Storage} {faults : Faults} {k : String} {c : Bytes} {x y : String}
    (h : st.copyObject faults ⟨x, k⟩ ⟨y, k⟩ = some st') (hx : Clean st k c x) {z : String}
    (hz : Clean st k c z) : Clean st' k c z := by
  intro c' hc'
  rw [Storage.find_copyObject h] at hc'
  split at hc'
  · exact hx c' hc'
  · exact hz c' hc'

theorem clean_remove {st : Storage} (faults : Faults) {k : String} {c : Bytes} (l : Location)
    {z : String} (hz : Clean st k c z) : Clean (st.bestEffortRemove faults l) k c z := by
  intro c' hc'
  rw [Storage.content_bestEffortRemove] at hc'
  split at hc'
  · cases hc'
  · exact hz c' hc'

/-- After a copy from a clean bucket that had the bytes, one more bucket has them. -/
theorem content_copy {st st' : Storage} {faults : Faults} {k : String} {c : Bytes} {x y : String}
    (h : st.copyObject faults ⟨x, k⟩ ⟨y, k⟩ = some st') (hx : Clean st k c x) (z : String) :
    st'.content ⟨z, k⟩ = some c ↔ z = y ∨ st.content ⟨z, k⟩ = some c := by
  obtain ⟨c', ct, hc', -⟩ := copyObject_content h
  rw [Storage.find_copyObject h]
  by_cases hz : z = y
  · rw [hz, if_pos rfl, hc', hx c' hc']
    simp
  · simp [hz]

section Tracks

variable {env : Env} (hb : env.settings.BucketsApart) (id : UUID) (o : MediaObject) (c : Bytes)
  (db : Database) (requests : Bool → ObjectRequest)

/-- The asks of both requests. -/
def asksOf (env : Env) (db : Database) (o : MediaObject) (requests : Bool → ObjectRequest) :
    Bool → Ask MediaVisibility :=
  fun i => (requests i).ask env db o

/-- The backend beside the card and the copies. -/
structure SharedTracks (settings : Settings) (id : UUID) (o : MediaObject) (c : Bytes)
    (db : Database) (b : Backend) (σ : TierState String MediaVisibility) : Prop where
  row : ∃ q, b.db.objects.find id = some q ∧ q.objectKey = o.objectKey ∧
    q.ownerUserId = o.ownerUserId ∧ q.card = σ.card
  categories : b.db.categories = db.categories
  apart : ∀ q ∈ b.db.objects, q.id ≠ id → q.objectKey ≠ o.objectKey
  copies : ∀ x, x ∈ σ.copies ↔ b.storage.content ⟨x, o.objectKey⟩ = some c
  clean : Clean b.storage o.objectKey c σ.card.bucket
  cleanPublic : Clean b.storage o.objectKey c settings.s3BucketPublic

/-- What a request read beside what its move read. -/
def ReadTracks (id : UUID) (o : MediaObject) (c : Bytes) (st : Storage) (q : MediaObject)
    (card : Card String MediaVisibility) : Prop :=
  q.id = id ∧ q.objectKey = o.objectKey ∧ q.card = card ∧ Clean st o.objectKey c card.bucket

/-- The place of a request beside the place of its move. -/
def PlaceTracks (a : Ask MediaVisibility) (request : ObjectRequest) (st : Storage) :
    RelocationPlace → MoverPlace String MediaVisibility → Prop
  | .read r, .idle => r = request
  | .copyFor u q _, .loaded card => u.ask = a ∧ u.Storable ∧ ReadTracks id o c st q card
  | .commitPatch u q _ bucket, .copied card => u.ask = a ∧ u.Storable ∧
      ReadTracks id o c st q card ∧ bucket = a.target (env.settings.tiers hb) card ∧
        ∀ x, bucket = some x → Clean st o.objectKey c x
  | .archive q, .loaded card => a = .retire ∧ ReadTracks id o c st q card
  | .commitDelete q bucket, .copied card => a = .retire ∧ ReadTracks id o c st q card ∧
      bucket = a.target (env.settings.tiers hb) card ∧
        ∀ x, bucket = some x → Clean st o.objectKey c x
  | .drop l _, .committed card => l = ⟨card.bucket, o.objectKey⟩
  | .finished _, .finished | .finished _, .refused => True
  | _, _ => False

/-- The race beside the moves. -/
structure Tracks (s : Parties Bool Backend RelocationPlace)
    (t : Parties Bool (TierState String MediaVisibility) (MoverPlace String MediaVisibility)) :
    Prop where
  shared : SharedTracks env.settings id o c db s.shared t.shared
  place : ∀ i, PlaceTracks hb id o c (asksOf env db o requests i) (requests i) s.shared.storage
    (s.place i) (t.place i)

variable {hb id o c db requests}

theorem PlaceTracks.mono {a : Ask MediaVisibility} {request : ObjectRequest} {st st' : Storage}
    (hst : ∀ x, Clean st o.objectKey c x → Clean st' o.objectKey c x) {p : RelocationPlace}
    {p' : MoverPlace String MediaVisibility} (h : PlaceTracks hb id o c a request st p p') :
    PlaceTracks hb id o c a request st' p p' := by
  unfold PlaceTracks ReadTracks at h ⊢
  split at h
  · exact h
  · obtain ⟨ha, hu, hid, hk, hcard, hclean⟩ := h
    exact ⟨ha, hu, hid, hk, hcard, hst _ hclean⟩
  · obtain ⟨ha, hu, ⟨hid, hk, hcard, hclean⟩, hbucket, hx⟩ := h
    exact ⟨ha, hu, ⟨hid, hk, hcard, hst _ hclean⟩, hbucket, fun x h => hst x (hx x h)⟩
  · obtain ⟨ha, hid, hk, hcard, hclean⟩ := h
    exact ⟨ha, hid, hk, hcard, hst _ hclean⟩
  · obtain ⟨ha, ⟨hid, hk, hcard, hclean⟩, hbucket, hx⟩ := h
    exact ⟨ha, ⟨hid, hk, hcard, hst _ hclean⟩, hbucket, fun x h => hst x (hx x h)⟩
  · exact h
  · trivial
  · trivial
  · exact h.elim

variable {s : Parties Bool Backend RelocationPlace}
  {t : Parties Bool (TierState String MediaVisibility) (MoverPlace String MediaVisibility)}

/-- The next state tracks the next state if the shared parts and the places of the
party that moved do. -/
theorem Tracks.next (h : Tracks hb id o c db requests s t) {i : Bool} {m : Moment} {b : Backend}
    {p : RelocationPlace} {σ : TierState String MediaVisibility}
    {p' : MoverPlace String MediaVisibility}
    (hstep : relocationStep env id s.shared (s.place i) m = (b, p))
    (hmove : moverStep (env.settings.tiers hb) (asksOf env db o requests) i t.shared
      (t.place i) () = (σ, p'))
    (hclean : ∀ x, Clean s.shared.storage o.objectKey c x → Clean b.storage o.objectKey c x)
    (hshared : SharedTracks env.settings id o c db b σ)
    (hplace : PlaceTracks hb id o c (asksOf env db o requests i) (requests i) b.storage p p') :
    Tracks hb id o c db requests (relocationTurn env id s (i, m))
      (moverTurn (env.settings.tiers hb) (asksOf env db o requests) t (i, ())) := by
  refine ⟨?_, fun k => ?_⟩
  · rw [turn_shared, turn_shared, hstep, hmove]
    exact hshared
  · rw [turn_shared, hstep]
    by_cases hk : k = i
    · subst hk
      rw [turn_place_self, turn_place_self, hstep, hmove]
      exact hplace
    · rw [turn_place_ne s hk, turn_place_ne t hk]
      exact (h.place k).mono hclean

theorem loadObject_found {b : Backend} {q : MediaObject} (hq : b.db.objects.find id = some q)
    (user : UserModel) (includeDeleted : Bool) :
    loadObject b.db user id includeDeleted =
      if !includeDeleted ∧ q.deletedAt.isSome then refuse 404 "Media object not found."
      else if !user.isSuperuser ∧ q.ownerUserId ≠ user.id then refuse 403 "Not enough permissions."
      else .ok q := by
  unfold loadObject fetchObject
  rw [hq]
  dsimp only
  by_cases hd : (!includeDeleted) = true ∧ q.deletedAt.isSome = true
  · rw [if_pos hd, if_pos hd]
    rfl
  · rw [if_neg hd, if_neg hd]

theorem updateCategories_congr {db db' : Database} (h : db.categories = db'.categories)
    (user : UserModel) (u : MediaObjectUpdate) :
    updateCategories db user u = updateCategories db' user u := by
  unfold updateCategories resolveCategoryIds scopedCategories loadCategory
  rw [h]

theorem MediaObjectUpdate.ask_ne_refused (u : MediaObjectUpdate) : u.ask ≠ .refused := by
  unfold MediaObjectUpdate.ask
  split <;> simp

variable (env) in
/-- A first read ends a refused request and one for a deleted row; any other goes
on with the row it read. -/
theorem readObjectStep_cases {b : Backend} {q : MediaObject}
    (hq : b.db.objects.find id = some q) (howner : q.ownerUserId = o.ownerUserId)
    (hcategories : b.db.categories = db.categories) {request : ObjectRequest}
    (hbody : request.Storable) :
    ((∃ answer, readObjectStep env b id request = .finished answer) ∧
        (request.ask env db o = .refused ∨ q.deletedAt.isNone = false)) ∨
      (q.deletedAt.isNone = true ∧ request.ask env db o ≠ .refused ∧
        ((∃ u categories, readObjectStep env b id request = .copyFor u q categories ∧
            u.ask = request.ask env db o ∧ u.Storable) ∨
          readObjectStep env b id request = .archive q ∧ request.ask env db o = .retire)) := by
  cases request with
  | update user body =>
    simp only [readObjectStep, loadObject_found hq, updateCategories_congr hcategories, howner,
      ObjectRequest.ask]
    cases hv : body.validated env with
    | none => exact .inl ⟨⟨_, rfl⟩, .inl rfl⟩
    | some u =>
      dsimp only
      by_cases hdead : q.deletedAt.isSome = true
      · refine .inl ⟨?_, .inr (by simpa using hdead)⟩
        rw [if_pos ⟨rfl, hdead⟩]
        exact ⟨_, rfl⟩
      · rw [if_neg fun hd => hdead hd.2]
        by_cases hforeign : (!user.isSuperuser) = true ∧ o.ownerUserId ≠ user.id
        · refine .inl ⟨?_, .inl (if_pos hforeign)⟩
          rw [if_pos hforeign]
          exact ⟨_, rfl⟩
        · rw [if_neg hforeign, if_neg hforeign]
          dsimp only
          cases updateCategories db user u with
          | error e => exact .inl ⟨⟨_, rfl⟩, .inl rfl⟩
          | ok categories =>
            obtain ⟨name, rfl, -⟩ := MediaObjectUpdate.eq_of_validated hv
            exact .inr ⟨by simpa using hdead, MediaObjectUpdate.ask_ne_refused _,
              .inl ⟨_, categories, rfl, rfl, hbody⟩⟩
  | delete user =>
    simp only [readObjectStep, loadObject_found hq, howner, ObjectRequest.ask]
    rw [if_neg fun hd => Bool.false_ne_true hd.1]
    by_cases hforeign : (!user.isSuperuser) = true ∧ o.ownerUserId ≠ user.id
    · refine .inl ⟨?_, .inl (if_pos hforeign)⟩
      rw [if_pos hforeign]
      exact ⟨_, rfl⟩
    · rw [if_neg hforeign, if_neg hforeign]
      dsimp only
      by_cases hdead : q.deletedAt.isSome = true
      · refine .inl ⟨?_, .inr (by simpa using hdead)⟩
        rw [if_pos hdead]
        exact ⟨_, rfl⟩
      · refine .inr ⟨by simpa using hdead, by simp, .inr ⟨?_, rfl⟩⟩
        rw [if_neg hdead]

/-- A first read starts the move, or ends both. -/
theorem Tracks.read (h : Tracks hb id o c db requests s t) (hbodies : ∀ i, (requests i).Storable)
    {i : Bool} {m : Moment} {request : ObjectRequest} (hp : s.place i = .read request)
    (hp' : t.place i = .idle) :
    Tracks hb id o c db requests (relocationTurn env id s (i, m))
      (moverTurn (env.settings.tiers hb) (asksOf env db o requests) t (i, ())) := by
  have hrequest := h.place i
  rw [hp, hp'] at hrequest
  obtain rfl : request = requests i := hrequest
  obtain ⟨q, hq, hkey, howner, hcard⟩ := h.shared.row
  have hlive : t.shared.card.live = q.deletedAt.isNone := by rw [← hcard]; rfl
  have hread : ReadTracks id o c s.shared.storage q t.shared.card :=
    ⟨Table.key_of_find hq, hkey, hcard, h.shared.clean⟩
  have hstep : relocationStep env id s.shared (s.place i) m =
      (s.shared, readObjectStep env s.shared id (requests i)) := by rw [hp]; rfl
  rcases readObjectStep_cases env hq howner h.shared.categories (hbodies i) with
    ⟨⟨answer, hend⟩, hrefused⟩ | ⟨hrow, hask, hnext⟩
  · rw [hend] at hstep
    have hmove : moverStep (env.settings.tiers hb) (asksOf env db o requests) i t.shared
        (t.place i) () = (t.shared, .refused) := by
      rw [hp']
      exact moverStep_refused (hrefused.imp_right hlive.trans)
    exact h.next hstep hmove (fun _ hx => hx) h.shared trivial
  · have hmove : moverStep (env.settings.tiers hb) (asksOf env db o requests) i t.shared
        (t.place i) () = (t.shared, .loaded t.shared.card) := by
      rw [hp']
      exact moverStep_idle hask (hlive.trans hrow)
    refine h.next hstep hmove (fun _ hx => hx) h.shared ?_
    rcases hnext with ⟨u, categories, hcopy, hu, hstorable⟩ | ⟨harchive, hretire⟩
    · rw [hcopy]
      exact ⟨hu, hstorable, hread⟩
    · rw [harchive]
      exact ⟨hretire, hread⟩

variable (hb) in
/-- A copy for a new visibility goes where the move goes. -/
theorem bucket_of_relocateForVisibility {st st' : Storage} {faults : Faults}
    {u : MediaObjectUpdate} {q : MediaObject} {bucket : Option String}
    (h : relocateForVisibility env.settings st faults q u.visibility.join = .ok (st', bucket)) :
    bucket = u.ask.target (env.settings.tiers hb) q.card := by
  unfold MediaObjectUpdate.ask
  cases hv : u.visibility.join with
  | none =>
    rw [hv] at h
    cases h
    rfl
  | some v =>
    rw [hv] at h
    change bucket = if v = q.visibility ∨ bucketForVisibility env.settings v = q.storageBucket
      then none else some (bucketForVisibility env.settings v)
    unfold relocateForVisibility at h
    dsimp only at h
    split at h
    · rename_i hstays
      rw [if_pos hstays]
      cases h
      rfl
    · rename_i hstays
      rw [if_neg hstays]
      split at h
      · cases h
      · cases h
        rfl

variable (hb) in
/-- A copy into the archive that succeeds goes where the move goes. -/
theorem bucket_of_archiveDeletedBytes {st : Storage} {faults : Faults} {q : MediaObject}
    (h : q.storageBucket = bucketForStorageClass env.settings .archive ∨
      (archiveDeletedBytes env.settings st faults q).2.isSome = true) :
    (archiveDeletedBytes env.settings st faults q).2 =
      Ask.retire.target (env.settings.tiers hb) q.card := by
  change _ = if q.storageBucket = bucketForStorageClass env.settings .archive then none
    else some (bucketForStorageClass env.settings .archive)
  unfold archiveDeletedBytes at h ⊢
  dsimp only at h ⊢
  by_cases hthere : q.storageBucket = bucketForStorageClass env.settings .archive
  · rw [if_pos hthere, if_pos hthere]
  · rw [if_neg hthere] at h ⊢
    rw [if_neg hthere]
    split
    · rename_i hcopy
      rw [hcopy] at h
      exact absurd (h.resolve_left hthere) (by simp)
    · rfl

/-- The copy of a move that read `q`, beside the storage's. -/
theorem sharedTracks_copy {b : Backend} {σ : TierState String MediaVisibility}
    (h : SharedTracks env.settings id o c db b σ) {q : MediaObject}
    {card : Card String MediaVisibility} (hread : ReadTracks id o c b.storage q card)
    {faults : Faults} {x : String} {st : Storage}
    (hcopy : b.storage.copyObject faults q.location ⟨x, q.objectKey⟩ = some st) :
    SharedTracks env.settings id o c db { b with storage := st }
        { σ with copies := insert x σ.copies } ∧
      (∀ z, Clean b.storage o.objectKey c z → Clean st o.objectKey c z) ∧
        Clean st o.objectKey c x := by
  obtain ⟨-, hkey, hcard, hclean⟩ := hread
  have hsource : q.location = ⟨card.bucket, o.objectKey⟩ := by
    rw [← hcard, ← hkey]
    rfl
  rw [hsource, hkey] at hcopy
  have hall : ∀ z, Clean b.storage o.objectKey c z → Clean st o.objectKey c z :=
    fun z hz => clean_copy hcopy hclean hz
  refine ⟨⟨h.row, h.categories, h.apart, fun z => ?_, hall _ h.clean, hall _ h.cleanPublic⟩,
    hall, fun c' hc' => ?_⟩
  · rw [content_copy hcopy hclean, Finset.mem_insert, h.copies]
  · rw [(content_copy hcopy hclean x).mpr (.inl rfl)] at hc'
    exact (Option.some.inj hc').symm

/-- The copying step. -/
theorem Tracks.copy (h : Tracks hb id o c db requests s t) {i : Bool} {m : Moment}
    {q : MediaObject} {card : Card String MediaVisibility} {st : Storage} {bucket : Option String}
    {p : RelocationPlace} (hp' : t.place i = .loaded card)
    (hread : ReadTracks id o c s.shared.storage q card)
    (hbucket : bucket = (asksOf env db o requests i).target (env.settings.tiers hb) card)
    (hcopy : Relocates s.shared.storage m.faults q st bucket)
    (hstep : relocationStep env id s.shared (s.place i) m = ({ s.shared with storage := st }, p))
    (hplace : ReadTracks id o c st q card → (∀ x, bucket = some x → Clean st o.objectKey c x) →
      PlaceTracks hb id o c (asksOf env db o requests i) (requests i) st p (.copied card)) :
    Tracks hb id o c db requests (relocationTurn env id s (i, m))
      (moverTurn (env.settings.tiers hb) (asksOf env db o requests) t (i, ())) := by
  cases bucket with
  | none =>
    obtain rfl : st = s.shared.storage := hcopy
    have hmove : moverStep (env.settings.tiers hb) (asksOf env db o requests) i t.shared
        (t.place i) () = (t.shared, .copied card) := by
      rw [hp', moverStep, ← hbucket]
    exact h.next hstep hmove (fun _ hx => hx) h.shared (hplace hread fun x hx => by cases hx)
  | some x =>
    obtain ⟨hshared, hall, hx⟩ := sharedTracks_copy h.shared hread hcopy.2
    have hmove : moverStep (env.settings.tiers hb) (asksOf env db o requests) i t.shared
        (t.place i) () = ({ t.shared with copies := insert x t.shared.copies }, .copied card) := by
      rw [hp', moverStep, ← hbucket]
    refine h.next hstep hmove hall hshared (hplace ⟨hread.1, hread.2.1, hread.2.2.1,
      hall _ hread.2.2.2⟩ ?_)
    rintro y hy
    cases hy
    exact hx

/-- The committing step: the row, the card and the tracks of what follows. -/
theorem Tracks.commit (h : Tracks hb id o c db requests s t) {i : Bool} {m : Moment}
    {q q' : MediaObject} {card : Card String MediaVisibility} {db' : Database}
    {bucket : Option String} (hp' : t.place i = .copied card)
    (hread : ReadTracks id o c s.shared.storage q card)
    (hbucket : bucket = (asksOf env db o requests i).target (env.settings.tiers hb) card)
    (hclean : ∀ x, bucket = some x → Clean s.shared.storage o.objectKey c x)
    (hrow : db'.objects = s.shared.db.objects.update q') (hid : q'.id = id)
    (hkey : q'.objectKey = o.objectKey) (howner : q'.ownerUserId = o.ownerUserId)
    (hcard : q'.card =
      (asksOf env db o requests i).commit (env.settings.tiers hb) card t.shared.card)
    (hcategories : db'.categories = s.shared.db.categories)
    (hstep : relocationStep env id s.shared (s.place i) m =
      ({ s.shared with db := db' },
        bucket.elim (.finished (.ok ())) fun _ => .drop q.location (.ok ()))) :
    Tracks hb id o c db requests (relocationTurn env id s (i, m))
      (moverTurn (env.settings.tiers hb) (asksOf env db o requests) t (i, ())) := by
  have hmove : moverStep (env.settings.tiers hb) (asksOf env db o requests) i t.shared
      (t.place i) () = ({ t.shared with card := q'.card },
        if bucket.isSome then .committed card else .finished) := by
    rw [hp', moverStep, ← hbucket, hcard]
  obtain ⟨p, hp, -⟩ := h.shared.row
  refine h.next hstep hmove (fun _ hx => hx) ?_ ?_
  · refine ⟨⟨q', ?_, hkey, howner, rfl⟩, hcategories.trans h.shared.categories, fun r hr hne => ?_,
      h.shared.copies, ?_, h.shared.cleanPublic⟩
    · change db'.objects.find id = some q'
      rw [hrow, ← hid]
      exact Table.find_update_self (by rw [hid]; exact hp)
    · change r ∈ db'.objects at hr
      rw [hrow, Table.mem_update (by rw [hid]; exact hp)] at hr
      rcases hr with rfl | ⟨hr, -⟩
      · exact absurd hid hne
      · exact h.shared.apart r hr hne
    · change Clean s.shared.storage o.objectKey c q'.card.bucket
      rw [hcard]
      change Clean s.shared.storage o.objectKey c (((asksOf env db o requests i).target
        (env.settings.tiers hb) card).getD t.shared.card.bucket)
      rw [← hbucket]
      cases bucket with
      | none => exact h.shared.clean
      | some x => exact hclean x rfl
  · cases bucket with
    | none => trivial
    | some x =>
      obtain ⟨-, hqkey, hqcard, -⟩ := hread
      change q.location = ⟨card.bucket, o.objectKey⟩
      rw [← hqcard, ← hqkey]
      rfl

variable (hb) in
/-- A patched row shows the card its move writes. -/
theorem write_card {u : MediaObjectUpdate} {q current q' : MediaObject} {bucket : Option String}
    {now : Timestamp} (h : u.write q current bucket now = some q')
    (hbucket : bucket = u.ask.target (env.settings.tiers hb) q.card) :
    q'.id = current.id ∧ q'.objectKey = current.objectKey ∧
      q'.ownerUserId = current.ownerUserId ∧
        q'.card = u.ask.commit (env.settings.tiers hb) q.card current.card := by
  unfold MediaObjectUpdate.write at h
  split at h
  · rename_i v category hv _
    cases h
    refine ⟨rfl, rfl, rfl, Card.ext ?_ ?_ ?_⟩
    · change column v q.visibility current.visibility = _
      unfold MediaObjectUpdate.ask
      cases hu : u.visibility with
      | none =>
        rw [hu] at hv
        obtain rfl : q.visibility = v := Option.some.inj hv
        exact if_pos rfl
      | some w =>
        rw [hu] at hv
        obtain rfl : w = some v := hv
        rfl
    · change bucket.getD current.storageBucket = _
      rw [hbucket]
      rfl
    · change current.deletedAt.isNone = _
      unfold MediaObjectUpdate.ask
      cases u.visibility.join <;> rfl
  · cases h

/-- A live card the request may have read is at home, so its move into the
archive takes the item somewhere. -/
theorem retire_moves {r card : Card String MediaVisibility} (hr : r.AtHome (env.settings.tiers hb))
    (ho : Origin (env.settings.tiers hb) (asksOf env db o requests) r t) {i : Bool}
    (hp' : t.place i = .copied card) :
    (Ask.retire.target (env.settings.tiers hb) card).isSome = true := by
  obtain ⟨hlive, hcard⟩ := ho.read i card (.inr hp')
  have hhome : card.AtHome (env.settings.tiers hb) := by
    rcases hcard with rfl | ⟨-, rfl⟩
    · exact hr
    · exact atHome_firstCommit hr _
  have hne : card.bucket ≠ (env.settings.tiers hb).archive := by
    rw [hhome hlive]
    exact (env.settings.tiers hb).home_ne_archive _
  simp [Ask.target, hne]

section Places

variable {i : Bool} {m : Moment} {u : MediaObjectUpdate} {q : MediaObject}
  {categories : Option (List Category)} {bucket : Option String}
  {card : Card String MediaVisibility}

theorem Tracks.copyFor (h : Tracks hb id o c db requests s t)
    (hp : s.place i = .copyFor u q categories) (hp' : t.place i = .loaded card)
    (hs : StepSucceeds env s.shared (s.place i) m) :
    Tracks hb id o c db requests (relocationTurn env id s (i, m))
      (moverTurn (env.settings.tiers hb) (asksOf env db o requests) t (i, ())) := by
  have hplace := h.place i
  rw [hp, hp'] at hplace
  obtain ⟨hask, hstorable, hread⟩ := hplace
  rw [hp] at hs
  cases hcopy : relocateForVisibility env.settings s.shared.storage m.faults q
      u.visibility.join with
  | error e => rw [StepSucceeds, hcopy] at hs; cases hs
  | ok res =>
    obtain ⟨st, bucket⟩ := res
    have hbucket := bucket_of_relocateForVisibility hb hcopy
    rw [hread.2.2.1, hask] at hbucket
    have hstep : relocationStep env id s.shared (s.place i) m =
        ({ s.shared with storage := st }, .commitPatch u q categories bucket) := by
      rw [hp, relocationStep, hcopy]
    exact h.copy hp' hread hbucket (relocates_of_relocateForVisibility hcopy) hstep
      fun hread' hx => ⟨hask, hstorable, hread', hbucket, hx⟩

theorem Tracks.archive (h : Tracks hb id o c db requests s t) (hp : s.place i = .archive q)
    (hp' : t.place i = .loaded card) (hs : StepSucceeds env s.shared (s.place i) m) :
    Tracks hb id o c db requests (relocationTurn env id s (i, m))
      (moverTurn (env.settings.tiers hb) (asksOf env db o requests) t (i, ())) := by
  have hplace := h.place i
  rw [hp, hp'] at hplace
  obtain ⟨hask, hread⟩ := hplace
  rw [hp] at hs
  have hbucket := bucket_of_archiveDeletedBytes hb hs
  rw [hread.2.2.1, ← hask] at hbucket
  have hstep : relocationStep env id s.shared (s.place i) m = ({ s.shared with
      storage := (archiveDeletedBytes env.settings s.shared.storage m.faults q).1 },
        .commitDelete q (archiveDeletedBytes env.settings s.shared.storage m.faults q).2) := by
    rw [hp, relocationStep]
  exact h.copy hp' hread hbucket (relocates_of_archiveDeletedBytes _ _ _ _) hstep
    fun hread' hx => ⟨hask, hread', hbucket, hx⟩

theorem Tracks.commitPatch (h : Tracks hb id o c db requests s t)
    (hp : s.place i = .commitPatch u q categories bucket) (hp' : t.place i = .copied card)
    (hs : StepSucceeds env s.shared (s.place i) m) :
    Tracks hb id o c db requests (relocationTurn env id s (i, m))
      (moverTurn (env.settings.tiers hb) (asksOf env db o requests) t (i, ())) := by
  obtain ⟨current, hcurrent, hckey, hcowner, hccard⟩ := h.shared.row
  have hplace := h.place i
  rw [hp, hp'] at hplace
  obtain ⟨hask, hstorable, hread, hbucket, hclean⟩ := hplace
  rw [hp] at hs
  cases hcommit : commitPatchedRow s.shared.db m.now u q categories bucket with
  | error e => rw [StepSucceeds, hcommit] at hs; cases hs
  | ok db' =>
    obtain ⟨q', hwrite, hobjects, hcategories, -⟩ :=
      commitPatchedRow_ok hcommit (by rw [hread.1]; exact hcurrent)
    obtain ⟨hid, hkey, howner, hcard⟩ := write_card hb hwrite
      (by rw [hask, hread.2.2.1]; exact hbucket)
    rw [hask, hread.2.2.1, hccard] at hcard
    refine h.commit hp' hread hbucket hclean hobjects
      (hid.trans (Table.key_of_find hcurrent)) (hkey.trans hckey) (howner.trans hcowner) hcard
      hcategories ?_
    rw [hp]
    simp only [relocationStep, hcommit]
    cases bucket <;> rfl

theorem Tracks.commitDelete (h : Tracks hb id o c db requests s t)
    {r : Card String MediaVisibility} (hr : r.AtHome (env.settings.tiers hb))
    (ho : Origin (env.settings.tiers hb) (asksOf env db o requests) r t)
    (hp : s.place i = .commitDelete q bucket) (hp' : t.place i = .copied card)
    (hs : StepSucceeds env s.shared (s.place i) m) :
    Tracks hb id o c db requests (relocationTurn env id s (i, m))
      (moverTurn (env.settings.tiers hb) (asksOf env db o requests) t (i, ())) := by
  obtain ⟨current, hcurrent, hckey, hcowner, hccard⟩ := h.shared.row
  have hplace := h.place i
  rw [hp, hp'] at hplace
  obtain ⟨hask, hread, hbucket, hclean⟩ := hplace
  rw [hp] at hs
  cases hcommit : commitDeletedRow s.shared.db m.now q bucket with
  | error e => rw [StepSucceeds, hcommit] at hs; cases hs
  | ok db' =>
    obtain ⟨hobjects, hcategories, -⟩ :=
      commitDeletedRow_ok hcommit (by rw [hread.1]; exact hcurrent)
    have hmoves := retire_moves hr ho hp'
    rw [← hask, ← hbucket] at hmoves
    obtain ⟨x, rfl⟩ := Option.isSome_iff_exists.mp hmoves
    have hid : current.id = id := Table.key_of_find hcurrent
    refine h.commit hp' hread hbucket hclean hobjects hid hckey hcowner ?_ hcategories ?_
    · rw [hask]
      refine Card.ext ?_ ?_ rfl
      · change current.visibility = t.shared.card.visibility
        rw [← hccard]
        rfl
      · change x = ((Ask.retire.target (env.settings.tiers hb) card).getD _)
        rw [← hask, ← hbucket]
        rfl
    · rw [hp]
      simp only [relocationStep, hcommit]
      rfl

theorem Tracks.drop (h : Tracks hb id o c db requests s t) {l : Location}
    {answer : Except Failure Unit} (hp : s.place i = .drop l answer)
    (hp' : t.place i = .committed card) (hs : StepSucceeds env s.shared (s.place i) m) :
    Tracks hb id o c db requests (relocationTurn env id s (i, m))
      (moverTurn (env.settings.tiers hb) (asksOf env db o requests) t (i, ())) := by
  have hplace := h.place i
  rw [hp, hp'] at hplace
  obtain rfl : l = ⟨card.bucket, o.objectKey⟩ := hplace
  rw [hp] at hs
  have hmove : moverStep (env.settings.tiers hb) (asksOf env db o requests) i t.shared
      (t.place i) () = ({ t.shared with copies := t.shared.copies.erase card.bucket },
        .finished) := by
    rw [hp', moverStep]
  have hall : ∀ x, Clean s.shared.storage o.objectKey c x →
      Clean (s.shared.storage.bestEffortRemove m.faults ⟨card.bucket, o.objectKey⟩)
        o.objectKey c x := fun x hx => clean_remove _ _ hx
  have hstep : relocationStep env id s.shared (s.place i) m = ({ s.shared with
      storage := s.shared.storage.bestEffortRemove m.faults ⟨card.bucket, o.objectKey⟩ },
        .finished answer) := by
    rw [hp, relocationStep]
  refine h.next hstep hmove hall ⟨h.shared.row, h.shared.categories, h.shared.apart,
    fun x => ?_, hall _ h.shared.clean, hall _ h.shared.cleanPublic⟩ trivial
  rw [Storage.content_bestEffortRemove, Finset.mem_erase, h.shared.copies]
  have hremoved : m.faults .remove ⟨card.bucket, o.objectKey⟩ = false := hs
  by_cases hx : x = card.bucket
  · simp [hx, hremoved]
  · simp [hx]

/-- A request that is over has a move that is. -/
theorem Tracks.finished (h : Tracks hb id o c db requests s t) {answer : Except Failure Unit}
    (hp : s.place i = .finished answer) :
    Tracks hb id o c db requests (relocationTurn env id s (i, m))
      (moverTurn (env.settings.tiers hb) (asksOf env db o requests) t (i, ())) := by
  have hplace := h.place i
  rw [hp] at hplace
  have hmove : moverStep (env.settings.tiers hb) (asksOf env db o requests) i t.shared
      (t.place i) () = (t.shared, t.place i) := by
    cases hp' : t.place i with
    | finished => rfl
    | refused => rfl
    | _ => rw [hp'] at hplace; exact hplace.elim
  exact h.next (by rw [hp]; rfl) hmove (fun _ hx => hx) h.shared hplace

end Places

/-- A step of the race that succeeds is a step of the moves. -/
theorem Tracks.turn (h : Tracks hb id o c db requests s t) (hbodies : ∀ i, (requests i).Storable)
    {r : Card String MediaVisibility} (hr : r.AtHome (env.settings.tiers hb))
    (ho : Origin (env.settings.tiers hb) (asksOf env db o requests) r t) (i : Bool) (m : Moment)
    (hs : StepSucceeds env s.shared (s.place i) m) :
    Tracks hb id o c db requests (relocationTurn env id s (i, m))
      (moverTurn (env.settings.tiers hb) (asksOf env db o requests) t (i, ())) := by
  have hplace := h.place i
  cases hp : s.place i with
  | read request =>
    cases hp' : t.place i with
    | idle => exact h.read hbodies hp hp'
    | _ => rw [hp, hp'] at hplace; exact hplace.elim
  | copyFor u q categories =>
    cases hp' : t.place i with
    | loaded card => exact h.copyFor hp hp' hs
    | _ => rw [hp, hp'] at hplace; exact hplace.elim
  | commitPatch u q categories bucket =>
    cases hp' : t.place i with
    | copied card => exact h.commitPatch hp hp' hs
    | _ => rw [hp, hp'] at hplace; exact hplace.elim
  | archive q =>
    cases hp' : t.place i with
    | loaded card => exact h.archive hp hp' hs
    | _ => rw [hp, hp'] at hplace; exact hplace.elim
  | commitDelete q bucket =>
    cases hp' : t.place i with
    | copied card => exact h.commitDelete hr ho hp hp' hs
    | _ => rw [hp, hp'] at hplace; exact hplace.elim
  | reread =>
    rw [hp] at hplace
    cases hp' : t.place i <;> rw [hp'] at hplace <;> exact hplace.elim
  | drop l answer =>
    cases hp' : t.place i with
    | committed card => exact h.drop hp hp' hs
    | _ => rw [hp, hp'] at hplace; exact hplace.elim
  | finished answer => exact h.finished hp

end Tracks

end MediaService
