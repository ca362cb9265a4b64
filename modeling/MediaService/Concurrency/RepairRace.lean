import MediaService.Concurrency.RelocationRace
import MediaService.Concurrency.UploadRace
import MediaService.Controllers.Maintenance
import MediaService.Controllers.TransferImport

/-! One repairing sweep beside one other request, cut at every read, every storage
operation and every commit. The sweep reads the protected keys once, lists a
bucket when it comes to it, and looks for a row key by key. The other request is
an upload with its client's post, the import of one file, or a relocation. -/

namespace MediaService

open Foundation

/-! ### The sweep, step by step -/

/-- What the sweep carries along. -/
structure Sweeping where
  pending : List Location
  orphans : List OrphanRecord
  repaired : ℕ

/-- What the sweep does next, with the buckets and the keys still before it. -/
inductive SweepPlace where
  | protect
  | list (sw : Sweeping) (buckets : List String)
  | check (sw : Sweeping) (bucket : String) (keys buckets : List String)
  | remove (sw : Sweeping) (bucket key : String) (keys buckets : List String)
  | finished (sw : Sweeping)

/-- One step of `_find_storage_orphans`. -/
def sweepStep (env : Env) (buckets : List String) (limit : ℕ) (repair : Bool) (b : Backend) :
    SweepPlace → Moment → Backend × SweepPlace
  | .protect, m => (b, .list ⟨pendingKeys b.db m.now, [], 0⟩ buckets)
  | .list sw [], _ => (b, .finished sw)
  | .list sw (bucket :: buckets), _ =>
    (b, .check sw bucket (b.storage.listObjectKeys env bucket) buckets)
  | .check sw _ [] buckets, _ => (b, .list sw buckets)
  | .check sw bucket (key :: keys) buckets, _ =>
    if sw.orphans.length ≥ limit then (b, .list sw buckets)
    else if isClaimed b.db sw.pending ⟨bucket, key⟩ then (b, .check sw bucket keys buckets)
    else
      let sw := { sw with orphans := sw.orphans ++ [⟨⟨bucket, key⟩, none, none⟩] }
      (b, if repair then .remove sw bucket key keys buckets else .check sw bucket keys buckets)
  | .remove sw bucket key keys buckets, m =>
    ({ b with storage := b.storage.bestEffortRemove m.faults ⟨bucket, key⟩ },
      .check { sw with repaired := sw.repaired + 1 } bucket keys buckets)
  | .finished sw, _ => (b, .finished sw)

/-! ### The other request, step by step -/

/-- What a client does with the form it is given: post, then complete. -/
structure UploadClient where
  user : UserModel
  content : Bytes
  completion : UploadCompleteRequest

inductive Traffic where
  | upload (mediaId : UUID) (client : UploadClient) (body : UploadInitiateRequest)
  | importFile (user : UserModel) (info : ZipInfo) (entry : ImportObjectEntry)
      (categories : List Category)
  | relocation (objectId : UUID) (request : ObjectRequest)

/-- The id of the object the request is about. -/
def Traffic.id : Traffic → UUID
  | .upload mediaId _ _ => mediaId
  | .importFile _ _ entry _ => entry.id
  | .relocation objectId _ => objectId

/-- What the request does next, with what it has read so far. -/
inductive TrafficPlace where
  | initiate (client : UploadClient) (body : UploadInitiateRequest)
  | recordUpload (staged : StagedUpload) (req : UploadInitiateRequest) (form : UploadForm)
      (client : UploadClient)
  | post (form : UploadForm) (client : UploadClient)
  | stage (user : UserModel) (info : ZipInfo) (entry : ImportObjectEntry)
      (categories : List Category)
  | put (staged : StagedUpload) (req : UploadInitiateRequest) (data : Option Bytes)
      (user : UserModel) (completion : UploadCompleteRequest)
  | dropUnstored (l : Location)
  | recordImport (staged : StagedUpload) (req : UploadInitiateRequest) (user : UserModel)
      (completion : UploadCompleteRequest)
  | complete (p : RacePlace)
  | relocate (p : RelocationPlace)
  | finished

def Traffic.start : Traffic → TrafficPlace
  | .upload _ client body => .initiate client body
  | .importFile user info entry categories => .stage user info entry categories
  | .relocation _ request => .relocate (.read request)

/-- The checks of `initiate_upload` up to the signed form. -/
def initiateStep (env : Env) (id : UUID) (db : Database) (m : Moment) (client : UploadClient)
    (body : UploadInitiateRequest) : TrafficPlace :=
  match body.validated env with
  | none => .finished
  | some req =>
    match stageUpload env db client.user req id with
    | .error _ => .finished
    | .ok staged =>
      match createUploadUrl m.faults staged.location req.mimeType
          (min req.expectedSizeBytes (maxSizeForCategory env.settings req.category.str))
          env.settings.s3PresignedUrlExpireSeconds m.now with
      | none => .finished
      | some form => .recordUpload staged req form client

/-- The checks of `_import_one_file` up to the put. -/
def stageStep (env : Env) (db : Database) (user : UserModel) (info : ZipInfo)
    (entry : ImportObjectEntry) (categories : List Category) : TrafficPlace :=
  if !isAllowedDeclaredMime entry.mimeType then .finished
  else if info.fileSize > maxSizeForCategory env.settings entry.category.str then .finished
  else
    match (entryRequest env entry info.fileSize categories).validated env with
    | none => .finished
    | some req =>
      match stageUpload env db user req entry.id with
      | .error _ => .finished
      | .ok staged =>
        .put staged req info.read user ⟨entry.sha256, some (categories.map Category.id)⟩

/-- One step of the request for the object `id`. -/
def trafficStep (env : Env) (id : UUID) (b : Backend) :
    TrafficPlace → Moment → Backend × TrafficPlace
  | .initiate client body, m => (b, initiateStep env id b.db m client body)
  | .recordUpload staged req form client, m =>
    match recordUploadSession b.db staged req m.now
        (m.now + seconds env.settings.s3PresignedUrlExpireSeconds) with
    | .error _ => (b, .finished)
    | .ok db => ({ b with db := db }, .post form client)
  | .post form client, m =>
    -- the client, not the service; storage accepts within the form's window and cap
    ({ b with storage :=
        if m.now ≤ form.expiresAt ∧ client.content.length ≤ form.maxSizeBytes then
          b.storage.put ⟨form.location, client.content, form.contentType⟩
        else b.storage },
      .complete (.read (.complete client.user client.completion)))
  | .stage user info entry categories, _ => (b, stageStep env b.db user info entry categories)
  | .put staged req data user completion, m =>
    match data.bind fun data =>
        b.storage.putObjectStream m.faults staged.location data req.mimeType with
    | none => (b, .dropUnstored staged.location)
    | some storage => ({ b with storage := storage }, .recordImport staged req user completion)
  | .dropUnstored l, m =>
    ({ b with storage := b.storage.bestEffortRemove m.faults l }, .finished)
  | .recordImport staged req user completion, m =>
    match recordUploadSession b.db staged req m.now
        (m.now + seconds env.settings.s3PresignedUrlExpireSeconds) with
    | .error _ => (b, .finished)
    | .ok db => ({ b with db := db }, .complete (.read (.complete user completion)))
  | .complete p, m => ((raceStep env id b p m).1, .complete (raceStep env id b p m).2)
  | .relocate p, m => ((relocationStep env id b p m).1, .relocate (relocationStep env id b p m).2)
  | .finished, _ => (b, .finished)

/-! ### Both together -/

abbrev Repair := Duo Backend SweepPlace TrafficPlace

/-- The sweep's turns are `false`, the request's `true`. -/
abbrev repairTurn (env : Env) (buckets : List String) (limit : ℕ) (repair : Bool) (id : UUID) :
    Repair → Bool × Moment → Repair :=
  duoTurn (sweepStep env buckets limit repair) (trafficStep env id)

def repairStart (b : Backend) (request : Traffic) : Repair := ⟨b, .protect, request.start⟩

/-! ### What must not happen, and when it does not -/

/-- The session `id` is initiated, its bytes on their way to `l`. -/
def Database.Awaits (db : Database) (id : UUID) (l : Location) : Prop :=
  ∃ s ∈ db.sessions.find id, s.status = .initiated ∧ s.location = l

instance (db : Database) (id : UUID) (l : Location) : Decidable (db.Awaits id l) :=
  inferInstanceAs (Decidable (∃ _ ∈ _, _))

/-- The request has put bytes at `l` that neither a session nor a row shows yet. -/
def TrafficPlace.Holds : TrafficPlace → Location → Prop
  | .recordImport staged _ _ _, l => l = staged.location
  | .relocate (.commitPatch _ o _ bucket), l | .relocate (.commitDelete o bucket), l =>
    ∃ x ∈ bucket, l = ⟨x, o.objectKey⟩
  | _, _ => False

/-- The request's next step puts bytes at `l` or records a session for it. -/
def TrafficPlace.Takes (settings : Settings) : TrafficPlace → Location → Prop
  | .recordUpload staged _ _ _, l | .put staged _ _ _ _, l => l = staged.location
  | .post form _, l => l = form.location
  | .relocate (.copyFor u o _), l =>
    ∃ v ∈ u.visibility.join, l = ⟨bucketForVisibility settings v, o.objectKey⟩
  | .relocate (.archive o), l => l = ⟨bucketForStorageClass settings .archive, o.objectKey⟩
  | _, _ => False

/-- The key the sweep is about to call an orphan: within its limit, neither
protected nor in a row. -/
def SweepPlace.condemned (limit : ℕ) (db : Database) : SweepPlace → Option Location
  | .check sw bucket (key :: _) _ =>
    if sw.orphans.length < limit ∧ isClaimed db sw.pending ⟨bucket, key⟩ = false then
      some ⟨bucket, key⟩
    else none
  | _ => none

/-- The orphan the sweep is about to remove. -/
def SweepPlace.removed : SweepPlace → Option Location
  | .remove _ bucket key _ _ => some ⟨bucket, key⟩
  | _ => none

/-- The locations the sweep called orphans. -/
def SweepPlace.orphans : SweepPlace → List Location
  | .protect => []
  | .list sw _ | .check sw _ _ _ | .remove sw _ _ _ _ | .finished sw =>
    sw.orphans.map OrphanRecord.location

/-- The sweep condemns no key at which the request awaits or holds bytes, and the
request takes no location that the sweep, having condemned it, is about to remove. -/
def RepairClear (settings : Settings) (limit : ℕ) (id : UUID) (s : Repair) : Bool × Moment → Prop
  | (false, _) => ∀ l ∈ s.left.condemned limit s.shared.db,
      ¬ s.shared.db.Awaits id l ∧ ¬ s.right.Holds l
  | (true, _) => ∀ l ∈ s.left.removed, ¬ s.right.Takes settings l

/-- No step of the sweep takes the bytes of an initiated session. -/
def SparesInitiated (s : Repair) : Bool × Moment → Prop
  | (false, m) => ∀ l ∈ s.left.removed, (s.shared.storage.content l).isSome = true →
      m.faults .remove l = false →
        ∀ q ∈ s.shared.db.sessions, q.status = .initiated → q.location ≠ l
  | (true, _) => True

/-- The bytes of the request's row, other than a rejected one, are not gone from a
location the sweep called an orphan. -/
def RowSpared (id : UUID) (b : Backend) (orphans : List Location) : Prop :=
  ∀ o ∈ b.db.objects.find id, o.status ≠ .rejected → o.location ∈ orphans →
    (b.storage.content o.location).isSome = true

section Decidable

instance : (p : TrafficPlace) → (l : Location) → Decidable (p.Holds l)
  | .recordImport _ _ _ _, _ => inferInstanceAs (Decidable (_ = _))
  | .relocate (.commitPatch _ _ _ _), _ | .relocate (.commitDelete _ _), _ =>
    inferInstanceAs (Decidable (∃ _ ∈ _, _))
  | .initiate _ _, _ | .recordUpload _ _ _ _, _ | .post _ _, _ | .stage _ _ _ _, _ |
    .put _ _ _ _ _, _ | .dropUnstored _, _ | .complete _, _ | .relocate (.read _), _ |
    .relocate (.copyFor _ _ _), _ | .relocate (.archive _), _ | .relocate .reread, _ |
    .relocate (.drop _ _), _ | .relocate (.finished _), _ | .finished, _ =>
    inferInstanceAs (Decidable False)

instance (settings : Settings) :
    (p : TrafficPlace) → (l : Location) → Decidable (p.Takes settings l)
  | .recordUpload _ _ _ _, _ | .put _ _ _ _ _, _ | .post _ _, _ | .relocate (.archive _), _ =>
    inferInstanceAs (Decidable (_ = _))
  | .relocate (.copyFor _ _ _), _ => inferInstanceAs (Decidable (∃ _ ∈ _, _))
  | .initiate _ _, _ | .stage _ _ _ _, _ | .dropUnstored _, _ | .recordImport _ _ _ _, _ |
    .complete _, _ | .relocate (.read _), _ | .relocate (.commitPatch _ _ _ _), _ |
    .relocate (.commitDelete _ _), _ | .relocate .reread, _ | .relocate (.drop _ _), _ |
    .relocate (.finished _), _ | .finished, _ => inferInstanceAs (Decidable False)

instance (settings : Settings) (limit : ℕ) (id : UUID) (s : Repair) :
    (m : Bool × Moment) → Decidable (RepairClear settings limit id s m)
  | (false, _) | (true, _) => inferInstanceAs (Decidable (∀ _ ∈ _, _))

instance (s : Repair) : (m : Bool × Moment) → Decidable (SparesInitiated s m)
  | (false, _) => inferInstanceAs (Decidable (∀ _ ∈ _, _ → _ → ∀ q ∈ s.shared.db.sessions.rows, _))
  | (true, _) => inferInstanceAs (Decidable True)

instance (id : UUID) (b : Backend) (orphans : List Location) :
    Decidable (RowSpared id b orphans) :=
  inferInstanceAs (Decidable (∀ _ ∈ _, _))

end Decidable

end MediaService
