import MediaService.Core.Config
import MediaService.DbModels.Database

/-! Object storage: what is stored at each location, the operations the service
performs on it, and the buckets they address. A fault pattern says which
operation fails on which location; a failed operation changes nothing. -/

namespace MediaService

open Foundation

/-! ### Buckets -/

inductive StorageClass where
  | temp | archive
  deriving DecidableEq

def bucketForVisibility (settings : Settings) : MediaVisibility → String
  | .public => settings.s3BucketPublic
  | .private => settings.s3BucketPrivate
  | .sensitive => settings.s3BucketSensitive
  | .tenant => settings.s3BucketPrivate

def bucketForStorageClass (settings : Settings) : StorageClass → String
  | .temp => settings.s3BucketTemp
  | .archive => settings.s3BucketArchive

/-! ### Contents -/

structure StoredObject where
  location : Location
  content : Bytes
  contentType : String
  deriving DecidableEq

abbrev Storage := Table StoredObject.location

inductive StorageOp where
  | stat | head | stream | setContentType | copy | remove | put | presign
  deriving DecidableEq

/-- Which operations fail on which locations. -/
abbrev Faults := StorageOp → Location → Bool

def Faults.none : Faults := fun _ _ => false

namespace Storage

variable (st : Storage) (faults : Faults)

/-- The bytes at a location. -/
def content (l : Location) : Option Bytes := (st.find l).map StoredObject.content

def read (op : StorageOp) (l : Location) : Option Bytes :=
  if faults op l then .none else st.content l

/-- `stat_object`, of which the service uses the size. -/
def statObject (l : Location) : Option ℕ := (st.read faults .stat l).map List.length

def getObjectHead (env : Env) (l : Location) : Option Bytes :=
  (st.read faults .head l).map (List.take env.headLength)

def streamObject (l : Location) : Option Bytes := st.read faults .stream l

def setObjectContentType (l : Location) (contentType : String) : Option Storage :=
  if faults .setContentType l then none
  else (st.find l).map fun o => st.update { o with contentType := contentType }

/-- Copy the source's bytes and content type over the destination. -/
def copyObject (src dest : Location) : Option Storage :=
  if faults .copy src then none
  else (st.find src).map fun o => st.put { o with location := dest }

/-- Removing a key that is not there succeeds. -/
def removeObject (l : Location) : Option Storage :=
  if faults .remove l then none else some (st.erase l)

/-- `_best_effort_remove`: a storage error is logged and swallowed. -/
def bestEffortRemove (l : Location) : Storage := (st.removeObject faults l).getD st

def putObjectStream (l : Location) (content : Bytes) (contentType : String) : Option Storage :=
  if faults .put l then none else some (st.put ⟨l, content, contentType⟩)

/-- The keys stored in a bucket, in listing order. -/
def listObjectKeys (env : Env) (bucket : String) : List String :=
  env.listing ((st.rows.filter fun o => o.location.bucket = bucket).map fun o =>
    o.location.objectKey)

/-! ### What each operation leaves at a location -/

variable {st faults}

theorem find_bestEffortRemove (l l' : Location) :
    (st.bestEffortRemove faults l).find l' =
      if faults .remove l = false ∧ l' = l then none else st.find l' := by
  unfold bestEffortRemove removeObject
  cases faults .remove l <;> simp [Table.find_erase]

theorem find_setObjectContentType {l : Location} {ct : String} {st' : Storage}
    (h : st.setObjectContentType faults l ct = some st') (l' : Location) :
    (st'.find l').map StoredObject.content = (st.find l').map StoredObject.content := by
  unfold setObjectContentType at h
  split at h
  · cases h
  · rw [Option.map_eq_some_iff] at h
    obtain ⟨o, ho, rfl⟩ := h
    have hl := Table.key_of_find ho
    rw [Table.find_update]
    split
    · rename_i he
      rw [he, show ({ o with contentType := ct } : StoredObject).location = l from hl, ho]
      rfl
    · rfl

theorem content_setObjectContentType {l : Location} {ct : String} {st' : Storage}
    (h : st.setObjectContentType faults l ct = some st') (l' : Location) :
    st'.content l' = st.content l' :=
  find_setObjectContentType h l'

theorem find_copyObject {src dest : Location} {st' : Storage}
    (h : st.copyObject faults src dest = some st') (l : Location) :
    st'.content l = if l = dest then st.content src else st.content l := by
  unfold copyObject at h
  split at h
  · cases h
  · rw [Option.map_eq_some_iff] at h
    obtain ⟨o, ho, rfl⟩ := h
    simp only [content, Table.find_put]
    split
    · simp [ho]
    · rfl

theorem content_bestEffortRemove (l l' : Location) :
    (st.bestEffortRemove faults l).content l' =
      if faults .remove l = false ∧ l' = l then none else st.content l' := by
  rw [content, find_bestEffortRemove]
  split <;> rfl

theorem content_putObjectStream {l : Location} {c : Bytes} {ct : String} {st' : Storage}
    (h : st.putObjectStream faults l c ct = some st') (l' : Location) :
    st'.content l' = if l' = l then some c else st.content l' := by
  unfold putObjectStream at h
  split at h
  · cases h
  · cases h
    simp only [content, Table.find_put]
    split <;> rfl

/-- A listing names exactly the stored keys of its bucket, each once. -/
theorem mem_listObjectKeys {env : Env} {bucket key : String} :
    key ∈ st.listObjectKeys env bucket ↔ (st.content ⟨bucket, key⟩).isSome := by
  rw [listObjectKeys, (env.listing_perm _).mem_iff]
  simp only [List.mem_map, List.mem_filter, decide_eq_true_eq, content, Option.isSome_map]
  constructor
  · rintro ⟨o, ⟨ho, rfl⟩, rfl⟩
    rw [show (⟨o.location.bucket, o.location.objectKey⟩ : Location) = o.location from rfl,
      Table.find_of_mem ho]
    rfl
  · intro h
    obtain ⟨o, ho⟩ := Option.isSome_iff_exists.mp h
    have hl := Table.key_of_find ho
    exact ⟨o, ⟨Table.mem_of_find ho, by rw [hl]⟩, by rw [hl]⟩

theorem nodup_listObjectKeys (env : Env) (bucket : String) :
    (st.listObjectKeys env bucket).Nodup := by
  rw [listObjectKeys, (env.listing_perm _).nodup_iff]
  have hn : ((st.rows.filter fun o => o.location.bucket = bucket).map
      StoredObject.location).Nodup := st.nodup.sublist (List.filter_sublist.map _)
  have hmap : (st.rows.filter fun o => o.location.bucket = bucket).map StoredObject.location =
      ((st.rows.filter fun o => o.location.bucket = bucket).map
        fun o => o.location.objectKey).map fun k => (⟨bucket, k⟩ : Location) := by
    rw [List.map_map]
    apply List.map_congr_left
    intro o ho
    have hb := (List.mem_filter.mp ho).2
    rw [decide_eq_true_eq] at hb
    simp [← hb]
  rw [hmap] at hn
  exact hn.of_map

end Storage

/-! ### Presigned access -/

/-- A presigned POST form: storage takes any number of posts until it expires,
each within the size cap and under the pinned content type. -/
structure UploadForm where
  location : Location
  contentType : String
  maxSizeBytes : ℕ
  expiresAt : Timestamp
  deriving DecidableEq

/-- `create_upload_url`, signed at `now`. -/
def createUploadUrl (faults : Faults) (l : Location) (contentType : String) (maxSizeBytes : ℕ)
    (expiresSeconds : ℕ) (now : Timestamp) : Option UploadForm :=
  if faults .presign l then none
  else some ⟨l, contentType, maxSizeBytes, now + seconds expiresSeconds⟩

/-- A presigned download: what it opens, until when, and the served filename. -/
structure DownloadUrl where
  location : Location
  expiresAt : Timestamp
  filename : Option String
  deriving DecidableEq

/-! ### Database and storage together -/

/-- What a request reads and writes: rows on one side, bytes on the other. -/
structure Backend where
  db : Database
  storage : Storage

def Backend.empty : Backend := ⟨Database.empty, ∅⟩

/-- When a step is taken, and which storage operations fail in it. -/
structure Moment where
  now : Timestamp
  faults : Faults

end MediaService
