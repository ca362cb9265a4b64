import Mathlib.Data.Char
import Mathlib.Data.List.Lex
import Mathlib.Data.List.Sort
import MediaService.Controllers.Outbox
import MediaService.Service

/-! Scenarios: the configuration as it ships, surroundings that know ASCII names
and one file signature, and the requests that carry one upload from its
initiation to its completion. -/

namespace MediaService

open Foundation

/-- The defaults of the settings, each within its own bounds. -/
def Settings.default : Settings where
  s3BucketPublic := "public-media"
  s3BucketPrivate := "private-media"
  s3BucketSensitive := "sensitive-media"
  s3BucketTemp := "temp-media"
  s3BucketArchive := "archive-media"
  s3PresignedUrlExpireSeconds := 300
  mediaMaxUploadSizeBytes := 104857600
  mediaMaxUploadSizeBytesPerCategory := []
  mediaExportMaxObjects := 5000
  mediaExportMaxTotalBytes := 5368709120
  mediaExportArchiveTtlSeconds := 86400
  mediaImportMaxManifestBytes := 16777216
  mediaImportMaxArchiveBytes := 5368709120
  mediaImportMaxObjects := 5000
  mediaImportMaxTotalBytes := 5368709120
  mediaImportMaxCategories := 1000
  mediaImportMaxCategoryDepth := 10
  mediaDefaultQuotaBytes := none
  mediaDefaultQuotaObjects := none
  mediaShareDefaultExpiresSeconds := 604800
  mediaShareMaxExpiresSeconds := 2592000
  one_le_expireSeconds := by decide
  one_le_maxUploadSize := by decide
  one_le_categoryDepth := by decide

/-- The first bytes of a PNG file. -/
def pngSignature : Bytes := [0x89, 0x50, 0x4e, 0x47]

/-- Surroundings for ASCII names and PNG files; elsewhere they know nothing. -/
def Env.ascii (settings : Settings) : Env where
  settings := settings
  headLength := 8192
  sniffMime head := if pngSignature.isPrefixOf head then some "image/png" else none
  sha256Hex _ := ""
  slugify s := String.ofList (s.toList.map Char.toLower)
  lower s := String.ofList (s.toList.map Char.toLower)
  nfc := id
  isOtherCategory c := c.toNat < 0x20 ∨ c.toNat = 0x7f
  decimal c := if '0' ≤ c ∧ c ≤ '9' then some (c.toNat - '0'.toNat) else none
  listing keys := keys.insertionSort fun a b => a.toList ≤ b.toList
  lower_ascii _ _ := rfl
  listing_perm keys := List.perm_insertionSort _ keys

theorem decimalAscii_ascii (settings : Settings) : DecimalAscii (Env.ascii settings) := by
  unfold DecimalAscii
  exact (by decide : ∀ d : Fin 10, (if '0' ≤ Nat.digitChar d ∧ Nat.digitChar d ≤ '9' then
    some ((Nat.digitChar d).toNat - '0'.toNat) else none) = some d.val)

def Env.default : Env := Env.ascii Settings.default

/-- Surroundings for plain ASCII targets, with neither brackets nor user names. -/
def UrlLibrary.ascii : UrlLibrary where
  urlsplit url :=
    let scheme := url.toList.takeWhile (· ≠ ':')
    let rest := (url.toList.drop scheme.length).drop "://".length
    let netloc := rest.takeWhile fun c => c ≠ '/' ∧ c ≠ '?' ∧ c ≠ '#'
    let host := netloc.takeWhile (· ≠ ':')
    .ok (String.ofList (scheme.map Char.toLower),
      if host = [] then none else some (String.ofList (host.map Char.toLower)))
  lower s := String.ofList (s.toList.map Char.toLower)
  repr s := "'" ++ s ++ "'"
  str
    | .v4 a => String.intercalate "."
        ([24, 16, 8, 0].map fun i => toString (a.extractLsb' i 8).toNat)
    | .v6 a _ => String.intercalate ":" ((List.range 8).map fun i =>
        String.ofList (Nat.toDigits 16 (a.extractLsb' (112 - 16 * i) 16).toNat))

/-- An untenanted caller without privileges. -/
def UserModel.ordinary (id : ℕ) : UserModel := ⟨⟨.ofNat 128 id⟩, false, none⟩

/-- Declares a small PNG. -/
def pngUpload (visibility : MediaVisibility) : UploadInitiateRequest where
  category := .asset
  visibility := visibility
  originalFilename := "a.png"
  mimeType := "image/png"
  expectedSizeBytes := 64
  categoryIds := []

/-- The form an accepted initiation signs. -/
def signedForm (env : Env) (now : Timestamp) (mediaId : UUID) (user : UserModel)
    (body : UploadInitiateRequest) : UploadForm where
  location := ⟨bucketForVisibility env.settings body.visibility,
    buildObjectKey env user.id mediaId body.category body.originalFilename user.tenantId⟩
  contentType := body.mimeType
  maxSizeBytes := min body.expectedSizeBytes (maxSizeForCategory env.settings body.category.str)
  expiresAt := now + seconds env.settings.s3PresignedUrlExpireSeconds

/-- Initiate, post and complete one upload of a PNG, with nothing failing. -/
def uploadRequests (env : Env) (now : Timestamp) (mediaId : UUID) (user : UserModel)
    (visibility : MediaVisibility) (content : Bytes) : List Request :=
  let body := pngUpload visibility
  [.initiate Faults.none now mediaId user body,
    .post now (signedForm env now mediaId user body) content,
    .complete Faults.none now user mediaId ⟨none, none⟩]

/-- An upload and the clean verdict on it. -/
def cleanUploadRequests (env : Env) (now : Timestamp) (mediaId : UUID) (user : UserModel)
    (visibility : MediaVisibility) (content : Bytes) : List Request :=
  uploadRequests env now mediaId user visibility content ++ [.scanResult now mediaId .clean]

/-- A posted PNG, yet to be completed. -/
def postedRequests : List Request :=
  [.initiate Faults.none 0 ⟨2⟩ (.ordinary 1) (pngUpload .private),
    .post 0 (signedForm Env.default 0 ⟨2⟩ (.ordinary 1) (pngUpload .private)) pngSignature]

/-- It is completed with an empty digest, which nothing verifies. -/
def emptyDigestRequests : List Request :=
  postedRequests ++ [.complete Faults.none 0 (.ordinary 1) ⟨2⟩ ⟨some "", none⟩]

/-- A clean private upload. -/
def keptBackend : Backend :=
  (run (serve Env.default) World.initial
    (cleanUploadRequests Env.default 0 ⟨2⟩ (.ordinary 1) .private pngSignature)).backend

/-- The smallest built-in preset. -/
def thumbRequest : VariantGenerateRequest where
  presets := ["thumb"]
  one_le_length := by decide
  length_le := by decide

/-- The worker's report of the thumbnail of the first user's object 2. -/
def thumbRegistration (bucket : String) (h : 3 ≤ bucket.length ∧ bucket.length ≤ 63) :
    VariantRegisterRequest where
  variantName := "thumb_webp"
  storageBucket := bucket
  objectKey := "users/00000000-0000-0000-0000-000000000001/asset/" ++
    "00000000-0000-0000-0000-000000000002/variants/thumb_webp/thumb_webp.webp"
  width := some 150
  height := none
  sizeBytes := 1
  format := "webp"
  variantName_length := by decide +kernel
  storageBucket_length := h
  objectKey_length := by decide +kernel
  one_le_width := by simp
  one_le_height := by simp
  format_length := by decide

/-- A subscriber inside the cluster, which wants every event. -/
def clusterSubscription : Subscription where
  id := ⟨20⟩
  url := "http://media_worker:8000/hook"
  secret := "0123456789abcdef"
  eventTypes := []
  active := true
  createdAt := 0

/-- The policy of a development stack that names its own worker. -/
def clusterPolicy : WebhookPolicy := ⟨false, ["media_worker"]⟩

/-- An event staged at the first instant. -/
def readyEvent (id : ℕ) : OutboxRow :=
  recordedRow ⟨.ofNat 128 id⟩ 0 0 "object.ready" ⟨2⟩ [("status", "ready")]

end MediaService
