import MediaService.Core.Config

/-! Content validation: the declared-type allowlist, the magic-byte check, the
digest check, the size caps and the filename policy. -/

namespace MediaService

def allowedDeclaredMime : List String :=
  ["image/jpeg", "image/png", "image/gif", "image/webp", "image/bmp", "image/tiff", "image/heic",
    "image/avif", "video/mp4", "video/webm", "video/quicktime", "audio/mpeg", "audio/ogg",
    "audio/wav", "audio/flac", "application/pdf", "application/zip", "text/plain", "text/csv",
    "application/json"]

/-- The allowed types the sniffer cannot recognise. -/
def unsniffableDeclared : List String := ["text/plain", "text/csv", "application/json"]

def mediaMajors : List String := ["image", "video", "audio"]

def isAllowedDeclaredMime (declared : String) : Bool := declared ∈ allowedDeclaredMime

/-- `mime.split("/")[0]`. -/
def mimeMajor (mime : String) : String := String.ofList (mime.toList.takeWhile (· ≠ '/'))

def mimeConsistent (declared : String) (sniffed : Option String) : Bool :=
  if declared ∉ allowedDeclaredMime then false
  else
    match sniffed with
    | none => declared ∈ unsniffableDeclared
    | some s =>
      declared = s ∨ (mimeMajor declared = mimeMajor s ∧ mimeMajor declared ∈ mediaMajors)

/-- `verify_sha256_stream`, over the whole of the streamed content. -/
def verifySha256 (env : Env) (content : Bytes) (expected : String) : Bool :=
  env.sha256Hex content = env.lower expected

/-- The category's own cap where one is configured, else the global one. -/
def maxSizeForCategory (settings : Settings) (category : String) : ℕ :=
  (settings.mediaMaxUploadSizeBytesPerCategory.lookup category).getD
    settings.mediaMaxUploadSizeBytes

/-! ### Filenames -/

def maxFilenameLength : ℕ := 255

def forbiddenFilenameChars : List Char := ['/', '\\', '<', '>', ':', '"', '|', '?', '*']

def fallbackFilename : String := "file"

def isForbiddenFilenameChar (env : Env) (c : Char) : Bool :=
  c ∈ forbiddenFilenameChars ∨ env.isOtherCategory c

/-- Empty, or made of dots only. -/
def isDots (name : String) : Bool := name.toList.all (· = '.')

/-- `validate_filename`; `none` where it raises. -/
def validateFilename (env : Env) (value : String) : Option String :=
  let name := strip (env.nfc value)
  if isDots name then none
  else if maxFilenameLength < name.length then none
  else if name.toList.any (isForbiddenFilenameChar env) then none
  else some name

def sanitizeFilename (env : Env) (value : Option String) : String :=
  let name := lastSegment (replaceChar '\\' '/' (strip (env.nfc (value.getD ""))))
  let name := String.ofList
    (name.toList.map fun c => if isForbiddenFilenameChar env c then '_' else c)
  let name := strip (String.ofList ((strip name).toList.take maxFilenameLength))
  if isDots name then fallbackFilename else name

end MediaService
