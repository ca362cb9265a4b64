import MediaService.Controllers.Listing
import MediaService.Controllers.Outbox
import MediaService.Foundation.Base64
import MediaService.Foundation.Json

/-! The cursor of a listing: the sort value and the id of a page's last row, as
JSON in URL-safe base64. A caller can send any text as a cursor, so reading one
can fail in every step; what the service spells it reads back. -/

namespace MediaService

open Foundation

/-- What the spelling of a cursor takes from Python's library: instants in ISO
8601, floats, `str` of a value that is no string, and how deep the JSON decoder
reads. -/
structure CursorLibrary where
  isoformat : Timestamp → String
  fromisoformat : CodePoints → Option Timestamp
  /-- `int(float(literal))`, `none` for what is no number; an infinity overflows. -/
  intOfFloat : List Char → Except Failure (Option ℤ)
  /-- `repr` of a float, a list or a dictionary. -/
  repr : Json → CodePoints
  jsonDepth : ℕ
  fromisoformat_isoformat : ∀ t, 0 ≤ t → t ≤ datetimeMax →
    fromisoformat (codePoints (isoformat t)) = some t
  one_le_jsonDepth : 1 ≤ jsonDepth

/-! ### Text -/

def encodeUtf8 (cs : List Char) : List UInt8 := (String.ofList cs).toUTF8.data.toList

/-- `bytes.decode()`; `none` where it raises. -/
def decodeUtf8 (bytes : List UInt8) : Option (List Char) :=
  (String.fromUTF8? ⟨bytes.toArray⟩).map String.toList

/-- Digits with single underscores between them, of which `count` are read. -/
def intDigits (env : Env) : Bool → ℕ → ℕ → List Char → Option ℕ
  | afterDigit, count, n, [] =>
    if afterDigit ∧ count ≤ Json.maxIntDigits then some n else none
  | afterDigit, count, n, c :: cs =>
    if c = '_' then if afterDigit then intDigits env false count n cs else none
    else
      match env.decimal c with
      | none => none
      | some d => intDigits env true (count + 1) (10 * n + d) cs

/-- `int(s)`; `none` where it raises. -/
def parseInt (env : Env) (s : String) : Option ℤ :=
  match (strip s).toList with
  | '-' :: cs => (intDigits env false 0 0 cs).map fun n => -(n : ℤ)
  | '+' :: cs => (intDigits env false 0 0 cs).map Int.ofNat
  | cs => (intDigits env false 0 0 cs).map Int.ofNat

/-! ### Encoding -/

def encodeSortValue (lib : CursorLibrary) : (f : SortField) → f.Value → Json
  | .originalFilename, (v : String) => .str (codePoints v)
  | .category, (v : String) => .str (codePoints v)
  | .status, (v : String) => .str (codePoints v)
  | .sizeBytes, (v : ℤ) => .int v
  | .createdAt, (v : Timestamp) => .str (codePoints (lib.isoformat v))

def cursorPayload (lib : CursorLibrary) (f : SortField) (p : f.Value × UUID) : Json :=
  .obj [(codePoints "v", encodeSortValue lib f p.1), (codePoints "id", .str (codePoints p.2.str))]

/-- `_encode_cursor`. -/
def encodeCursor (lib : CursorLibrary) (f : SortField) (p : f.Value × UUID) : String :=
  String.ofList (Base64.encode (encodeUtf8 (cursorPayload lib f p).dumps))

/-! ### Decoding -/

/-- `str` of a value. -/
def strOf (lib : CursorLibrary) : Json → CodePoints
  | .null => codePoints "None"
  | .bool true => codePoints "True"
  | .bool false => codePoints "False"
  | .int i => (Json.dumpInt i).map Char.toNat
  | .str s => s
  | v => lib.repr v

/-- `int` of a value; `none` where it raises what makes the cursor invalid. -/
def intOf (env : Env) (lib : CursorLibrary) : Json → Except Failure (Option ℤ)
  | .bool b => .ok (some b.toInt)
  | .int i => .ok (some i)
  | .float literal => lib.intOfFloat literal
  | .str s => .ok ((textOf s).bind (parseInt env))
  | _ => .ok none

def invalidCursor {α : Type} : Except Failure α := refuse 400 "Invalid cursor."

/-- A sort value. Text with a lone surrogate is one, which the database driver
cannot send. -/
def decodeSortValue (env : Env) (lib : CursorLibrary) :
    (f : SortField) → Json → Except Failure f.Value
  | .originalFilename, raw | .category, raw | .status, raw =>
    match textOf (strOf lib raw) with
    | none => .error (.valueError "surrogates not allowed")
    | some text => .ok text
  | .sizeBytes, raw =>
    match intOf env lib raw with
    | .error e => .error e
    | .ok none => invalidCursor
    | .ok (some i) => .ok i
  | .createdAt, raw =>
    match raw with
    | .str s =>
      match lib.fromisoformat s with
      | none => invalidCursor
      | some t => .ok t
    | _ => invalidCursor

/-- `_decode_cursor`. -/
def decodeCursor (env : Env) (lib : CursorLibrary) (f : SortField) (cursor : String) :
    Except Failure (f.Value × UUID) :=
  match (Base64.decode cursor.toList).bind decodeUtf8 with
  | none => invalidCursor
  | some text =>
    match Json.loads lib.jsonDepth text with
    | .error .recursionError => .error .recursionError
    | .error .valueError => invalidCursor
    | .ok payload =>
      match (payload.member "id").bind fun id =>
        (textOf (strOf lib id)).bind (parseUuid env) with
      | none => invalidCursor
      | some id =>
        match payload.member "v" with
        | none => invalidCursor
        | some raw => (decodeSortValue env lib f raw).map fun v => (v, id)

/-- The pages of a service that spells its cursors so. -/
def Paging.withCursors (paging : Paging) (env : Env) (lib : CursorLibrary) : Paging :=
  { paging with encode := encodeCursor lib, decode := decodeCursor env lib }

theorem Paging.withCursors_encode (paging : Paging) (env : Env) (lib : CursorLibrary) :
    (paging.withCursors env lib).encode = encodeCursor lib := rfl

theorem Paging.withCursors_decode (paging : Paging) (env : Env) (lib : CursorLibrary) :
    (paging.withCursors env lib).decode = decodeCursor env lib := rfl

/-! ### What is spelled is read back -/

/-- What the columns of a row hold: a size of 64 bits, and an instant. -/
structure MediaObject.Storable (o : MediaObject) : Prop where
  sizeBytes : o.sizeBytes < 2 ^ 63
  createdAt_nonneg : 0 ≤ o.createdAt
  createdAt_le : o.createdAt ≤ datetimeMax

theorem decodeUtf8_encodeUtf8 (cs : List Char) : decodeUtf8 (encodeUtf8 cs) = some cs := by
  have hvalid : String.fromUTF8? ⟨(String.ofList cs).toUTF8.data.toList.toArray⟩ =
      some (String.ofList cs) := by
    rw [String.fromUTF8?]
    exact dif_pos (String.ofList cs).isValidUTF8
  rw [decodeUtf8, encodeUtf8, hvalid, Option.map_some, String.toList_ofList]

theorem length_dumpNat_le {n : ℕ} (h : n < 2 ^ 63) :
    (Json.dumpNat n).length ≤ Json.maxIntDigits := by
  unfold Json.dumpNat
  split
  · decide
  · have hpow : (10 : ℕ) ^ 19 ≤ 10 ^ Json.maxIntDigits :=
      Nat.pow_le_pow_right (by decide) (by decide)
    rw [Json.decimal, List.length_map, List.length_reverse, Nat.digits_length_le_iff (by decide)]
    omega

variable {lib : CursorLibrary} {env : Env} {o : MediaObject}

/-- The payload of a row's cursor is read back. -/
theorem plain_cursorPayload (ho : o.Storable) (f : SortField) :
    Json.Plain lib.jsonDepth (cursorPayload lib f (sortPosition f o)) := by
  obtain ⟨depth, hdepth⟩ : ∃ depth, lib.jsonDepth = depth + 1 :=
    ⟨lib.jsonDepth - 1, by have := lib.one_le_jsonDepth; omega⟩
  have hvalue : Json.Plain depth (encodeSortValue lib f (cursorSortValue f o)) := by
    cases f with
    | sizeBytes => exact .int _ (length_dumpNat_le ho.sizeBytes)
    | _ => exact .str _ (Json.codePoints_scalar _)
  rw [hdepth]
  have hkeys : [codePoints "v", codePoints "id"].Nodup := by decide
  refine .obj _ ?_ hkeys ?_
  · rintro m hm c hc
    rcases List.mem_pair.mp hm with rfl | rfl
    · exact Json.codePoints_scalar "v" c hc
    · exact Json.codePoints_scalar "id" c hc
  · rintro m hm
    rcases List.mem_pair.mp hm with rfl | rfl
    · exact hvalue
    · exact .str _ (Json.codePoints_scalar _)

theorem decodeSortValue_encodeSortValue (ho : o.Storable) (f : SortField) :
    decodeSortValue env lib f (encodeSortValue lib f (cursorSortValue f o)) =
      .ok (cursorSortValue f o) := by
  have htext : ∀ s : String, (match textOf (codePoints s) with
      | none => .error (.valueError "surrogates not allowed")
      | some text => .ok text) = (.ok s : Except Failure String) := by
    intro s
    rw [Json.textOf_codePoints]
  cases f with
  | sizeBytes => rfl
  | createdAt =>
    simp only [encodeSortValue, decodeSortValue, cursorSortValue,
      lib.fromisoformat_isoformat _ ho.createdAt_nonneg ho.createdAt_le]
  | _ => exact htext _

/-- A row's cursor is read back as its position. -/
theorem decodeCursor_encodeCursor (hdecimal : DecimalAscii env) (ho : o.Storable)
    (f : SortField) :
    decodeCursor env lib f (encodeCursor lib f (sortPosition f o)) = .ok (sortPosition f o) := by
  have htext : (Base64.decode (encodeCursor lib f (sortPosition f o)).toList).bind decodeUtf8 =
      some (cursorPayload lib f (sortPosition f o)).dumps := by
    rw [encodeCursor, String.toList_ofList, Base64.decode_encode]
    exact decodeUtf8_encodeUtf8 _
  have hv : (cursorPayload lib f (sortPosition f o)).member "v" =
      some (encodeSortValue lib f (cursorSortValue f o)) := rfl
  have hid : (cursorPayload lib f (sortPosition f o)).member "id" =
      some (.str (codePoints o.id.str)) := rfl
  have huuid : (textOf (codePoints o.id.str)).bind (parseUuid env) = some o.id := by
    rw [Json.textOf_codePoints, Option.bind_some, parseUuid_str hdecimal]
  rw [decodeCursor, htext]
  simp only [Json.loads_dumps (plain_cursorPayload ho f), hid, hv, Option.bind_some, strOf, huuid,
    decodeSortValue_encodeSortValue ho]
  rfl

end MediaService
