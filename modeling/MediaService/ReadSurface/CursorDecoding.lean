import MediaService.ReadSurface.Traversal

/-! Decoding a cursor, stage by stage, as the code returns it: text may hold lone surrogates,
which a `str` can. A cursor is the caller's, and every stage can fail; most failures are
caught and refused as an invalid cursor. Here are the ones that are not. -/

namespace MediaService

open Foundation

/-- The library of a cursor, with the rest of what its calls can raise. -/
structure DecodingLibrary extends CursorLibrary where
  /-- Whether the nesting of a list or dictionary is too deep for `repr`. -/
  reprGivesUp : Json → Bool
  intOfFloat_error : ∀ literal e, intOfFloat literal = .error e → e = .overflowError

/-- What decoding makes of a sort value. -/
def SortField.Decoded : SortField → Type
  | .originalFilename | .category | .status => CodePoints
  | .sizeBytes => ℤ
  | .createdAt => Timestamp

/-- `str` of a value fails. -/
def DecodingLibrary.strFails (lib : DecodingLibrary) : Json → Bool
  | .arr items => lib.reprGivesUp (.arr items)
  | .obj members => lib.reprGivesUp (.obj members)
  | _ => false

/-- `str` of a value, where it can fail. -/
def strOrRaise (lib : DecodingLibrary) (v : Json) : Except Failure CodePoints :=
  if lib.strFails v then .error .recursionError else .ok (strOf lib.toCursorLibrary v)

def decodedSortValue (env : Env) (lib : DecodingLibrary) :
    (f : SortField) → Json → Except Failure f.Decoded
  | .originalFilename, raw | .category, raw | .status, raw => strOrRaise lib raw
  | .sizeBytes, raw =>
    match intOf env lib.toCursorLibrary raw with
    | .error e => .error e
    | .ok none => invalidCursor
    | .ok (some i) => .ok i
  | .createdAt, raw =>
    match raw with
    | .str s =>
      match lib.fromisoformat s with
      | none => invalidCursor
      | some t => .ok t
    | _ => invalidCursor

/-- The pair of a payload, its id first. -/
def decodedPayload (env : Env) (lib : DecodingLibrary) (f : SortField) (payload : Json) :
    Except Failure (f.Decoded × UUID) :=
  match payload.member "id" with
  | none => invalidCursor
  | some idValue =>
    match strOrRaise lib idValue with
    | .error e => .error e
    | .ok s =>
      match (textOf s).bind (parseUuid env) with
      | none => invalidCursor
      | some id =>
        match payload.member "v" with
        | none => invalidCursor
        | some raw => (decodedSortValue env lib f raw).map fun v => (v, id)

/-- `_decode_cursor`, of any `str`. -/
def decodedCursor (env : Env) (lib : DecodingLibrary) (f : SortField) (cursor : CodePoints) :
    Except Failure (f.Decoded × UUID) :=
  match (textOf cursor).bind fun s => (Base64.decode s.toList).bind decodeUtf8 with
  | none => invalidCursor
  | some text =>
    match Json.loads lib.jsonDepth text with
    | .error .recursionError => .error .recursionError
    | .error .valueError => invalidCursor
    | .ok payload => decodedPayload env lib f payload

/-! ### The listing's cursor -/

/-- A sort value on its way to the database, whose driver sends no lone surrogate. -/
def sentSortValue : (f : SortField) → f.Decoded → Except Failure f.Value
  | .originalFilename, (s : CodePoints) | .category, (s : CodePoints) | .status, (s : CodePoints) =>
    match textOf s with
    | none => .error (.valueError "surrogates not allowed")
    | some text => .ok text
  | .sizeBytes, (i : ℤ) => .ok i
  | .createdAt, (t : Timestamp) => .ok t

variable {env : Env} {lib : DecodingLibrary} {f : SortField}

theorem strOrRaise_ok {v : Json} (h : lib.strFails v = false) :
    strOrRaise lib v = .ok (strOf lib.toCursorLibrary v) := by
  rw [strOrRaise, h]
  rfl

/-- The cursor that listings decode is this one, sent to the database. -/
theorem decodeCursor_eq (hrepr : ∀ v, lib.reprGivesUp v = false) (cursor : String) :
    decodeCursor env lib.toCursorLibrary f cursor =
      (decodedCursor env lib f (codePoints cursor)).bind fun p =>
        (sentSortValue f p.1).map fun v => (v, p.2) := by
  have hstr : ∀ v, strOrRaise lib v = .ok (strOf lib.toCursorLibrary v) := by
    refine fun v => strOrRaise_ok ?_
    cases v with
    | arr items => exact hrepr _
    | obj members => exact hrepr _
    | _ => rfl
  have hvalue : ∀ raw, decodeSortValue env lib.toCursorLibrary f raw =
      (decodedSortValue env lib f raw).bind (sentSortValue f) := by
    intro raw
    cases f with
    | sizeBytes =>
      simp only [decodeSortValue, decodedSortValue]
      cases intOf env lib.toCursorLibrary raw with
      | error e => rfl
      | ok i => cases i <;> rfl
    | createdAt =>
      cases raw with
      | str s =>
        simp only [decodeSortValue, decodedSortValue]
        cases lib.fromisoformat s <;> rfl
      | _ => rfl
    | _ =>
      simp only [decodeSortValue, decodedSortValue, hstr]
      rfl
  rw [decodeCursor, decodedCursor, Json.textOf_codePoints, Option.bind_some]
  cases (Base64.decode cursor.toList).bind decodeUtf8 with
  | none => rfl
  | some text =>
    dsimp only
    cases Json.loads lib.jsonDepth text with
    | error e => cases e <;> rfl
    | ok payload =>
      dsimp only
      rw [decodedPayload]
      cases payload.member "id" with
      | none => rfl
      | some idValue =>
        dsimp only
        rw [hstr, Option.bind_some]
        dsimp only
        cases (textOf (strOf lib.toCursorLibrary idValue)).bind (parseUuid env) with
        | none => rfl
        | some id =>
          dsimp only
          cases payload.member "v" with
          | none => rfl
          | some raw =>
            dsimp only
            rw [hvalue]
            cases decodedSortValue env lib f raw <;> rfl

/-! ### What is returned, and what is refused -/

/-- A pair is returned, or the cursor is refused as invalid. -/
def Decoded {α : Type} (x : Except Failure α) : Prop := (∃ a, x = .ok a) ∨ x = invalidCursor

/-- A sort value as decoding returns it. -/
def SortField.decoded : (f : SortField) → f.Value → f.Decoded
  | .originalFilename, (s : String) | .category, (s : String) | .status, (s : String) =>
    codePoints s
  | .sizeBytes, (i : ℤ) => i
  | .createdAt, (t : Timestamp) => t

end MediaService
