import MediaService.Core.Presets

/-! User-managed image presets: list a caller's, with the built-ins that none of them
shadows, and create, replace and delete a named recipe. -/

namespace MediaService

open Foundation

structure ImagePresetCreate where
  name : String
  spec : PresetSpec
  name_length : 1 ≤ name.length ∧ name.length ≤ 64

structure ImagePresetPublic where
  id : Option UUID
  name : String
  spec : PresetSpec
  builtin : Bool
  deriving DecidableEq

/-- `_row_public`. -/
def ImagePreset.rowPublic (row : ImagePreset) : ImagePresetPublic :=
  ⟨some row.id, row.name, row.spec, false⟩

/-- The built-ins, less the shadowed names, and then the caller's rows. -/
def listPresets (db : Database) (user : UserModel) : List ImagePresetPublic :=
  let rows := db.presets.rows.filter fun p => p.ownerUserId = user.id ∧ p.tenantId = user.tenantId
  let builtins := builtinPresets.filter fun p => !rows.any fun row => row.name = p.1
  (builtins.map fun p => ⟨none, p.1, p.2, true⟩) ++ rows.map ImagePreset.rowPublic

def loadOwnedPreset (db : Database) (user : UserModel) (presetId : UUID) :
    Except Failure ImagePreset :=
  match db.presets.find presetId with
  | none => refuse 404 "Preset not found."
  | some row =>
    if !user.isSuperuser ∧ row.ownerUserId ≠ user.id then refuse 403 "Not enough permissions."
    else .ok row

/-- A duplicate name in the caller's scope is refused. -/
def createPreset (db : Database) (presetId : UUID) (user : UserModel) (req : ImagePresetCreate) :
    Except Failure Database :=
  if db.presets.rows.any fun p =>
      p.ownerUserId = user.id ∧ p.name = req.name ∧ p.tenantId = user.tenantId then
    refuse 409 ("Preset already exists: " ++ req.name)
  else
    match db.presets.insert ⟨presetId, user.id, user.tenantId, req.name, req.spec⟩ with
    | none => .error .integrityError
    | some t => .ok { db with presets := t }

def updatePreset (db : Database) (user : UserModel) (presetId : UUID) (spec : PresetSpec) :
    Except Failure Database :=
  match loadOwnedPreset db user presetId with
  | .error e => .error e
  | .ok row => .ok { db with presets := db.presets.update { row with spec := spec } }

def deletePreset (db : Database) (user : UserModel) (presetId : UUID) : Except Failure Database :=
  match loadOwnedPreset db user presetId with
  | .error e => .error e
  | .ok row => .ok { db with presets := db.presets.erase row.id }

end MediaService
