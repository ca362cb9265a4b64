import MediaService.DbModels.Database
import MediaService.Storage.Keys

/-! Image presets and their expansion into the variant specs of a worker job.
A caller's preset shadows a built-in of the same name; each preset becomes one
spec for each output format, aimed at the bucket the object is in. -/

namespace MediaService

open Foundation

/-! ### Built-in presets -/

def maxPresetsPerRequest : ℕ := 16

def maxOutputsPerJob : ℕ := 32

def maxJobPixelArea : ℕ := 268435456

/-- A single-format WEBP preset of a fixed width. -/
def webp (width : ℕ) (h : 1 ≤ width ∧ width ≤ maxPresetDimension) : PresetSpec where
  imageSize := ⟨some width, none, none⟩
  formats := [⟨.webp, 80, by decide, by decide⟩]
  allowUpscale := false
  maxByteSize := none
  formats_ne_nil := by simp
  formats_length := by decide
  formats_nodup := by simp
  dimension_le d hd := by
    rcases hd with hd | hd | hd <;> cases hd
    exact h
  area_le w k hw hk := by cases hk
  byteSize_le n hn := by cases hn

def builtinPresets : List (String × PresetSpec) :=
  [("thumb", webp 150 (by decide)), ("small", webp 320 (by decide)),
    ("medium", webp 800 (by decide)), ("large", webp 1600 (by decide))]

/-- `merged_presets`, looked up by name: the caller's rows over the built-ins. -/
def lookupPreset (db : Database) (user : UserModel) (name : String) : Option PresetSpec :=
  let rows := db.presets.rows.filter fun p =>
    p.ownerUserId = user.id ∧ p.tenantId = user.tenantId ∧ p.name = name
  match rows.getLast? with
  | some row => some row.spec
  | none => builtinPresets.lookup name

/-! ### Expansion -/

/-- The single-format options handed to the worker. -/
structure OutputOptions where
  name : String
  imageSize : ImageSizeSpec
  format : FormatSpec
  allowUpscale : Bool
  maxByteSize : Option ℕ
  deriving DecidableEq

structure VariantSpec where
  variantName : String
  outputOptions : OutputOptions
  targetBucket : String
  targetKey : String
  deriving DecidableEq

def VariantSpec.target (spec : VariantSpec) : Location := ⟨spec.targetBucket, spec.targetKey⟩

/-- `_expand`, for one format. -/
def expandFormat (env : Env) (name : String) (spec : PresetSpec) (o : MediaObject)
    (fmt : FormatSpec) : VariantSpec :=
  let ext := env.lower fmt.ext.str
  let variantName := name ++ "_" ++ ext
  { variantName := variantName
    outputOptions := ⟨variantName, spec.imageSize, fmt, spec.allowUpscale, spec.maxByteSize⟩
    targetBucket := o.storageBucket
    targetKey := buildVariantKey env o.ownerUserId o.id o.category variantName
      (variantName ++ "." ++ ext) o.tenantId }

def expand (env : Env) (name : String) (spec : PresetSpec) (o : MediaObject) :
    List VariantSpec :=
  spec.formats.map (expandFormat env name spec o)

/-- `_geometry_cost`: a free dimension is charged at the maximum. -/
def geometryCost (size : ImageSizeSpec) : ℕ :=
  ((size.fixedWidth.or size.fixedSize).getD maxPresetDimension) *
    ((size.fixedHeight.or size.fixedSize).getD maxPresetDimension)

/-- The specs and summed cost of the named presets, in order. -/
def expandPresets (env : Env) (db : Database) (user : UserModel) (o : MediaObject) :
    List String → Except Failure (List VariantSpec × ℕ)
  | [] => .ok ([], 0)
  | name :: names =>
    match lookupPreset db user name with
    | none => refuse 422 ("Unknown preset: " ++ name)
    | some spec =>
      match expandPresets env db user o names with
      | .error e => .error e
      | .ok (specs, cost) =>
        let expanded := expand env name spec o
        .ok (expanded ++ specs, geometryCost spec.imageSize * expanded.length + cost)

def resolvePresets (env : Env) (db : Database) (user : UserModel) (names : List String)
    (o : MediaObject) : Except Failure (List VariantSpec) :=
  match expandPresets env db user o names with
  | .error e => .error e
  | .ok (specs, cost) =>
    if specs.length > maxOutputsPerJob then
      refuse 422 ("Variant job expands to " ++ toString specs.length ++
        " outputs, exceeding the maximum " ++ toString maxOutputsPerJob ++ ".")
    else if cost > maxJobPixelArea then
      refuse 422 ("Variant job output area cost " ++ toString cost ++ " exceeds the maximum " ++
        toString maxJobPixelArea ++ ".")
    else .ok specs

variable {env : Env} {db : Database} {user : UserModel} {names : List String} {o : MediaObject}
  {specs : List VariantSpec}

/-- A job is what its preset names expand to, within the two ceilings. -/
theorem resolvePresets_eq_ok : resolvePresets env db user names o = .ok specs ↔
    ∃ cost, expandPresets env db user o names = .ok (specs, cost) ∧
      specs.length ≤ maxOutputsPerJob ∧ cost ≤ maxJobPixelArea := by
  rw [resolvePresets]
  split
  · rename_i hexpand
    constructor
    · intro h
      cases h
    · rintro ⟨cost, he, -⟩
      cases hexpand.symm.trans he
  · rename_i specs' cost hexpand
    split
    · rename_i hlong
      refine ⟨fun h => absurd h refuse_ne_ok, ?_⟩
      rintro ⟨cost', he, hlength, -⟩
      cases hexpand.symm.trans he
      exact absurd hlength (Nat.not_le_of_lt hlong)
    · split
      · rename_i hlarge
        refine ⟨fun h => absurd h refuse_ne_ok, ?_⟩
        rintro ⟨cost', he, -, harea⟩
        cases hexpand.symm.trans he
        exact absurd harea (Nat.not_le_of_lt hlarge)
      · rename_i hlength harea
        constructor
        · intro h
          cases h
          exact ⟨cost, hexpand, Nat.le_of_not_lt hlength, Nat.le_of_not_lt harea⟩
        · rintro ⟨cost', he, -⟩
          cases hexpand.symm.trans he
          rfl

theorem mem_expandPresets {cost : ℕ} (h : expandPresets env db user o names = .ok (specs, cost))
    {spec : VariantSpec} (hs : spec ∈ specs) :
    ∃ name preset fmt, spec = expandFormat env name preset o fmt := by
  induction names generalizing specs cost with
  | nil =>
    cases h
    cases hs
  | cons name names ih =>
    rw [expandPresets] at h
    split at h
    · exact absurd h refuse_ne_ok
    · rename_i preset _
      split at h
      · cases h
      · rename_i rest _ hrest
        cases h
        rcases List.mem_append.mp hs with hs | hs
        · obtain ⟨fmt, -, rfl⟩ := List.mem_map.mp hs
          exact ⟨name, preset, fmt, rfl⟩
        · exact ih hrest hs

/-- Every spec of a job is built from the object it is for. -/
theorem mem_resolvePresets (h : resolvePresets env db user names o = .ok specs)
    {spec : VariantSpec} (hs : spec ∈ specs) :
    ∃ name preset fmt, spec = expandFormat env name preset o fmt := by
  obtain ⟨cost, hexpand, -⟩ := resolvePresets_eq_ok.mp h
  exact mem_expandPresets hexpand hs

end MediaService
