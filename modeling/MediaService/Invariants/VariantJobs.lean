import MediaService.Lifecycle.Objects
import MediaService.Scenario
import MediaService.Storage.KeySegments

/-! Whether the outputs of an accepted variant job can be registered. Their names are made
of free-form preset names and come back through a callback that bounds them; their keys
are made of the same names once more, normalised. A job within the ceilings is registered
as a whole, in any order, unless a name grows too long or a key is shared. -/

namespace MediaService

open Foundation

variable {env : Env} {db db' : Database} {user : UserModel} {o : MediaObject} {objectId : UUID}
  {now : Timestamp} {names : List String} {specs : List VariantSpec}

/-! ### Registering one output -/

/-- The variant of an object under a name. -/
def MediaVariant.IsNamed (v : MediaVariant) (objectId : UUID) (name : String) : Prop :=
  v.mediaObjectId = objectId ∧ v.variantName = name

/-- `uq_media_variant_name`: an object has one variant under a name. -/
def UniqueVariants (db : Database) : Prop :=
  ∀ v ∈ db.variants, ∀ v' ∈ db.variants, v'.IsNamed v.mediaObjectId v.variantName → v' = v

/-- A registration writes one row in place of what stood under its name. -/
structure Upserts (db db' : Database) (objectId freshId : UUID) (req : VariantRegisterRequest)
    (row : MediaVariant) : Prop where
  objects : db'.objects = db.objects
  named : row.IsNamed objectId req.variantName
  placed : row.location = req.location
  id : row.id = freshId ∨ ∃ v ∈ db.variants, v.id = row.id
  variants : ∀ v, v ∈ db'.variants ↔
    v = row ∨ v ∈ db.variants ∧ ¬ v.IsNamed objectId req.variantName

theorem fetchObject_isOk (hobject : ∃ o ∈ db.objects, o.id = objectId) :
    ∃ o, fetchObject db objectId true = .ok o := by
  obtain ⟨o, ho, rfl⟩ := hobject
  refine ⟨o, ?_⟩
  rw [fetchObject, Table.find_of_mem ho]
  rfl

theorem isNamed_of_find {vs : List MediaVariant} {name : String} {v : MediaVariant}
    (h : vs.find? (fun v => v.mediaObjectId = objectId ∧ v.variantName = name) = some v) :
    v.IsNamed objectId name := by
  have hfound := List.find?_some h
  rwa [decide_eq_true_eq] at hfound

theorem variantTaken_eq_false {row : MediaVariant} : db.variantTaken row = false ↔
    ∀ v ∈ db.variants, v.id ≠ row.id → v.location ≠ row.location ∧
      ¬ v.IsNamed row.mediaObjectId row.variantName := by
  rw [Database.variantTaken, List.any_eq_false]
  simp only [decide_eq_true_eq, not_and, not_or, MediaVariant.IsNamed, ne_eq, Table.mem_def]

/-- Where no other variant holds its location, a registration goes through. -/
theorem registerVariant_upserts {freshId : UUID} {req : VariantRegisterRequest}
    (hobject : ∃ o ∈ db.objects, o.id = objectId) (hunique : UniqueVariants db)
    (hfresh : db.variants.find freshId = none)
    (hfree : ∀ v ∈ db.variants, v.location = req.location →
      v.IsNamed objectId req.variantName) :
    ∃ db' row, registerVariant db now freshId objectId req = .ok (db', row) ∧
      Upserts db db' objectId freshId req row := by
  obtain ⟨o, hfetch⟩ := fetchObject_isOk hobject
  unfold registerVariant
  rw [hfetch]
  dsimp only
  cases hexisting : db.variants.rows.find? fun v =>
      v.mediaObjectId = objectId ∧ v.variantName = req.variantName with
  | some v₀ =>
    have hv₀ : v₀ ∈ db.variants := List.mem_of_find?_eq_some hexisting
    have hnamed : v₀.IsNamed objectId req.variantName := isNamed_of_find hexisting
    have hid : ∀ v ∈ db.variants, v.IsNamed objectId req.variantName → v.id = v₀.id := by
      intro v hv hvn
      rw [hunique v₀ hv₀ v hv ⟨hvn.1.trans hnamed.1.symm, hvn.2.trans hnamed.2.symm⟩]
    have htaken : db.variantTaken (registeredVariant req objectId v₀.id v₀.createdAt) = false := by
      refine variantTaken_eq_false.mpr fun v hv hne => ⟨fun hl => ?_, fun hvn => ?_⟩
      · exact hne (hid v hv (hfree v hv hl))
      · exact hne (hid v hv hvn)
    dsimp only
    rw [Database.updateVariant, htaken]
    refine ⟨_, _, rfl, ⟨rfl, ⟨rfl, rfl⟩, rfl, .inr ⟨v₀, hv₀, rfl⟩, fun v => ?_⟩⟩
    have hfind : db.variants.find (registeredVariant req objectId v₀.id v₀.createdAt).id =
        some v₀ := Table.find_of_mem hv₀
    refine (Table.mem_update hfind).trans (or_congr_right (and_congr_right fun hv => ?_))
    refine not_congr ⟨fun hkey => ?_, hid v hv⟩
    rw [Table.eq_of_key_eq hv hv₀ hkey]
    exact hnamed
  | none =>
    have hnone : ∀ v ∈ db.variants, ¬ v.IsNamed objectId req.variantName := by
      intro v hv hvn
      have hnot := List.find?_eq_none.mp hexisting v hv
      exact hnot (decide_eq_true hvn)
    have htaken : db.variantTaken (registeredVariant req objectId freshId now) = false :=
      variantTaken_eq_false.mpr fun v hv _ =>
        ⟨fun hl => hnone v hv (hfree v hv hl), hnone v hv⟩
    have hinsert : (db.variants.insert (registeredVariant req objectId freshId now)).isSome :=
      Table.insert_isSome.mpr hfresh
    obtain ⟨t, ht⟩ := Option.isSome_iff_exists.mp hinsert
    dsimp only
    rw [Database.insertVariant, htaken]
    simp only [Bool.false_eq_true, if_false, ht]
    refine ⟨_, _, rfl, ⟨rfl, ⟨rfl, rfl⟩, rfl, .inl rfl, fun v => ?_⟩⟩
    refine (Table.mem_insert ht).trans (or_comm.trans (or_congr_right ?_))
    exact ⟨fun hv => ⟨hv, hnone v hv⟩, And.left⟩

/-- A registration that goes through has displaced nobody else's variant. -/
theorem free_of_registerVariant {freshId : UUID} {req : VariantRegisterRequest}
    {row : MediaVariant} (hfresh : db.variants.find freshId = none)
    (h : registerVariant db now freshId objectId req = .ok (db', row)) :
    ∀ v ∈ db.variants, v.location = req.location → v.IsNamed objectId req.variantName := by
  intro v hv hl
  obtain ⟨-, htaken, t, -, ⟨v₀, hexisting, rfl, -⟩ | ⟨-, rfl, -⟩⟩ := registerVariant_cases h
  · have hv₀ : v₀ ∈ db.variants := List.mem_of_find?_eq_some hexisting
    have hfree := variantTaken_eq_false.mp htaken v hv
    have hid : v.id = v₀.id := by_contra fun hne => (hfree hne).1 hl
    rw [Table.eq_of_key_eq hv hv₀ hid]
    exact isNamed_of_find hexisting
  · have hne : v.id ≠ freshId := Table.find_eq_none.mp hfresh v hv
    exact absurd hl (variantTaken_eq_false.mp htaken v hv hne).1

/-! ### Registering a job -/

/-- A callback of the worker, and the id minted for its row. -/
structure RegisterCall where
  now : Timestamp
  freshId : UUID
  body : VariantRegisterRequest

/-- The callbacks one after the other. -/
def registerCalls (db : Database) (objectId : UUID) : List RegisterCall → Except Failure Database
  | [] => .ok db
  | call :: calls =>
    match registerVariant db call.now call.freshId objectId call.body with
    | .error e => .error e
    | .ok (db, _) => registerCalls db objectId calls

/-- The callback reports an output under its own name, at its own target. -/
def ReportsOutput (req : VariantRegisterRequest) (spec : VariantSpec) : Prop :=
  req.variantName = spec.variantName ∧ req.location = spec.target

/-- The variant registered for an output is the only one under its name, at its target. -/
def HoldsOutput (db : Database) (objectId : UUID) (spec : VariantSpec) : Prop :=
  ∃ row, row.location = spec.target ∧
    ∀ v, v ∈ db.variants ∧ v.IsNamed objectId spec.variantName ↔ v = row

theorem registerCalls_holds {calls : List RegisterCall} {order : List VariantSpec}
    (hcalls : List.Forall₂ (fun call spec => ReportsOutput call.body spec) calls order)
    (hobject : ∃ o ∈ db.objects, o.id = objectId) (hunique : UniqueVariants db)
    (hids : (calls.map RegisterCall.freshId).Nodup)
    (hfresh : ∀ call ∈ calls, db.variants.find call.freshId = none)
    (hnames : (order.map VariantSpec.variantName).Nodup)
    (htargets : (order.map VariantSpec.target).Nodup)
    (hfree : ∀ spec ∈ order, ∀ v ∈ db.variants, v.location = spec.target →
      v.IsNamed objectId spec.variantName) :
    ∃ db', registerCalls db objectId calls = .ok db' ∧
      (∀ spec ∈ order, HoldsOutput db' objectId spec) ∧
      ∀ v, (∀ spec ∈ order, ¬ v.IsNamed objectId spec.variantName) →
        (v ∈ db'.variants ↔ v ∈ db.variants) := by
  induction hcalls generalizing db with
  | nil => exact ⟨db, rfl, by simp, fun v _ => Iff.rfl⟩
  | @cons call spec calls order hreport hcalls ih =>
    obtain ⟨hname, htarget⟩ := hreport
    rw [List.map_cons, List.nodup_cons] at hids hnames htargets
    obtain ⟨db₁, row, hregister, hups⟩ := @registerVariant_upserts db objectId call.now
      call.freshId call.body hobject hunique (hfresh call List.mem_cons_self) (by
        rw [hname, htarget]
        exact hfree spec List.mem_cons_self)
    have hnamed := hups.named
    have hplaced := hups.placed
    have hvariants := hups.variants
    rw [hname] at hnamed hvariants
    rw [htarget] at hplaced
    have hobject₁ : ∃ o ∈ db₁.objects, o.id = objectId := by
      rw [hups.objects]
      exact hobject
    have hunique₁ : UniqueVariants db₁ := by
      intro v hv v' hv' hvn
      rcases (hvariants v).mp hv with rfl | ⟨hv, hother⟩
      · rw [hnamed.1, hnamed.2] at hvn
        exact ((hvariants v').mp hv').resolve_right fun h => h.2 hvn
      · rcases (hvariants v').mp hv' with rfl | ⟨hv', -⟩
        · exact absurd ⟨hvn.1.symm.trans hnamed.1, hvn.2.symm.trans hnamed.2⟩ hother
        · exact hunique v hv v' hv' hvn
    have hfresh₁ : ∀ call' ∈ calls, db₁.variants.find call'.freshId = none := by
      intro call' hcall'
      have hfree' := hfresh call' (List.mem_cons_of_mem call hcall')
      refine Table.find_eq_none.mpr fun v hv hid => ?_
      rcases (hvariants v).mp hv with rfl | ⟨hv, -⟩
      · rcases hups.id with hrow | ⟨v₀, hv₀, hrow⟩
        · exact hids.1 (List.mem_map.mpr ⟨call', hcall', hid.symm.trans hrow⟩)
        · exact Table.find_eq_none.mp hfree' v₀ hv₀ (hrow.trans hid)
      · exact Table.find_eq_none.mp hfree' v hv hid
    have hfree₁ : ∀ spec' ∈ order, ∀ v ∈ db₁.variants, v.location = spec'.target →
        v.IsNamed objectId spec'.variantName := by
      intro spec' hspec' v hv hl
      rcases (hvariants v).mp hv with rfl | ⟨hv, -⟩
      · exact absurd (List.mem_map.mpr ⟨spec', hspec', hl.symm.trans hplaced⟩) htargets.1
      · exact hfree spec' (List.mem_cons_of_mem spec hspec') v hv hl
    obtain ⟨db', hrest, hheld, hframe⟩ :=
      ih hobject₁ hunique₁ hids.2 hfresh₁ hnames.2 htargets.2 hfree₁
    refine ⟨db', by rw [registerCalls, hregister]; exact hrest, ?_, ?_⟩
    · intro spec' hspec'
      rcases List.mem_cons.mp hspec' with rfl | hspec'
      · refine ⟨row, hplaced, fun v => ?_⟩
        have hsame : v.IsNamed objectId spec'.variantName →
            (v ∈ db'.variants ↔ v ∈ db₁.variants) := fun hvn => hframe v fun spec hspec hvn' =>
          hnames.1 (List.mem_map.mpr ⟨spec, hspec, hvn'.2.symm.trans hvn.2⟩)
        constructor
        · rintro ⟨hv, hvn⟩
          exact ((hvariants v).mp ((hsame hvn).mp hv)).resolve_right fun h => h.2 hvn
        · rintro rfl
          exact ⟨(hsame hnamed).mpr ((hvariants v).mpr (.inl rfl)), hnamed⟩
      · exact hheld spec' hspec'
    · intro v hother
      rw [hframe v fun spec' hspec' => hother spec' (List.mem_cons_of_mem spec hspec'),
        hvariants v]
      have hne := hother spec List.mem_cons_self
      constructor
      · rintro (rfl | ⟨hv, -⟩)
        · exact absurd hnamed hne
        · exact hv
      · exact fun hv => .inr ⟨hv, hne⟩

/-! ### The outputs of a request -/

/-- The preset and format of each output that preset names ask for. -/
def requestedOutputs (db : Database) (user : UserModel) (names : List String) :
    List (String × ImageFormat) :=
  names.flatMap fun name =>
    ((lookupPreset db user name).elim [] PresetSpec.formats).map fun fmt => (name, fmt.ext)

/-- Where the output goes. -/
def outputTarget (env : Env) (o : MediaObject) (x : String × ImageFormat) : Location :=
  ⟨o.storageBucket, buildVariantKey env o.ownerUserId o.id o.category (outputName x.1 x.2)
    (outputFilename x.1 x.2) o.tenantId⟩

/-- Something is asked for: each name is of a preset, and each preset has a format. -/
theorem requestedOutputs_ne_nil {cost : ℕ} (hnames : names ≠ [])
    (h : expandPresets env db user o names = .ok (specs, cost)) :
    requestedOutputs db user names ≠ [] := by
  obtain ⟨name, rest, rfl⟩ := List.exists_cons_of_ne_nil hnames
  rw [expandPresets] at h
  split at h
  · exact absurd h refuse_ne_ok
  · rename_i preset hpreset
    rw [requestedOutputs, List.flatMap_cons, hpreset]
    refine List.append_ne_nil_of_left_ne_nil (fun hnil => ?_) _
    exact preset.formats_ne_nil (List.map_eq_nil_iff.mp hnil)

theorem expandPresets_ok {cost : ℕ} (h : expandPresets env db user o names = .ok (specs, cost)) :
    specs.map (fun s => (s.variantName, s.target)) =
        (requestedOutputs db user names).map (fun x =>
          (outputName x.1 x.2, outputTarget env o x)) ∧
      cost = (specs.map fun s => geometryCost s.outputOptions.imageSize).sum := by
  induction names generalizing specs cost with
  | nil =>
    cases h
    exact ⟨rfl, rfl⟩
  | cons name names ih =>
    rw [expandPresets] at h
    split at h
    · exact absurd h refuse_ne_ok
    · rename_i preset hpreset
      split at h
      · cases h
      · rename_i rest cost' hrest
        cases h
        obtain ⟨hmap, hcost⟩ := ih hrest
        have hexpand : (expand env name preset o).map (fun s => (s.variantName, s.target)) =
            (preset.formats.map fun fmt => (name, fmt.ext)).map (fun x =>
              (outputName x.1 x.2, outputTarget env o x)) := by
          rw [expand, List.map_map, List.map_map]
          refine List.map_congr_left fun fmt _ => ?_
          rw [Function.comp_apply, expandFormat_eq]
          rfl
        have hsame : (expand env name preset o).map
            (fun s => geometryCost s.outputOptions.imageSize) =
              List.replicate (expand env name preset o).length (geometryCost preset.imageSize) := by
          refine List.eq_replicate_iff.mpr ⟨List.length_map _, fun n hn => ?_⟩
          obtain ⟨s, hs, rfl⟩ := List.mem_map.mp hn
          obtain ⟨fmt, -, rfl⟩ := List.mem_map.mp hs
          rfl
        constructor
        · rw [requestedOutputs, List.flatMap_cons, List.map_append, List.map_append, hmap, hexpand,
            hpreset]
          rfl
        · rw [List.map_append, List.sum_append, hsame, List.sum_replicate_nat, ← hcost,
            Nat.mul_comm]

theorem resolvePresets_ok (hnames : names ≠ [])
    (h : resolvePresets env db user names o = .ok specs) :
    requestedOutputs db user names ≠ [] ∧ specs.map (fun s => (s.variantName, s.target)) =
        (requestedOutputs db user names).map (fun x =>
          (outputName x.1 x.2, outputTarget env o x)) ∧
      specs.length ≤ maxOutputsPerJob ∧
      (specs.map fun s => geometryCost s.outputOptions.imageSize).sum ≤ maxJobPixelArea := by
  obtain ⟨cost, hexpand, hlength, harea⟩ := resolvePresets_eq_ok.mp h
  obtain ⟨hmap, rfl⟩ := expandPresets_ok hexpand
  exact ⟨requestedOutputs_ne_nil hnames hexpand, hmap, hlength, harea⟩

theorem nodup_eraseDups (l : List String) : l.eraseDups.Nodup := by
  induction hlength : l.length using Nat.strong_induction_on generalizing l with
  | _ n ih =>
    cases l with
    | nil => exact List.nodup_nil
    | cons a l =>
      rw [List.eraseDups_cons]
      refine List.nodup_cons.mpr ⟨fun ha => ?_, ih _ ?_ _ rfl⟩
      · simpa using List.mem_filter.mp (List.mem_eraseDups.mp ha)
      · have hle := List.length_filter_le (fun b => !b == a) l
        rw [List.length_cons] at hlength
        omega

/-- No output is asked for twice. -/
theorem nodup_requestedOutputs (hnames : names.Nodup) : (requestedOutputs db user names).Nodup := by
  refine List.nodup_flatMap.mpr ⟨fun name _ => ?_, hnames.imp fun hne => ?_⟩
  · cases lookupPreset db user name with
    | none => exact List.nodup_nil
    | some preset =>
      have hexts : ((preset.formats.map FormatSpec.ext).map fun ext => (name, ext)).Nodup :=
        preset.formats_nodup.map fun _ _ h => (Prod.mk.inj h).2
      rwa [List.map_map] at hexts
  · intro x hx hx'
    obtain ⟨fmt, -, rfl⟩ := List.mem_map.mp hx
    obtain ⟨fmt', -, he⟩ := List.mem_map.mp hx'
    exact hne (Prod.mk.inj he).1.symm

/-! ### Registering what was asked for -/

/-- What an accepted job promises: a callback can report each output, no two outputs share a
name or a key, the callbacks in any order leave one variant for each at its own key, and the
job is within the ceilings. -/
structure JobRegistrable (db : Database) (ids : List UUID) (job : VariantJobPayload) : Prop where
  reportable : ∀ spec ∈ job.specs, ∃ req, ReportsOutput req spec
  names : (job.specs.map VariantSpec.variantName).Nodup
  targets : (job.specs.map VariantSpec.target).Nodup
  registers : ∀ order, order.Perm job.specs → ∀ calls : List RegisterCall,
    calls.map RegisterCall.freshId = ids →
      List.Forall₂ (fun call spec => ReportsOutput call.body spec) calls order →
        ∃ db', registerCalls db job.mediaObjectId calls = .ok db' ∧
          ∀ spec ∈ job.specs, HoldsOutput db' job.mediaObjectId spec
  outputs : job.specs.length ≤ maxOutputsPerJob
  area : (job.specs.map fun s => geometryCost s.outputOptions.imageSize).sum ≤ maxJobPixelArea

/-- What the names asked for must meet: each stays within the callback's bound with its
extension, no two normalise to one key in a format they share, and nobody else's variant
lies where an output goes. -/
structure OutputsFit (env : Env) (db : Database) (user : UserModel) (names : List String)
    (o : MediaObject) : Prop where
  short : ∀ x ∈ requestedOutputs db user names, x.1.length + 1 + x.2.extension.length ≤ 64
  apart : ∀ x ∈ requestedOutputs db user names, ∀ y ∈ requestedOutputs db user names,
    x.2 = y.2 → safeName env (outputName x.1 x.2) = safeName env (outputName y.1 y.2) →
      keySegment (outputFilename x.1 x.2) = keySegment (outputFilename y.1 y.2) → x.1 = y.1
  free : ∀ x ∈ requestedOutputs db user names, ∀ v ∈ db.variants,
    v.location = outputTarget env o x → v.IsNamed o.id (outputName x.1 x.2)
  bucket : 3 ≤ o.storageBucket.length ∧ o.storageBucket.length ≤ 63

theorem one_le_of_none : ∀ n, (none : Option ℕ) = some n → 1 ≤ n := nofun

/-- The worker's report of an output. -/
def reportOf (spec : VariantSpec)
    (hname : 1 ≤ spec.variantName.length ∧ spec.variantName.length ≤ 64)
    (hbucket : 3 ≤ spec.targetBucket.length ∧ spec.targetBucket.length ≤ 63)
    (hkey : 1 ≤ spec.targetKey.length ∧ spec.targetKey.length ≤ 1024) :
    VariantRegisterRequest where
  variantName := spec.variantName
  storageBucket := spec.targetBucket
  objectKey := spec.targetKey
  width := none
  height := none
  sizeBytes := 0
  format := spec.outputOptions.format.ext.extension
  variantName_length := hname
  storageBucket_length := hbucket
  objectKey_length := hkey
  one_le_width := one_le_of_none
  one_le_height := one_le_of_none
  format_length := by
    have hlength := spec.outputOptions.format.ext.length_extension
    omega

theorem exists_reports_iff (spec : VariantSpec) : (∃ req, ReportsOutput req spec) ↔
    (1 ≤ spec.variantName.length ∧ spec.variantName.length ≤ 64) ∧
      (3 ≤ spec.targetBucket.length ∧ spec.targetBucket.length ≤ 63) ∧
      1 ≤ spec.targetKey.length ∧ spec.targetKey.length ≤ 1024 := by
  constructor
  · rintro ⟨req, hname, htarget⟩
    have hbucket : req.storageBucket = spec.targetBucket := congrArg Location.bucket htarget
    have hkey : req.objectKey = spec.targetKey := congrArg Location.objectKey htarget
    rw [← hname, ← hbucket, ← hkey]
    exact ⟨req.variantName_length, req.storageBucket_length, req.objectKey_length⟩
  · rintro ⟨hname, hbucket, hkey⟩
    exact ⟨reportOf spec hname hbucket hkey, rfl, rfl⟩

theorem exists_calls {ids : List UUID} {order : List VariantSpec}
    (hlength : ids.length = order.length) (h : ∀ spec ∈ order, ∃ req, ReportsOutput req spec) :
    ∃ calls : List RegisterCall, calls.map RegisterCall.freshId = ids ∧
      List.Forall₂ (fun call spec => ReportsOutput call.body spec) calls order := by
  induction order generalizing ids with
  | nil =>
    rw [List.length_nil, List.length_eq_zero_iff] at hlength
    exact ⟨[], hlength.symm, .nil⟩
  | cons spec order ih =>
    cases ids with
    | nil => simp at hlength
    | cons id ids =>
      obtain ⟨req, hreq⟩ := h spec List.mem_cons_self
      obtain ⟨calls, hids, hcalls⟩ := ih (Nat.succ.inj hlength) fun spec' hspec' =>
        h spec' (List.mem_cons_of_mem spec hspec')
      exact ⟨⟨0, id, req⟩ :: calls, congrArg (id :: ·) hids, .cons hreq hcalls⟩

theorem VariantGenerateRequest.names_ne_nil (req : VariantGenerateRequest) : req.names ≠ [] := by
  obtain ⟨name, rest, hpresets⟩ := List.exists_cons_of_length_pos req.one_le_length
  rw [VariantGenerateRequest.names, hpresets, List.eraseDups_cons]
  exact List.cons_ne_nil _ _

theorem outputTarget_eq_iff {x y : String × ImageFormat} :
    outputTarget env o x = outputTarget env o y ↔
      safeName env (outputName x.1 x.2) = safeName env (outputName y.1 y.2) ∧
        keySegment (outputFilename x.1 x.2) = keySegment (outputFilename y.1 y.2) := by
  rw [outputTarget, outputTarget, Location.mk.injEq, buildVariantKey_eq_iff]
  exact and_iff_right rfl

/-- The specs of an accepted job and the outputs asked for, each made of the other. -/
structure SpecsOf (env : Env) (o : MediaObject) (outputs : List (String × ImageFormat))
    (specs : List VariantSpec) : Prop where
  nodup : outputs.Nodup
  names : specs.map VariantSpec.variantName = outputs.map fun x => outputName x.1 x.2
  targets : specs.map VariantSpec.target = outputs.map (outputTarget env o)
  spec_of : ∀ x ∈ outputs, ∃ spec ∈ specs,
    spec.variantName = outputName x.1 x.2 ∧ spec.target = outputTarget env o x
  output_of : ∀ spec ∈ specs, ∃ x ∈ outputs,
    spec.variantName = outputName x.1 x.2 ∧ spec.target = outputTarget env o x

theorem specsOf_of_map {outputs : List (String × ImageFormat)} (hnodup : outputs.Nodup)
    (hmap : specs.map (fun s => (s.variantName, s.target)) =
      outputs.map fun x => (outputName x.1 x.2, outputTarget env o x)) :
    SpecsOf env o outputs specs where
  nodup := hnodup
  names := by
    have hfst := congrArg (List.map Prod.fst) hmap
    rwa [List.map_map, List.map_map] at hfst
  targets := by
    have hsnd := congrArg (List.map Prod.snd) hmap
    rwa [List.map_map, List.map_map] at hsnd
  spec_of x hx := by
    obtain ⟨spec, hmem, he⟩ := List.mem_map.mp (hmap ▸ List.mem_map_of_mem hx)
    exact ⟨spec, hmem, (Prod.mk.inj he).1, (Prod.mk.inj he).2⟩
  output_of spec hspec := by
    have hpair := List.mem_map_of_mem (f := fun s : VariantSpec => (s.variantName, s.target)) hspec
    rw [hmap] at hpair
    obtain ⟨x, hx, he⟩ := List.mem_map.mp hpair
    exact ⟨x, hx, (Prod.mk.inj he).1.symm, (Prod.mk.inj he).2.symm⟩

theorem SpecsOf.names_nodup {outputs : List (String × ImageFormat)}
    (h : SpecsOf env o outputs specs) : (specs.map VariantSpec.variantName).Nodup := by
  rw [h.names]
  exact h.nodup.map fun x y he => Prod.ext (outputName_inj he).1 (outputName_inj he).2

/-- The keys are distinct exactly when the names are apart in each format: the keys of
different formats always are. -/
theorem SpecsOf.targets_nodup_iff {outputs : List (String × ImageFormat)}
    (h : SpecsOf env o outputs specs) : (specs.map VariantSpec.target).Nodup ↔
      ∀ x ∈ outputs, ∀ y ∈ outputs, x.2 = y.2 →
        safeName env (outputName x.1 x.2) = safeName env (outputName y.1 y.2) →
          keySegment (outputFilename x.1 x.2) = keySegment (outputFilename y.1 y.2) →
            x.1 = y.1 := by
  rw [h.targets]
  constructor
  · rintro hnodup x hx y hy - hname hfile
    rw [List.inj_on_of_nodup_map hnodup hx hy (outputTarget_eq_iff.mpr ⟨hname, hfile⟩)]
  · intro hapart
    refine h.nodup.map_on fun x hx y hy he => ?_
    obtain ⟨hname, hfile⟩ := outputTarget_eq_iff.mp he
    have hformat := format_eq_of_keySegment hfile
    exact Prod.ext (hapart x hx y hy hformat hname hfile) hformat

theorem one_le_length_buildVariantKey (env : Env) (owner m : UUID) (category : MediaCategory)
    (v f : String) (t : Option UUID) :
    1 ≤ (buildVariantKey env owner m category v f t).length := by
  refine Nat.one_le_iff_ne_zero.mpr fun hzero => ?_
  have hseg := keySegments_buildVariantKey env owner m category v f t
  rw [keySegments, List.eq_nil_of_length_eq_zero ((String.length_toList).trans hzero)] at hseg
  have hcount := congrArg List.length hseg
  cases t <;> simp [ownerSegments, ownerPrefix] at hcount

/-- An output can be reported exactly when its name and its bucket are within bounds. -/
theorem exists_reports_output_iff (hlower : LowerBounded env) {spec : VariantSpec}
    {x : String × ImageFormat} (hname : spec.variantName = outputName x.1 x.2)
    (htarget : spec.target = outputTarget env o x) : (∃ req, ReportsOutput req spec) ↔
      x.1.length + 1 + x.2.extension.length ≤ 64 ∧
        3 ≤ o.storageBucket.length ∧ o.storageBucket.length ≤ 63 := by
  have hbucket : spec.targetBucket = o.storageBucket := congrArg Location.bucket htarget
  have hkey : spec.targetKey = (outputTarget env o x).objectKey :=
    congrArg Location.objectKey htarget
  rw [exists_reports_iff, hname, hbucket, hkey, length_outputName]
  constructor
  · exact fun h => ⟨h.1.2, h.2.1⟩
  · rintro ⟨hshort, hbounds⟩
    have hextension := x.2.length_extension
    refine ⟨⟨by omega, hshort⟩, hbounds, one_le_length_buildVariantKey _ _ _ _ _ _ _, ?_⟩
    refine length_buildVariantKey_le hlower _ _ _ _ (by rw [length_outputName]; exact hshort) ?_
    rw [outputFilename, String.length_append, String.length_append, length_outputName]
    have hdot : ".".length = 1 := rfl
    omega

/-- The outputs of a job can be registered, in any order and each at a key of its own,
exactly when the names asked for fit. -/
theorem jobRegistrable_iff (hlower : LowerBounded env) (hunique : UniqueVariants db)
    (ho : o ∈ db.objects) {jobId : UUID} {req : VariantGenerateRequest} {job : VariantJobPayload}
    (h : generateVariants env db now jobId user o.id req = .ok (db', job)) {ids : List UUID}
    (hlength : ids.length = job.specs.length) (hids : ids.Nodup)
    (hfresh : ∀ id ∈ ids, db.variants.find id = none) :
    JobRegistrable db' ids job ↔ OutputsFit env db user req.names o := by
  obtain ⟨⟨jobs, rfl⟩, q, hq, hid, hobject, hspecs⟩ := generateVariants_ok h
  obtain rfl := Table.eq_of_key_eq ho hq hid.symm
  obtain ⟨hnonempty, hmap, houtputs, harea⟩ := resolvePresets_ok req.names_ne_nil hspecs
  have hof := specsOf_of_map (nodup_requestedOutputs (nodup_eraseDups req.presets)) hmap
  have hreports : ∀ x ∈ requestedOutputs db user req.names, ∃ spec ∈ job.specs,
      spec.variantName = outputName x.1 x.2 ∧ spec.target = outputTarget env o x ∧
        ((∃ body, ReportsOutput body spec) ↔ x.1.length + 1 + x.2.extension.length ≤ 64 ∧
          3 ≤ o.storageBucket.length ∧ o.storageBucket.length ≤ 63) := by
    intro x hx
    obtain ⟨spec, hmem, hname, htarget⟩ := hof.spec_of x hx
    exact ⟨spec, hmem, hname, htarget, exists_reports_output_iff hlower hname htarget⟩
  constructor
  · intro hjob
    refine ⟨fun x hx => ?_, hof.targets_nodup_iff.mp hjob.targets, fun x hx v hv hl => ?_, ?_⟩
    · obtain ⟨spec, hmem, -, -, hiff⟩ := hreports x hx
      exact (hiff.mp (hjob.reportable spec hmem)).1
    · -- The output at the disputed location is registered first.
      obtain ⟨spec, hmem, hname, htarget, -⟩ := hreports x hx
      have hperm : (spec :: job.specs.erase spec).Perm job.specs := (List.perm_cons_erase hmem).symm
      obtain ⟨calls, hcallIds, hcalls⟩ := exists_calls (hlength.trans hperm.length_eq.symm)
        fun spec' hspec' => hjob.reportable spec' (hperm.mem_iff.mp hspec')
      obtain ⟨db₂, hregister, -⟩ := hjob.registers _ hperm calls hcallIds hcalls
      cases hcalls with
      | @cons call _ calls _ hreport _ =>
        rw [registerCalls] at hregister
        split at hregister
        · cases hregister
        · rename_i hfirst
          have hid : call.freshId ∈ ids := hcallIds ▸ List.mem_cons_self
          have hfreshId : ({ db with variantJobs := jobs } : Database).variants.find call.freshId =
              none := hfresh _ hid
          rw [hobject] at hfirst
          rw [← hname, ← hreport.1]
          exact free_of_registerVariant hfreshId hfirst v hv
            (hl.trans (htarget.symm.trans hreport.2.symm))
    · obtain ⟨x, hx⟩ := List.exists_mem_of_ne_nil _ hnonempty
      obtain ⟨spec, hmem, -, -, hiff⟩ := hreports x hx
      exact (hiff.mp (hjob.reportable spec hmem)).2
  · intro hfit
    have htargets := hof.targets_nodup_iff.mpr hfit.apart
    refine ⟨fun spec hmem => ?_, hof.names_nodup, htargets, ?_, houtputs, harea⟩
    · obtain ⟨x, hx, hname, htarget⟩ := hof.output_of spec hmem
      exact (exists_reports_output_iff hlower hname htarget).mpr ⟨hfit.short x hx, hfit.bucket⟩
    · intro order hperm calls hcallIds hcalls
      have hobject' : ∃ q ∈ ({ db with variantJobs := jobs } : Database).objects,
          q.id = job.mediaObjectId := ⟨o, ho, hobject.symm⟩
      have hfresh' : ∀ call ∈ calls, db.variants.find call.freshId = none := fun call hcall =>
        hfresh _ (hcallIds ▸ List.mem_map_of_mem hcall)
      have hfree : ∀ spec ∈ order, ∀ v ∈ db.variants, v.location = spec.target →
          v.IsNamed job.mediaObjectId spec.variantName := by
        intro spec hmem v hv hl
        obtain ⟨x, hx, hname, htarget⟩ := hof.output_of spec (hperm.mem_iff.mp hmem)
        rw [hobject, hname]
        exact hfit.free x hx v hv (hl.trans htarget)
      obtain ⟨db₂, hregister, hheld, -⟩ := registerCalls_holds hcalls hobject' hunique
        (hcallIds ▸ hids) hfresh' ((hperm.map _).nodup_iff.mpr hof.names_nodup)
        ((hperm.map _).nodup_iff.mpr htargets) hfree
      exact ⟨db₂, hregister, fun spec hmem => hheld spec (hperm.mem_iff.mpr hmem)⟩

theorem lowerBounded_default : LowerBounded Env.default := by
  intro s
  have hlower : (Env.default.lower s).length = s.length := by
    rw [← String.length_toList, ← String.length_toList]
    exact congrArg List.length String.toList_ofList |>.trans (List.length_map _)
  omega

theorem jobRegistrable_thumb : ∃ db' job,
    generateVariants Env.default keptBackend.db 0 ⟨5⟩ (.ordinary 1) ⟨2⟩ thumbRequest =
        .ok (db', job) ∧ JobRegistrable db' [⟨6⟩] job := by
  have hgenerates : (generateVariants Env.default keptBackend.db 0 ⟨5⟩ (.ordinary 1) ⟨2⟩
      thumbRequest).toOption.map (fun p => p.2.specs.length) = some 1 := by decide +kernel
  obtain ⟨⟨db', job⟩, h, hlength⟩ := Option.map_eq_some_iff.mp hgenerates
  have h := toOption_eq_some.mp h
  have hlength : ([⟨6⟩] : List UUID).length = job.specs.length := hlength.symm
  have hrow : ∃ o ∈ keptBackend.db.objects, o.id = ⟨2⟩ ∧ o.storageBucket = "private-media" := by
    decide +kernel
  obtain ⟨o, ho, hid, hbucket⟩ := hrow
  have hvariants : keptBackend.db.variants.rows = [] := by decide +kernel
  have hnone : ∀ v, v ∉ keptBackend.db.variants := fun v hv =>
    absurd (hvariants ▸ Table.mem_def.mp hv) List.not_mem_nil
  have houtputs : requestedOutputs keptBackend.db (.ordinary 1) thumbRequest.names =
      [("thumb", .webp)] := by decide +kernel
  refine ⟨db', job, h, (jobRegistrable_iff lowerBounded_default (fun v hv => absurd hv (hnone v)) ho
    (hid ▸ h) hlength (List.nodup_singleton _) fun id _ =>
      Table.find_eq_none.mpr fun v hv => absurd hv (hnone v)).mpr ?_⟩
  refine ⟨?_, ?_, fun x _ v hv => absurd hv (hnone v), by rw [hbucket]; decide⟩
  · rw [houtputs]
    decide
  · rw [houtputs]
    simp only [List.mem_singleton]
    rintro x rfl y rfl - - -
    rfl

theorem longPreset_width : 1 ≤ 150 ∧ 150 ≤ maxPresetDimension := by decide

/-- A preset whose name is as long as a name may be. -/
def longPreset : ImagePresetCreate where
  name := String.ofList (List.replicate 64 'a')
  spec := webp 150 longPreset_width
  name_length := by decide

def longRequest : VariantGenerateRequest where
  presets := [longPreset.name]
  one_le_length := by decide
  length_le := by decide

/-- A clean upload, and the long preset stored by its owner. -/
def longPresetRequests : List Request :=
  cleanUploadRequests Env.default 0 ⟨2⟩ (.ordinary 1) .private pngSignature ++
    [.createPreset ⟨7⟩ (.ordinary 1) longPreset]

/-- The job is accepted, and no callback can report its output. -/
theorem not_jobRegistrable_long : ∃ db' job,
    generateVariants Env.default (run (serve Env.default) World.initial
        longPresetRequests).backend.db 1 ⟨5⟩ (.ordinary 1) ⟨2⟩ longRequest = .ok (db', job) ∧
      ∀ ids, ¬ JobRegistrable db' ids job := by
  have hgenerates : (generateVariants Env.default (run (serve Env.default) World.initial
      longPresetRequests).backend.db 1 ⟨5⟩ (.ordinary 1) ⟨2⟩ longRequest).toOption.map
        (fun p => p.2.specs.any fun spec => 64 < spec.variantName.length) = some true := by
    decide +kernel
  obtain ⟨⟨db', job⟩, h, hlong⟩ := Option.map_eq_some_iff.mp hgenerates
  refine ⟨db', job, toOption_eq_some.mp h, fun ids hjob => ?_⟩
  obtain ⟨spec, hspec, hlength⟩ := List.any_eq_true.mp hlong
  obtain ⟨hname, -⟩ := (exists_reports_iff spec).mp (hjob.reportable spec hspec)
  have hlength := of_decide_eq_true hlength
  omega

end MediaService
