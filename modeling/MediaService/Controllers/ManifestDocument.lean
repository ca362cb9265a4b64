import MediaService.Controllers.Transfer
import MediaService.Controllers.TransferImport
import MediaService.Foundation.Json

/-! A manifest as JSON: the document an export writes, and how an import reads an
uploaded one, first against its ceilings and then against its schema. Fields the
schema does not have are passed over. -/

namespace MediaService

open Foundation

/-- What reading and writing the models takes from their library: how an instant is
spelled, which strings spell a UUID, and what counts as an integer. -/
structure ModelLibrary where
  timestamp : Timestamp → String
  uuid : CodePoints → Option UUID
  int : Json → Option ℤ
  /-- Whether a float literal reads as zero. -/
  floatIsZero : List Char → Bool
  uuid_str : ∀ u : UUID, uuid (codePoints u.str) = some u
  int_int : ∀ i, int (.int i) = some i

/-! ### Writing -/

def textJson (s : String) : Json := .str (codePoints s)

def uuidJson (u : UUID) : Json := textJson u.str

def optionalJson {α : Type} (json : α → Json) : Option α → Json
  | none => .null
  | some a => json a

mutual

/-- `CategoryNode.model_dump`. -/
def CategoryNode.json : CategoryNode → Json
  | .mk c objectCount totalObjectCount children => .obj [
      (codePoints "name", textJson c.name),
      (codePoints "slug", textJson c.slug),
      (codePoints "parent_id", optionalJson .int c.parentId),
      (codePoints "id", .int c.id),
      (codePoints "owner_id", uuidJson c.ownerId),
      (codePoints "tenant_id", optionalJson uuidJson c.tenantId),
      (codePoints "object_count", .int objectCount),
      (codePoints "total_object_count", .int totalObjectCount),
      (codePoints "children", .arr (CategoryNode.jsonList children))]

def CategoryNode.jsonList : List CategoryNode → List Json
  | [] => []
  | node :: nodes => node.json :: CategoryNode.jsonList nodes

end

/-- `ManifestObjectEntry.model_dump`. -/
def ManifestObjectEntry.json (lib : ModelLibrary) (entry : ManifestObjectEntry) : Json := .obj [
  (codePoints "id", uuidJson entry.id),
  (codePoints "filename", optionalJson textJson entry.filename),
  (codePoints "category", textJson entry.category.str),
  (codePoints "category_paths", .arr (entry.categoryPaths.map textJson)),
  (codePoints "visibility", textJson entry.visibility.str),
  (codePoints "size_bytes", .int entry.sizeBytes),
  (codePoints "sha256", optionalJson textJson entry.sha256),
  (codePoints "mime_type", textJson entry.mimeType),
  (codePoints "status", textJson entry.status.str),
  (codePoints "scan_status", textJson entry.scanStatus.str),
  (codePoints "created_at", textJson (lib.timestamp entry.createdAt)),
  (codePoints "updated_at", textJson (lib.timestamp entry.updatedAt))]

/-- The document `stream_manifest` spells. -/
def ExportManifest.json (lib : ModelLibrary) (manifest : ExportManifest) : Json := .obj [
  (codePoints "category_tree", .arr (CategoryNode.jsonList manifest.categoryTree)),
  (codePoints "objects", .arr (manifest.objects.map (ManifestObjectEntry.json lib)))]

/-! ### The ceilings -/

/-- `not value`. -/
def isFalsy (lib : ModelLibrary) : Json → Bool
  | .null => true
  | .bool b => !b
  | .int i => i = 0
  | .float literal => lib.floatIsZero literal
  | .str s => s.isEmpty
  | .arr items => items.isEmpty
  | .obj members => members.isEmpty

/-- `value.get(key) or []`, if it is an array. -/
def arrayMember (lib : ModelLibrary) (key : String) (value : Json) : Option (List Json) :=
  match value.member key with
  | none => some []
  | some (.arr items) => some items
  | some v => if isFalsy lib v then some [] else none

section Ceilings

variable (settings : Settings) (lib : ModelLibrary)

/-- The loop over the pending nodes, the last pushed first; `room` is how many more
nodes the ceiling admits. -/
def assertNodesWithinCeilings : ℕ → List (Json × ℕ) → Except Failure Unit
  | _, [] => .ok ()
  | room, (.obj members, depth) :: pending =>
    match room with
    | 0 => refuse 422 ("Manifest carries more than " ++
        toString settings.mediaImportMaxCategories ++ " categories.")
    | room + 1 =>
      if depth > settings.mediaImportMaxCategoryDepth then
        refuse 422 ("Category tree nests deeper than the " ++
          toString settings.mediaImportMaxCategoryDepth ++ "-level import ceiling.")
      else
        match arrayMember lib "children" (.obj members) with
        | none => refuse 422 "Category tree `children` must be an array."
        | some children => assertNodesWithinCeilings room
            (children.reverse.map (fun child => (child, depth + 1)) ++ pending)
  | _, _ :: _ => refuse 422 "Every category tree node must be a JSON object."

/-- `_assert_document_within_ceilings`. -/
def assertDocumentWithinCeilings (document : Json) : Except Failure Unit :=
  match document with
  | .obj _ =>
    match arrayMember lib "objects" document, arrayMember lib "category_tree" document with
    | some objects, some tree =>
      if objects.length > settings.mediaImportMaxObjects then
        refuse 422 ("Manifest carries " ++ toString objects.length ++ " objects, above the " ++
          toString settings.mediaImportMaxObjects ++ " import ceiling.")
      else
        assertNodesWithinCeilings settings lib settings.mediaImportMaxCategories
          (tree.reverse.map fun node => (node, 1))
    | _, _ => refuse 422 "Manifest `objects` and `category_tree` must be arrays."
  | _ => refuse 422 "Manifest must be a JSON object."

end Ceilings

/-! ### The schema -/

def readText : Json → Option String
  | .str s => textOf s
  | _ => none

/-- Text of bounded length. -/
def readBounded (min max : ℕ) (json : Json) : Option String :=
  (readText json).filter fun s => min ≤ s.length ∧ s.length ≤ max

/-- A member that may be null or missing. -/
def readOptional {α : Type} (read : Json → Option α) : Option Json → Option (Option α)
  | none | some .null => some none
  | some json => (read json).map some

/-- The items of a member that may be missing. -/
def readItems {α : Type} (read : Json → Option α) : Option Json → Option (List α)
  | none => some []
  | some (.arr items) => items.mapM read
  | some _ => none

def MediaCategory.all : List MediaCategory :=
  [.avatar, .document, .asset, .chatAttachment, .export, .receipt]

def MediaVisibility.all : List MediaVisibility := [.public, .private, .tenant, .sensitive]

/-- A member of an enumeration, by its value. -/
def readEnum {α : Type} (all : List α) (str : α → String) (json : Json) : Option α :=
  (readText json).bind fun s => all.find? fun a => str a = s

/-- A node of a tree with at most `levels` levels, which the ceilings have been
checked for. -/
def ImportCategoryNode.read : ℕ → Json → Option ImportCategoryNode
  | 0, _ => none
  | levels + 1, json => do
    let name ← (json.member "name").bind (readBounded 1 50)
    let slug ← (json.member "slug").bind (readBounded 1 50)
    let children ← readItems (ImportCategoryNode.read levels) (json.member "children")
    return .mk name slug children

def readUuid (lib : ModelLibrary) : Json → Option UUID
  | .str s => lib.uuid s
  | _ => none

def ImportObjectEntry.read (lib : ModelLibrary) (json : Json) : Option ImportObjectEntry := do
  let id ← (json.member "id").bind (readUuid lib)
  let filename ← readOptional readText (json.member "filename")
  let category ← (json.member "category").bind (readEnum MediaCategory.all MediaCategory.str)
  let categoryPaths ← readItems readText (json.member "category_paths")
  let visibility ← (json.member "visibility").bind
    (readEnum MediaVisibility.all MediaVisibility.str)
  let sizeBytes ← (json.member "size_bytes").bind lib.int
  let sha256 ← readOptional readText (json.member "sha256")
  let mimeType ← (json.member "mime_type").bind readText
  if h : 0 ≤ sizeBytes ∧ (∀ f, filename = some f → f.length ≤ 255) ∧
      categoryPaths.length ≤ maxCategoryAssignments ∧ (∀ s, sha256 = some s → s.length = 64) ∧
      1 ≤ mimeType.length ∧ mimeType.length ≤ 255 then
    some ⟨id, filename, category, categoryPaths, visibility, sizeBytes.toNat, sha256, mimeType,
      h.2.1, h.2.2.1, h.2.2.2.1, h.2.2.2.2⟩
  else none

def ImportManifest.read (settings : Settings) (lib : ModelLibrary) (document : Json) :
    Option ImportManifest := do
  let tree ← readItems (ImportCategoryNode.read settings.mediaImportMaxCategoryDepth)
    (document.member "category_tree")
  let objects ← readItems (ImportObjectEntry.read lib) (document.member "objects")
  return ⟨tree, objects⟩

/-- `parse_manifest_document`, on the JSON that was read. -/
def parseManifestDocument (settings : Settings) (lib : ModelLibrary) (document : Json) :
    Except Failure ImportManifest :=
  match assertDocumentWithinCeilings settings lib document with
  | .error e => .error e
  | .ok () =>
    match ImportManifest.read settings lib document with
    | none => refuse 422 "Manifest does not match the expected export shape."
    | some manifest => .ok manifest

/-- `_import_manifest`. -/
def importManifest (env : Env) (lib : ModelLibrary) (b : Backend) (ctx : ℕ → RowContext)
    (user : UserModel) (document : Json) : Backend × Except Failure ImportOutcome :=
  match parseManifestDocument env.settings lib document with
  | .error e => (b, .error e)
  | .ok manifest => runImport env b ctx user (.manifest manifest)

/-! ### What is exported is read back -/

mutual

/-- The rows of a branch, parents first. -/
def CategoryNode.rows : CategoryNode → List Category
  | .mk c _ _ children => c :: CategoryNode.rowsList children

def CategoryNode.rowsList : List CategoryNode → List Category
  | [] => []
  | node :: nodes => node.rows ++ CategoryNode.rowsList nodes

end

mutual

/-- What an import keeps of a node. -/
def CategoryNode.imported : CategoryNode → ImportCategoryNode
  | .mk c _ _ children => .mk c.name c.slug (CategoryNode.importedList children)

def CategoryNode.importedList : List CategoryNode → List ImportCategoryNode
  | [] => []
  | node :: nodes => node.imported :: CategoryNode.importedList nodes

end

/-- At most so many levels. -/
def CategoryNode.Within : ℕ → CategoryNode → Prop
  | 0, _ => False
  | levels + 1, .mk _ _ _ children => ∀ child ∈ children, child.Within levels

/-- A category the schema of a node admits. -/
def Category.FitsNode (c : Category) : Prop :=
  (1 ≤ c.name.length ∧ c.name.length ≤ 50) ∧ 1 ≤ c.slug.length ∧ c.slug.length ≤ 50

/-- What an import keeps of an exported entry, if its schema admits it. -/
def ManifestObjectEntry.imported (entry : ManifestObjectEntry) : Option ImportObjectEntry :=
  if h : (∀ f, entry.filename = some f → f.length ≤ 255) ∧
      entry.categoryPaths.length ≤ maxCategoryAssignments ∧
      (∀ s, entry.sha256 = some s → s.length = 64) ∧
      1 ≤ entry.mimeType.length ∧ entry.mimeType.length ≤ 255 then
    some ⟨entry.id, entry.filename, entry.category, entry.categoryPaths, entry.visibility,
      entry.sizeBytes, entry.sha256, entry.mimeType, h.1, h.2.1, h.2.2.1, h.2.2.2⟩
  else none

theorem CategoryNode.jsonList_eq_map (nodes : List CategoryNode) :
    CategoryNode.jsonList nodes = nodes.map CategoryNode.json := by
  induction nodes with
  | nil => rfl
  | cons node nodes ih => rw [CategoryNode.jsonList, ih, List.map_cons]

theorem CategoryNode.rowsList_eq_flatMap (nodes : List CategoryNode) :
    CategoryNode.rowsList nodes = nodes.flatMap CategoryNode.rows := by
  induction nodes with
  | nil => rfl
  | cons node nodes ih => rw [CategoryNode.rowsList, ih, List.flatMap_cons]

theorem CategoryNode.importedList_eq_map (nodes : List CategoryNode) :
    CategoryNode.importedList nodes = nodes.map CategoryNode.imported := by
  induction nodes with
  | nil => rfl
  | cons node nodes ih => rw [CategoryNode.importedList, ih, List.map_cons]

theorem readText_textJson (s : String) : readText (textJson s) = some s := Json.textOf_codePoints s

theorem readOptional_optionalJson (x : Option String) :
    readOptional readText (some (optionalJson textJson x)) = some x := by
  cases x with
  | none => rfl
  | some s => exact congrArg (Option.map some) (readText_textJson s)

theorem mapM_eq_some {α β : Type} {f : α → Option β} {g : α → β} {l : List α}
    (h : ∀ a ∈ l, f a = some (g a)) : l.mapM f = some (l.map g) := by
  induction l with
  | nil => rfl
  | cons a l ih =>
    rw [List.mapM_cons, h a List.mem_cons_self, ih fun b hb => h b (List.mem_cons_of_mem a hb)]
    rfl

theorem readItems_arr {α β : Type} {read : Json → Option α} {json : β → Json} {g : β → α}
    {l : List β} (h : ∀ a ∈ l, read (json a) = some (g a)) :
    readItems read (some (.arr (l.map json))) = some (l.map g) := by
  rw [readItems, List.mapM_map]
  exact mapM_eq_some h

theorem readBounded_textJson {min max : ℕ} {s : String} (h : min ≤ s.length ∧ s.length ≤ max) :
    readBounded min max (textJson s) = some s := by
  rw [readBounded, readText_textJson]
  exact if_pos (decide_eq_true h)

theorem CategoryNode.read_json {levels : ℕ} {node : CategoryNode} (hw : node.Within levels)
    (hfits : ∀ c ∈ node.rows, c.FitsNode) :
    ImportCategoryNode.read levels node.json = some node.imported := by
  induction levels generalizing node with
  | zero => exact hw.elim
  | succ levels ih =>
    obtain ⟨c, count, total, children⟩ := node
    rw [CategoryNode.rows, CategoryNode.rowsList_eq_flatMap] at hfits
    obtain ⟨hname, hslug⟩ := hfits c List.mem_cons_self
    have hchildren : readItems (ImportCategoryNode.read levels)
        (some (.arr (CategoryNode.jsonList children))) =
          some (children.map CategoryNode.imported) := by
      rw [CategoryNode.jsonList_eq_map]
      refine readItems_arr fun child hchild => ih (hw child hchild) fun d hd => ?_
      exact hfits d (List.mem_cons_of_mem c (List.mem_flatMap.mpr ⟨child, hchild, hd⟩))
    have hmembers : (CategoryNode.mk c count total children).json.member "name" =
          some (textJson c.name) ∧
        (CategoryNode.mk c count total children).json.member "slug" = some (textJson c.slug) ∧
        (CategoryNode.mk c count total children).json.member "children" =
          some (.arr (CategoryNode.jsonList children)) := ⟨rfl, rfl, rfl⟩
    rw [ImportCategoryNode.read, hmembers.1, hmembers.2.1, hmembers.2.2, hchildren,
      CategoryNode.imported, CategoryNode.importedList_eq_map]
    simp only [Option.bind_some, readBounded_textJson hname, readBounded_textJson hslug]
    rfl

theorem readEnum_category (c : MediaCategory) :
    readEnum MediaCategory.all MediaCategory.str (textJson c.str) = some c := by
  rw [readEnum, readText_textJson]
  cases c <;> rfl

theorem readEnum_visibility (v : MediaVisibility) :
    readEnum MediaVisibility.all MediaVisibility.str (textJson v.str) = some v := by
  rw [readEnum, readText_textJson]
  cases v <;> rfl

theorem ManifestObjectEntry.read_json (lib : ModelLibrary) (entry : ManifestObjectEntry) :
    ImportObjectEntry.read lib (entry.json lib) = entry.imported := by
  have hid : ((entry.json lib).member "id").bind (readUuid lib) = some entry.id :=
    lib.uuid_str entry.id
  have hfilename : readOptional readText ((entry.json lib).member "filename") =
      some entry.filename := readOptional_optionalJson entry.filename
  have hcategory : ((entry.json lib).member "category").bind
      (readEnum MediaCategory.all MediaCategory.str) = some entry.category :=
    readEnum_category entry.category
  have hpaths : readItems readText ((entry.json lib).member "category_paths") =
      some entry.categoryPaths := by
    have hread : readItems readText (some (.arr (entry.categoryPaths.map textJson))) =
        some (entry.categoryPaths.map fun s => s) := readItems_arr fun s _ => readText_textJson s
    rwa [List.map_id'] at hread
  have hvisibility : ((entry.json lib).member "visibility").bind
      (readEnum MediaVisibility.all MediaVisibility.str) = some entry.visibility :=
    readEnum_visibility entry.visibility
  have hsize : ((entry.json lib).member "size_bytes").bind lib.int = some (entry.sizeBytes : ℤ) :=
    lib.int_int entry.sizeBytes
  have hsha256 : readOptional readText ((entry.json lib).member "sha256") = some entry.sha256 :=
    readOptional_optionalJson entry.sha256
  have hmime : ((entry.json lib).member "mime_type").bind readText = some entry.mimeType :=
    readText_textJson entry.mimeType
  unfold ImportObjectEntry.read ManifestObjectEntry.imported
  rw [hid, hfilename, hcategory, hpaths, hvisibility, hsize, hsha256, hmime]
  simp only [Option.bind_eq_bind, Option.bind_some, Int.natCast_nonneg, true_and, Int.toNat_natCast]

/-! ### What is exported is within the ceilings -/

/-- The ceilings of an import, on an exported document. -/
structure ExportManifest.Fits (settings : Settings) (manifest : ExportManifest) : Prop where
  objects : manifest.objects.length ≤ settings.mediaImportMaxObjects
  categories : (CategoryNode.rowsList manifest.categoryTree).length ≤
    settings.mediaImportMaxCategories
  depth : ∀ node ∈ manifest.categoryTree, node.Within settings.mediaImportMaxCategoryDepth

theorem arrayMember_children (lib : ModelLibrary) (node : CategoryNode) :
    ∃ c count total children, node = .mk c count total children ∧
      arrayMember lib "children" node.json = some (children.map CategoryNode.json) := by
  obtain ⟨c, count, total, children⟩ := node
  refine ⟨c, count, total, children, rfl, ?_⟩
  rw [← CategoryNode.jsonList_eq_map]
  rfl

theorem assertNodesWithinCeilings_json (settings : Settings) (lib : ModelLibrary) {room : ℕ}
    {pending : List (CategoryNode × ℕ)}
    (hroom : (pending.flatMap fun p => p.1.rows).length ≤ room)
    (hdepth : ∀ p ∈ pending, p.1.Within (settings.mediaImportMaxCategoryDepth + 1 - p.2)) :
    assertNodesWithinCeilings settings lib room (pending.map fun p => (p.1.json, p.2)) =
      .ok () := by
  induction room generalizing pending with
  | zero =>
    cases pending with
    | nil => rfl
    | cons p pending =>
      obtain ⟨⟨c, count, total, children⟩, depth⟩ := p
      simp [CategoryNode.rows] at hroom
  | succ room ih =>
    cases pending with
    | nil => rfl
    | cons p pending =>
      obtain ⟨node, depth⟩ := p
      obtain ⟨c, count, total, children, rfl, hchildren⟩ := arrayMember_children lib node
      have hwithin := hdepth _ List.mem_cons_self
      obtain ⟨levels, hlevels⟩ : ∃ levels,
          settings.mediaImportMaxCategoryDepth + 1 - depth = levels + 1 := by
        cases hl : settings.mediaImportMaxCategoryDepth + 1 - depth with
        | zero =>
          dsimp only at hwithin
          rw [hl] at hwithin
          exact hwithin.elim
        | succ levels => exact ⟨levels, rfl⟩
      dsimp only at hwithin
      rw [hlevels] at hwithin
      have hobj : ∃ members, (CategoryNode.mk c count total children).json = .obj members :=
            ⟨_, rfl⟩
      obtain ⟨members, hmembers⟩ := hobj
      rw [List.map_cons]
      dsimp only
      rw [hmembers] at hchildren ⊢
      rw [assertNodesWithinCeilings, if_neg (by omega), hchildren]
      dsimp only
      have hpush : (children.map CategoryNode.json).reverse.map (fun child => (child, depth + 1)) ++
            pending.map (fun p => (p.1.json, p.2)) =
          (children.reverse.map (fun child => (child, depth + 1)) ++ pending).map
            fun p => (p.1.json, p.2) := by
        rw [List.map_append, List.map_map, ← List.map_reverse, List.map_map]
        rfl
      rw [hpush]
      refine ih ?_ fun q hq => ?_
      · rw [List.flatMap_cons, CategoryNode.rows, CategoryNode.rowsList_eq_flatMap] at hroom
        rw [List.flatMap_append, List.flatMap_map]
        simp only [List.length_append, List.length_cons] at hroom ⊢
        have hperm : (children.reverse.flatMap fun child => child.rows).length =
            (children.flatMap CategoryNode.rows).length :=
          (children.reverse_perm.flatMap_right _).length_eq
        omega
      · rcases List.mem_append.mp hq with hq | hq
        · obtain ⟨child, hchild, rfl⟩ := List.mem_map.mp hq
          have hlevel : settings.mediaImportMaxCategoryDepth + 1 - (depth + 1) = levels := by omega
          dsimp only
          rw [hlevel]
          exact hwithin child (List.mem_reverse.mp hchild)
        · exact hdepth q (List.mem_cons_of_mem _ hq)

/-- An exported document within the ceilings is read, if its entries are. -/
theorem parseManifestDocument_json {settings : Settings} (lib : ModelLibrary)
    {manifest : ExportManifest} (hfits : manifest.Fits settings)
    (hrows : ∀ c ∈ CategoryNode.rowsList manifest.categoryTree, c.FitsNode) :
    parseManifestDocument settings lib (manifest.json lib) =
      match manifest.objects.mapM ManifestObjectEntry.imported with
      | none => refuse 422 "Manifest does not match the expected export shape."
      | some objects => .ok ⟨manifest.categoryTree.map CategoryNode.imported, objects⟩ := by
  have htree : arrayMember lib "category_tree" (manifest.json lib) =
      some (manifest.categoryTree.map CategoryNode.json) := by
    rw [← CategoryNode.jsonList_eq_map]
    rfl
  have hobjects : arrayMember lib "objects" (manifest.json lib) =
      some (manifest.objects.map (ManifestObjectEntry.json lib)) := rfl
  have hceilings : assertDocumentWithinCeilings settings lib (manifest.json lib) = .ok () := by
    have hobj : ∃ members, manifest.json lib = .obj members := ⟨_, rfl⟩
    obtain ⟨members, hmembers⟩ := hobj
    rw [hmembers] at htree hobjects ⊢
    unfold assertDocumentWithinCeilings
    dsimp only
    rw [htree, hobjects]
    dsimp only
    rw [if_neg (by rw [List.length_map]; exact Nat.not_lt.mpr hfits.objects)]
    have hpending : (manifest.categoryTree.map CategoryNode.json).reverse.map
          (fun node => (node, 1)) =
        (manifest.categoryTree.reverse.map fun node => (node, 1)).map
          fun p : CategoryNode × ℕ => (p.1.json, p.2) := by
      rw [← List.map_reverse, List.map_map, List.map_map]
      rfl
    rw [hpending]
    refine assertNodesWithinCeilings_json settings lib ?_ fun p hp => ?_
    · rw [List.flatMap_map]
      have hperm : (manifest.categoryTree.reverse.flatMap fun node => node.rows).length =
          (manifest.categoryTree.flatMap CategoryNode.rows).length :=
        (manifest.categoryTree.reverse_perm.flatMap_right _).length_eq
      rw [hperm, ← CategoryNode.rowsList_eq_flatMap]
      exact hfits.categories
    · obtain ⟨node, hnode, rfl⟩ := List.mem_map.mp hp
      exact hfits.depth node (List.mem_reverse.mp hnode)
  have hread : ImportManifest.read settings lib (manifest.json lib) =
      (manifest.objects.mapM ManifestObjectEntry.imported).map fun objects =>
        ⟨manifest.categoryTree.map CategoryNode.imported, objects⟩ := by
    have hnodes : readItems (ImportCategoryNode.read settings.mediaImportMaxCategoryDepth)
        ((manifest.json lib).member "category_tree") =
          some (manifest.categoryTree.map CategoryNode.imported) := by
      have hmember : (manifest.json lib).member "category_tree" =
          some (.arr (manifest.categoryTree.map CategoryNode.json)) := by
        rw [← CategoryNode.jsonList_eq_map]
        rfl
      rw [hmember]
      refine readItems_arr fun node hnode => CategoryNode.read_json (hfits.depth node hnode) ?_
      intro c hc
      exact hrows c (by
        rw [CategoryNode.rowsList_eq_flatMap]
        exact List.mem_flatMap.mpr ⟨node, hnode, hc⟩)
    have hentries : readItems (ImportObjectEntry.read lib) ((manifest.json lib).member "objects") =
        manifest.objects.mapM ManifestObjectEntry.imported := by
      have hmember : (manifest.json lib).member "objects" =
          some (.arr (manifest.objects.map (ManifestObjectEntry.json lib))) := rfl
      rw [hmember, readItems, List.mapM_map]
      exact congrArg (List.mapM · manifest.objects)
        (funext fun entry => ManifestObjectEntry.read_json lib entry)
    rw [ImportManifest.read, hnodes, hentries]
    cases manifest.objects.mapM ManifestObjectEntry.imported <;> rfl
  rw [parseManifestDocument, hceilings]
  dsimp only
  rw [hread]
  cases manifest.objects.mapM ManifestObjectEntry.imported <;> rfl

end MediaService
