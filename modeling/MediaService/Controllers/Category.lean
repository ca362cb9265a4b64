import MediaService.DbModels.Database
import MediaService.Core.Config
import MediaService.Foundation.Forest

/-! User-defined categories: scoping, the structural guards (same scope, no
cycle, depth cap, unique sibling slug) and the operations that pass through
them. A category request reads and writes the database only, and a refused one
writes nothing. -/

namespace MediaService

open Foundation

/-! ### Scope -/

/-- `_in_scope`, which is also what `_scoped_query` selects by. -/
def inScope (user : UserModel) (row : Category) : Bool :=
  if user.isSuperuser then true
  else
    match user.tenantId with
    | some t => row.tenantId = some t
    | none => row.tenantId = none ∧ row.ownerId = user.id

def scopedCategories (db : Database) (user : UserModel) : List Category :=
  db.categories.rows.filter (inScope user)

/-- The pair two rows agree on to live in the same tree. -/
def scopeKey (tenantId : Option UUID) (ownerId : UUID) : Option UUID × Option UUID :=
  match tenantId with
  | some t => (some t, none)
  | none => (none, some ownerId)

def Category.scopeKey (c : Category) : Option UUID × Option UUID :=
  MediaService.scopeKey c.tenantId c.ownerId

def inWriteScope (tenantId : Option UUID) (ownerId : UUID) (row : Category) : Bool :=
  match tenantId with
  | some t => row.tenantId = some t
  | none => row.tenantId = none ∧ row.ownerId = ownerId

/-- `_categories_in_write_scope`. -/
def categoriesInWriteScope (db : Database) (tenantId : Option UUID) (ownerId : UUID) :
    List Category :=
  db.categories.rows.filter (inWriteScope tenantId ownerId)

theorem inWriteScope_iff {tenantId : Option UUID} {ownerId : UUID} {row : Category} :
    inWriteScope tenantId ownerId row = true ↔ row.scopeKey = scopeKey tenantId ownerId := by
  unfold inWriteScope Category.scopeKey scopeKey
  cases tenantId <;> cases row.tenantId <;> simp

/-! ### Loading -/

def loadCategory (db : Database) (user : UserModel) (categoryId : ℤ) : Except Failure Category :=
  match db.categories.find categoryId with
  | none => refuse 404 "Category not found."
  | some row => if inScope user row then .ok row else refuse 403 "Not enough permissions."

def loadParent (db : Database) (user : UserModel) (parentId : ℤ) (tenantId : Option UUID)
    (ownerId : UUID) : Except Failure Category :=
  match db.categories.find parentId with
  | none => refuse 404 "Parent category not found."
  | some parent =>
    if !inScope user parent then refuse 403 "Not enough permissions."
    else if parent.scopeKey ≠ scopeKey tenantId ownerId then
      refuse 409 "Parent category belongs to another tenant."
    else .ok parent

/-! ### Structural guards -/

/-- The parent pointers of a set of rows. -/
def parentMap (rows : List Category) : ParentMap ℤ := fun i =>
  (rows.find? fun c => c.id = i).map Category.parentId

/-- Going up: the parent of a row, and nothing from a root or a missing row. -/
def parentOf (rows : List Category) (i : ℤ) : Option ℤ := (parentMap rows i).join

/-- The `(parent, child)` pairs of a set of rows, in row order. -/
def childEdges (rows : List Category) : List (ℤ × ℤ) :=
  rows.filterMap fun c => c.parentId.map fun p => (p, c.id)

def childrenOf (rows : List Category) (i : ℤ) : List ℤ :=
  ((childEdges rows).filter (·.1 = i)).map Prod.snd

def rejectCycle (db : Database) (categoryId parentId : ℤ) : Except Failure Unit :=
  if categoryId ∈ climb (parentOf db.categories.rows) (db.categories.rows.length + 1)
      (some parentId) [] then
    refuse 409 "A category cannot be nested under itself or its descendants."
  else .ok ()

/-- Levels from the requested parent up, as far as the rows go. -/
def parentDepth (rows : List Category) (parentId : Option ℤ) : ℕ :=
  ((climb (parentOf rows) (rows.length + 1) parentId []).filter fun i =>
    (parentMap rows i).isSome).length

/-- Ids of the branch below `root`, each with its height, in visiting order. -/
def branchWalk (rows : List Category) (root : ℤ) (height : ℕ) : List (ℤ × ℕ) :=
  explore (childrenOf rows) ((childEdges rows).length + 1) [(root, height)] []

def branchHeight (rows : List Category) (categoryId : Option ℤ) : ℕ :=
  match categoryId with
  | none => 1
  | some c => (branchWalk rows c 1).foldl (fun h e => max h e.2) 1

def rejectDepthOverflow (settings : Settings) (db : Database) (tenantId : Option UUID)
    (ownerId : UUID) (parentId categoryId : Option ℤ) : Except Failure Unit :=
  let rows := categoriesInWriteScope db tenantId ownerId
  if parentDepth rows parentId + branchHeight rows categoryId >
      settings.mediaImportMaxCategoryDepth then
    refuse 409 ("Category tree cannot exceed " ++ toString settings.mediaImportMaxCategoryDepth ++
      " levels.")
  else .ok ()

/-- `_sibling_with_slug`. -/
def siblingWithSlug (db : Database) (slug : String) (parentId : Option ℤ)
    (tenantId : Option UUID) (ownerId : UUID) (excludeId : Option ℤ) : Option Category :=
  (categoriesInWriteScope db tenantId ownerId).find? fun c =>
    c.slug = slug ∧ c.parentId = parentId ∧ excludeId ≠ some c.id

def rejectDuplicateSlug (db : Database) (slug : String) (parentId : Option ℤ)
    (tenantId : Option UUID) (ownerId : UUID) (excludeId : Option ℤ) : Except Failure Unit :=
  match siblingWithSlug db slug parentId tenantId ownerId excludeId with
  | some _ => refuse 409 "A sibling category already uses this name."
  | none => .ok ()

/-! ### Writes -/

/-- `uq_category_tenant_parent_slug`, which a null tenant or parent escapes. -/
def categoryTaken (db : Database) (row : Category) : Bool :=
  db.categories.rows.any fun c => c.id ≠ row.id ∧ c.slug = row.slug ∧
    c.tenantId = row.tenantId ∧ row.tenantId.isSome ∧ c.parentId = row.parentId ∧
    row.parentId.isSome

/-- Insert under the next id of the sequence. -/
def insertCategory (db : Database) (name slug : String) (parentId : Option ℤ) (ownerId : UUID)
    (tenantId : Option UUID) : Except Failure (Database × Category) :=
  let row : Category := ⟨db.categorySeq, name, slug, parentId, ownerId, tenantId⟩
  if categoryTaken db row then .error .integrityError
  else
    match db.categories.insert row with
    | none => .error .integrityError
    | some t => .ok ({ db with categories := t, categorySeq := db.categorySeq + 1 }, row)

/-- One level of a category path: reuse the sibling that holds the slug, or
create it. -/
def ensureLevel (db : Database) (user : UserModel) (parentId : Option ℤ) (name slug : String) :
    Except Failure (Database × Category × ℕ) :=
  match siblingWithSlug db slug parentId user.tenantId user.id none with
  | some row => .ok (db, row, 0)
  | none =>
    match insertCategory db name slug parentId user.id user.tenantId with
    | .error e => .error e
    | .ok (db, row) => .ok (db, row, 1)

/-- The loop of `ensure_category_path`; each created level is committed. -/
def ensureLevels (user : UserModel) :
    Database → Option Category → ℕ → List (String × String) →
      Database × Except Failure (Option Category × ℕ)
  | db, parent, created, [] => (db, .ok (parent, created))
  | db, parent, created, (name, slug) :: segments =>
    match ensureLevel db user (parent.map Category.id) name slug with
    | .error e => (db, .error e)
    | .ok (db, row, n) => ensureLevels user db (some row) (created + n) segments

def ensureCategoryPath (db : Database) (user : UserModel) (segments : List (String × String)) :
    Database × Except Failure (Category × ℕ) :=
  match ensureLevels user db none 0 segments with
  | (db, .error e) => (db, .error e)
  | (db, .ok (none, _)) =>
    (db, .error (.valueError "ensure_category_path requires at least one segment."))
  | (db, .ok (some row, created)) => (db, .ok (row, created))

/-! ### Assignment -/

/-- The schema's bound on the categories named in one request. -/
def maxCategoryAssignments : ℕ := 50

/-- `_unique_ids`. -/
def uniqueIds (categoryIds : List ℤ) : List ℤ := categoryIds.eraseDups

/-- `resolve_category_ids`: an id out of scope is refused with its own reason. -/
def resolveCategoryIds (db : Database) (user : UserModel) (categoryIds : List ℤ) :
    Except Failure (List Category) :=
  (uniqueIds categoryIds).mapM fun i =>
    match (scopedCategories db user).find? fun c => c.id = i with
    | some row => .ok row
    | none => loadCategory db user i

/-- `categories_in_scope`: an id out of scope is dropped. -/
def categoriesInScope (db : Database) (user : UserModel) (categoryIds : List ℤ) :
    List Category :=
  (uniqueIds categoryIds).filterMap fun i => (scopedCategories db user).find? fun c => c.id = i

/-- `collect_branch_ids`. -/
def collectBranchIds (rows : List Category) (rootId : ℤ) : List ℤ :=
  (branchWalk rows rootId 0).map Prod.fst

/-- `branch_category_ids`; an anonymous caller has no category scope. -/
def branchCategoryIds (db : Database) (user : Option UserModel) (categoryId : ℤ)
    (includeDescendants : Bool) : Except Failure (List ℤ) :=
  match user with
  | none => .ok []
  | some user =>
    match loadCategory db user categoryId with
    | .error e => .error e
    | .ok row =>
      if includeDescendants then .ok (collectBranchIds (scopedCategories db user) row.id)
      else .ok [row.id]

/-! ### Requests -/

structure CategoryCreate where
  name : String
  slug : String
  parentId : Option ℤ
  name_length : 1 ≤ name.length ∧ name.length ≤ 50
  slug_length : 1 ≤ slug.length ∧ slug.length ≤ 50

/-- A patch always carries a name and the slug made from it; the parent only
when the body names one. -/
structure CategoryUpdate where
  name : String
  slug : String
  parentId : Option (Option ℤ)
  name_length : 1 ≤ name.length ∧ name.length ≤ 50
  slug_length : 1 ≤ slug.length ∧ slug.length ≤ 50

def createCategory (settings : Settings) (db : Database) (user : UserModel)
    (req : CategoryCreate) : Except Failure (Database × Category) := do
  if let some p := req.parentId then
    let _ ← loadParent db user p user.tenantId user.id
  rejectDepthOverflow settings db user.tenantId user.id req.parentId none
  rejectDuplicateSlug db req.slug req.parentId user.tenantId user.id none
  insertCategory db req.name req.slug req.parentId user.id user.tenantId

/-- The guards of a reparent: the new parent, the cycle and the depth. -/
def checkReparent (settings : Settings) (db : Database) (user : UserModel) (row : Category)
    (parentId : Option ℤ) : Except Failure Unit :=
  if parentId = row.parentId then .ok ()
  else
    match parentId with
    | none => rejectDepthOverflow settings db row.tenantId row.ownerId none (some row.id)
    | some p => do
      let _ ← loadParent db user p row.tenantId row.ownerId
      rejectCycle db row.id p
      rejectDepthOverflow settings db row.tenantId row.ownerId (some p) (some row.id)

/-- The slug guard, whenever the parent or the slug moves. -/
def checkSibling (db : Database) (row : Category) (parentId : Option ℤ) (slug : String) :
    Except Failure Unit :=
  if (parentId, slug) = (row.parentId, row.slug) then .ok ()
  else rejectDuplicateSlug db slug parentId row.tenantId row.ownerId (some row.id)

def updateCategory (settings : Settings) (db : Database) (user : UserModel) (categoryId : ℤ)
    (req : CategoryUpdate) : Except Failure (Database × Category) := do
  let row ← loadCategory db user categoryId
  let parentId := req.parentId.getD row.parentId
  checkReparent settings db user row parentId
  checkSibling db row parentId req.slug
  let new := { row with name := req.name, slug := req.slug, parentId := parentId }
  if categoryTaken db new then .error .integrityError
  else .ok ({ db with categories := db.categories.update new }, new)

/-- Deleting a category unfiles its media; one with children is refused. -/
def deleteCategory (db : Database) (user : UserModel) (categoryId : ℤ) :
    Except Failure Database := do
  let row ← loadCategory db user categoryId
  if db.categories.rows.any fun c => c.parentId = some categoryId then
    refuse 409 "Category has child categories; reparent or delete them first."
  else
    .ok { db with
      categories := db.categories.erase row.id
      links := db.links.filter fun l => l.2 ≠ row.id }

/-- A write to the category table. -/
inductive CategoryRequest where
  | create (user : UserModel) (req : CategoryCreate)
  | update (user : UserModel) (categoryId : ℤ) (req : CategoryUpdate)
  | delete (user : UserModel) (categoryId : ℤ)
  | ensurePath (user : UserModel) (segments : List (String × String))

/-- The database after the request, which a refusal leaves as it was. -/
def CategoryRequest.step (settings : Settings) (db : Database) : CategoryRequest → Database
  | .create user req =>
    match createCategory settings db user req with
    | .ok (db', _) => db'
    | .error _ => db
  | .update user categoryId req =>
    match updateCategory settings db user categoryId req with
    | .ok (db', _) => db'
    | .error _ => db
  | .delete user categoryId =>
    match deleteCategory db user categoryId with
    | .ok db' => db'
    | .error _ => db
  | .ensurePath user segments => (ensureCategoryPath db user segments).1

end MediaService
