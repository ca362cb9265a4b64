import Mathlib.Data.Char
import Mathlib.Data.List.Lex
import Mathlib.Data.List.Sort
import MediaService.Controllers.Category

/-! What is shown of category rows: the slug path of a row, the references an
object's filing is projected into, and the nested tree with its counts. Every
projection takes rows that were scoped before. -/

namespace MediaService

open Foundation

/-! ### Paths and references -/

/-- `resolve_category_paths` at one id: the slugs from the root down, as far up
as the rows prove. -/
def categoryPath (rows : List Category) (categoryId : ℤ) : Option String :=
  if rows.any fun c => c.id = categoryId then
    let chain := climb (parentOf rows) (rows.length + 1) (some categoryId) []
    let slugs := chain.filterMap fun i => (rows.find? fun c => c.id = i).map Category.slug
    some ("/".intercalate slugs.reverse)
  else none

structure MediaObjectCategoryRef where
  id : ℤ
  name : String
  path : String
  deriving DecidableEq

def categoryRefs (categories scope : List Category) : List MediaObjectCategoryRef :=
  categories.map fun c => ⟨c.id, c.name, (categoryPath scope c.id).getD c.slug⟩

/-- The relationship `user_categories` of an object: every category it is filed into. -/
def userCategories (db : Database) (id : UUID) : List Category :=
  db.categories.rows.filter fun c => (id, c.id) ∈ db.links

def assignedCategoryRefs (db : Database) (user : UserModel) (categories : List Category) :
    List MediaObjectCategoryRef :=
  if categories = [] then [] else categoryRefs categories (scopedCategories db user)

/-- `category_refs_by_object`, by id order; an anonymous caller is shown no
filing, and a category outside the caller's scope is dropped. -/
def categoryRefsByObject (db : Database) (user : Option UserModel) (objectIds : List UUID)
    (id : UUID) : List MediaObjectCategoryRef :=
  match user with
  | none => []
  | some user =>
    if id ∈ objectIds then
      let scope := scopedCategories db user
      let filed := scope.filter fun c => (id, c.id) ∈ db.links
      categoryRefs (filed.insertionSort fun c c' => c.id ≤ c'.id) scope
    else []

/-! ### Rows -/

structure CategoriesPublic where
  data : List Category
  count : ℕ
  deriving DecidableEq

/-- `list_categories`; the page is taken in the order of the rows. -/
def listCategories (db : Database) (user : UserModel) (skip limit : ℕ) : CategoriesPublic where
  data := ((scopedCategories db user).drop skip).take limit
  count := (scopedCategories db user).length

def getCategory (db : Database) (user : UserModel) (categoryId : ℤ) : Except Failure Category :=
  loadCategory db user categoryId

/-! ### The tree -/

inductive CategoryNode where
  | mk (category : Category) (objectCount totalObjectCount : ℕ) (children : List CategoryNode)

namespace CategoryNode

def totalObjectCount : CategoryNode → ℕ
  | .mk _ _ total _ => total

mutual

def decEq : (m n : CategoryNode) → Decidable (m = n)
  | .mk c k t ns, .mk c' k' t' ns' =>
    match decEqList ns ns' with
    | isTrue h => decidable_of_iff (c = c' ∧ k = k' ∧ t = t') (by simp [h])
    | isFalse h => isFalse (by simp [h])

def decEqList : (ms ns : List CategoryNode) → Decidable (ms = ns)
  | [], [] => isTrue rfl
  | [], _ :: _ => isFalse nofun
  | _ :: _, [] => isFalse nofun
  | m :: ms, n :: ns =>
    match decEq m n, decEqList ms ns with
    | isTrue h, isTrue h' => isTrue (by rw [h, h'])
    | isFalse h, _ => isFalse (by simp [h])
    | _, isFalse h => isFalse (by simp [h])

end

instance : DecidableEq CategoryNode := decEq

end CategoryNode

/-- A node and the branch below it, down to `fuel` levels, the totals rolled up. -/
def categoryNode (rows : List Category) (counts : ℤ → ℕ) : ℕ → Category → CategoryNode
  | 0, row => .mk row (counts row.id) (counts row.id) []
  | fuel + 1, row =>
    let children := (rows.filter fun c => c.parentId = some row.id).map
      (categoryNode rows counts fuel)
    .mk row (counts row.id) (counts row.id + (children.map CategoryNode.totalObjectCount).sum)
      children

/-- `build_category_tree`: siblings by name; a row whose parent is missing is a
root. -/
def buildCategoryTree (env : Env) (categories : List Category) (counts : ℤ → ℕ) :
    List CategoryNode :=
  let rows := categories.insertionSort fun c c' =>
    (env.lower c.name).toList ≤ (env.lower c'.name).toList
  let roots := rows.filter fun c => c.parentId.all fun p => !rows.any fun c' => c'.id = p
  roots.map (categoryNode rows counts rows.length)

mutual

def CategoryNode.count : CategoryNode → ℕ
  | .mk _ _ _ children => 1 + countCategoryNodes children

/-- `count_category_nodes`. -/
def countCategoryNodes : List CategoryNode → ℕ
  | [] => 0
  | node :: nodes => node.count + countCategoryNodes nodes

end

/-- `get_category_tree`; the count of a node is its filings. -/
def getCategoryTree (env : Env) (db : Database) (user : UserModel) : List CategoryNode :=
  buildCategoryTree env (scopedCategories db user) fun i => (db.links.filter (·.2 = i)).card

end MediaService
