import MediaService.Controllers.CategoryTree
import MediaService.Invariants.ImportScope
import MediaService.Lifecycle.Categories

/-! Categories are kept apart by scope. What a caller is shown of them is made of the
rows in scope and their filings alone, but that a missing id and one out of scope are
refused differently. What a caller changes of them is in scope, and nothing is filed
into a category the caller cannot see. -/

namespace MediaService

open Foundation

variable {env : Env} {settings : Settings} {user : UserModel} {db : Database} {w : World}

/-! ### Reading -/

/-- Two databases with the same categories in a user's scope, filed alike. -/
structure SameScope (user : UserModel) (db₁ db₂ : Database) : Prop where
  categories : scopedCategories db₁ user = scopedCategories db₂ user
  filings : ∀ c ∈ scopedCategories db₁ user, ∀ id,
    (id, c.id) ∈ db₁.links ↔ (id, c.id) ∈ db₂.links

theorem categoryNode_congr {rows : List Category} {f g : ℤ → ℕ}
    (h : ∀ c ∈ rows, f c.id = g c.id) (levels : ℕ) {c : Category} (hc : c ∈ rows) :
    categoryNode rows f levels c = categoryNode rows g levels c := by
  induction levels generalizing c with
  | zero => rw [categoryNode, categoryNode, h c hc]
  | succ levels ih =>
    have hchildren : (rows.filter fun d => d.parentId = some c.id).map
          (categoryNode rows f levels) =
        (rows.filter fun d => d.parentId = some c.id).map (categoryNode rows g levels) :=
      List.map_congr_left fun d hd => ih (List.mem_filter.mp hd).1
    rw [categoryNode, categoryNode, hchildren, h c hc]

theorem SameScope.getCategoryTree {db₁ db₂ : Database} (h : SameScope user db₁ db₂) (env : Env) :
    getCategoryTree env db₁ user = getCategoryTree env db₂ user := by
  have hcounts : ∀ c ∈ scopedCategories db₂ user,
      (db₁.links.filter (·.2 = c.id)).card = (db₂.links.filter (·.2 = c.id)).card := by
    intro c hc
    congr 1
    ext ⟨id, i⟩
    simp only [Finset.mem_filter, and_congr_left_iff]
    rintro rfl
    exact h.filings c (h.categories ▸ hc) id
  rw [MediaService.getCategoryTree, MediaService.getCategoryTree, h.categories, buildCategoryTree,
    buildCategoryTree]
  refine List.map_congr_left fun c hc => categoryNode_congr (fun d hd => ?_) _
    (List.mem_filter.mp hc).1
  exact hcounts d ((List.mem_insertionSort _).mp hd)

theorem mem_scopedCategories {c : Category} :
    c ∈ scopedCategories db user ↔ c ∈ db.categories ∧ inScope user c = true :=
  List.mem_filter

/-- An id is answered alike by both if it is there in both or in neither. -/
theorem SameScope.getCategory {db₁ db₂ : Database} (h : SameScope user db₁ db₂) {i : ℤ}
    (hi : (db₁.categories.find i).isSome = (db₂.categories.find i).isSome) :
    getCategory db₁ user i = getCategory db₂ user i := by
  unfold MediaService.getCategory loadCategory
  cases h₁ : db₁.categories.find i with
  | none =>
    rw [h₁, Option.isSome_none, eq_comm, Option.isSome_eq_false_iff,
      Option.isNone_iff_eq_none] at hi
    rw [hi]
  | some c =>
    rw [h₁, Option.isSome_some, eq_comm, Option.isSome_iff_exists] at hi
    obtain ⟨d, h₂⟩ := hi
    rw [h₂]
    dsimp only
    have hboth : ∀ {db db' : Database} {c d : Category},
        scopedCategories db user = scopedCategories db' user → db.categories.find i = some c →
        db'.categories.find i = some d → inScope user c = true → c = d := by
      intro db db' c d hscope hc hd hin
      have hmem := mem_scopedCategories.mpr ⟨Table.mem_of_find hc, hin⟩
      rw [hscope] at hmem
      exact Table.eq_of_key_eq (mem_scopedCategories.mp hmem).1 (Table.mem_of_find hd)
        ((Table.key_of_find hc).trans (Table.key_of_find hd).symm)
    by_cases hc : inScope user c = true
    · obtain rfl := hboth h.categories h₁ h₂ hc
      rfl
    · have hd : ¬ inScope user d = true := fun hd => by
        obtain rfl := hboth h.categories.symm h₂ h₁ hd
        exact hc hd
      rw [if_neg hc, if_neg hd]

/-! ### Writing -/

def CategoryRequest.caller : CategoryRequest → UserModel
  | .create user _ | .update user _ _ | .delete user _ | .ensurePath user _ => user

/-- A request of the user's changes no category out of scope. -/
theorem mem_categories_step (settings : Settings) (db : Database) (r : CategoryRequest)
    {c : Category} (hc : inScope r.caller c = false) :
    c ∈ (r.step settings db).categories ↔ c ∈ db.categories := by
  have hne : ∀ {d : Category}, inScope r.caller d = true → c ≠ d := by
    rintro d hd rfl
    rw [hc] at hd
    cases hd
  cases r with
  | create user req =>
    simp only [CategoryRequest.step]
    split
    · rename_i row hcreate
      obtain ⟨-, -, -, hinsert⟩ := createCategory_ok hcreate
      obtain ⟨hrow, t, ht, rfl⟩ := insertCategory_ok hinsert
      have hscope : inScope user row = true := by
        refine inScope_of_inWriteScope ?_
        rw [hrow]
        cases user.tenantId <;> simp [inWriteScope]
      rw [Table.mem_insert ht]
      exact or_iff_left (hne hscope)
    · exact Iff.rfl
  | update user i req =>
    simp only [CategoryRequest.step]
    split
    · rename_i new hupdate
      obtain ⟨row, hload, hnew, rfl, -, -⟩ := updateCategory_ok hupdate
      obtain ⟨⟨hrow, -⟩, hscope⟩ := loadCategory_eq_ok.mp hload
      have hid : new.id = row.id := by rw [hnew]
      have hscope' : inScope user new = true := by
        rw [hnew]
        exact hscope
      rw [Table.mem_update (by rw [hid, Table.find_of_mem hrow])]
      constructor
      · rintro (rfl | ⟨hmem, -⟩)
        · exact absurd rfl (hne hscope')
        · exact hmem
      · refine fun hmem => .inr ⟨hmem, fun hkey => hne hscope ?_⟩
        exact Table.eq_of_key_eq hmem hrow (hkey.trans hid)
    · exact Iff.rfl
  | delete user i =>
    simp only [CategoryRequest.step]
    split
    · rename_i hdelete
      obtain ⟨row, hload, -, rfl⟩ := deleteCategory_ok hdelete
      obtain ⟨⟨hrow, -⟩, hscope⟩ := loadCategory_eq_ok.mp hload
      rw [Table.mem_erase]
      exact and_iff_left_of_imp fun hmem hkey =>
        hne hscope (Table.eq_of_key_eq hmem hrow hkey)
    · exact Iff.rfl
  | ensurePath user segments =>
    obtain ⟨hadds, -⟩ := addsCategories_ensureCategoryPath user segments db
    refine ⟨fun hmem => ?_, fun hmem => hadds.kept c hmem⟩
    by_contra hn
    exact hne (inScope_of_inWriteScope (hadds.added c hmem hn)) rfl

/-! ### Filing -/

/-- The requests that file objects, made by the user. -/
def Request.FilesAs (user : UserModel) : Request → Prop
  | .initiate _ _ _ user' _ | .complete _ _ user' _ _ | .update _ _ _ user' _ _
  | .importCollection _ user' _ => user' = user
  | _ => False

/-- Every filing that is new is into a category in scope. -/
def FilesInScope (user : UserModel) (db db' : Database) : Prop :=
  ∀ l ∈ db'.links, l ∉ db.links → ∃ c ∈ db'.categories, c.id = l.2 ∧ inScope user c = true

theorem filesInScope_of_eq {db' : Database} (h : db'.links = db.links) :
    FilesInScope user db db' := fun _ hl hn => absurd (h ▸ hl) hn

theorem filesInScope_setFiling {db db' : Database} (id : UUID) (cs : List Category)
    (hlinks : db'.links = (db.setFiling id (cs.map Category.id)).links)
    (hcategories : db'.categories = db.categories)
    (hcs : ∀ c ∈ cs, c ∈ db.categories ∧ inScope user c = true) : FilesInScope user db db' := by
  intro l hl hn
  rw [hlinks] at hl
  rcases Finset.mem_union.mp hl with hl | hl
  · exact absurd (Finset.mem_filter.mp hl).1 hn
  · obtain ⟨i, hi, rfl⟩ := List.mem_map.mp (List.mem_toFinset.mp hl)
    obtain ⟨c, hc, rfl⟩ := List.mem_map.mp hi
    obtain ⟨hmem, hscope⟩ := hcs c hc
    exact ⟨c, hcategories ▸ hmem, rfl, hscope⟩

theorem filesInScope_completeUpload (env : Env) (b : Backend) (faults : Faults) (now : Timestamp)
    (user : UserModel) (sessionId : UUID) (req : UploadCompleteRequest) :
    FilesInScope user b.db (completeUpload env b faults now user sessionId req).1.db := by
  have hends := ends_completeUpload env b faults now user sessionId req
  generalize completeUpload env b faults now user sessionId req = r at hends ⊢
  cases hends with
  | refused _ _ hdb =>
    rcases hdb with rfl | ⟨s, -, -, -, rfl⟩
    · exact filesInScope_of_eq rfl
    · exact filesInScope_of_eq rfl
  | rejected => exact filesInScope_of_eq rfl
  | @promoted s _ _ _ _ _ cs _ _ hcs _ _ _ _ _ =>
    refine filesInScope_setFiling s.id cs rfl rfl fun c hc => ?_
    unfold completionCategories at hcs
    split at hcs
    · obtain ⟨hmem, -, hscope⟩ := resolveCategoryIds_ok hcs hc
      exact ⟨hmem, hscope⟩
    · cases hcs
      obtain ⟨i, -, hfound⟩ := List.mem_filterMap.mp hc
      exact mem_scopedCategories.mp (List.mem_of_find?_eq_some hfound)

theorem filesInScope_updateObject (env : Env) (b : Backend) (faults : Faults) (commitFails : Bool)
    (now : Timestamp) (user : UserModel) (objectId : UUID) (body : MediaObjectUpdate) :
    FilesInScope user b.db
      (updateObject env b faults commitFails now user objectId body).1.db := by
  rcases updateObject_cases env b faults commitFails now user objectId body with
    ⟨e, st, he, -⟩ | ⟨u, o, st, bucket, categories, db', o', -, -, hcs, -, hpatch, he⟩
  · rw [he]
    exact filesInScope_of_eq rfl
  · rw [he]
    obtain ⟨-, rfl⟩ := patchedDatabase_eq_ok hpatch
    cases categories with
    | none => exact filesInScope_of_eq rfl
    | some cs =>
      refine filesInScope_setFiling o.id cs rfl rfl fun c hc => ?_
      unfold updateCategories at hcs
      split at hcs
      · cases hcs
      · split at hcs
        · cases hcs
        · rename_i hresolve
          cases hcs
          obtain ⟨hmem, -, hscope⟩ := resolveCategoryIds_ok hresolve hc
          exact ⟨hmem, hscope⟩

theorem filesInScope_answer (env : Env) (w : World) (r : Request) (h : r.FilesAs user) :
    FilesInScope user w.backend.db (answer env w r).db := by
  cases r with
  | initiate faults now mediaId user' body =>
    obtain rfl := h
    simp only [answer]
    cases hinitiate : (initiateUpload env w.backend.db faults now mediaId user' body).map
      Prod.fst with
    | error e => exact filesInScope_of_eq rfl
    | ok db' =>
      obtain ⟨form, hinitiate⟩ := Except.map_fst_ok hinitiate
      obtain ⟨req, staged, -, -, -, hrecord⟩ := initiateUpload_ok hinitiate
      obtain ⟨-, t, -, rfl⟩ := Database.insertSession_ok hrecord
      exact filesInScope_of_eq rfl
  | complete faults now user' sessionId body =>
    obtain rfl := h
    exact filesInScope_completeUpload env _ faults now user' sessionId body
  | update faults commitFails now user' objectId body =>
    obtain rfl := h
    exact filesInScope_updateObject env _ faults commitFails now user' objectId body
  | importCollection ctx user' source =>
    obtain rfl := h
    intro l hl hn
    obtain ⟨c, ⟨hmem, hscope⟩, hid⟩ :=
      (inOwnScope_runImport env w.backend ctx user' source).filings l hl hn
    exact ⟨c, hmem, hid, inScope_of_inWriteScope hscope⟩
  | _ => exact h.elim

/-! ### Isolation -/

/-- What a caller is shown of categories depends on those in scope and their filings, and
on whether an id names any; a caller's requests change those in scope only, and file
into those in scope only. -/
theorem categories_isolated (env : Env) (user : UserModel) :
    (∀ db₁ db₂, SameScope user db₁ db₂ →
      (∀ skip limit, listCategories db₁ user skip limit = listCategories db₂ user skip limit) ∧
      getCategoryTree env db₁ user = getCategoryTree env db₂ user ∧
      ∀ i, (db₁.categories.find i).isSome = (db₂.categories.find i).isSome →
        getCategory db₁ user i = getCategory db₂ user i) ∧
    (∀ db (r : CategoryRequest), r.caller = user → ∀ c, inScope user c = false →
      (c ∈ (r.step env.settings db).categories ↔ c ∈ db.categories)) ∧
    ∀ w r, r.FilesAs user → FilesInScope user w.backend.db (answer env w r).db := by
  refine ⟨fun db₁ db₂ h => ⟨fun skip limit => ?_, h.getCategoryTree env, fun i => h.getCategory⟩,
    ?_, fun w r => filesInScope_answer env w r⟩
  · rw [listCategories, listCategories, h.categories]
  · rintro db r rfl c hc
    exact mem_categories_step env.settings db r hc

/-- Another owner's category. -/
def foreignCategory : Category := ⟨1, "Private", "private", none, ⟨9⟩, none⟩

def foreignCategories : Database :=
  { Database.empty with categories := ⟨[foreignCategory], by decide⟩ }

/-- Two databases that agree on what is in scope, and answer for one id with 404 and 403. -/
theorem not_getCategory_sameScope :
    let user : UserModel := ⟨⟨1⟩, false, none⟩
    SameScope user .empty foreignCategories ∧
      getCategory .empty user 1 = refuse 404 "Category not found." ∧
      getCategory foreignCategories user 1 = refuse 403 "Not enough permissions." := by
  refine ⟨⟨by decide, fun c hc => ?_⟩, rfl, rfl⟩
  cases hc

end MediaService
