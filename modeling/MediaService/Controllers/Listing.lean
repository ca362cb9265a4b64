import MediaService.Controllers.CategoryTree
import MediaService.Controllers.Objects
import MediaService.Foundation.Fallible

/-! The read surface of media objects: one object, and the listing in pages. A
page is cut from the scoped and filtered rows behind a cursor, in the order of a
sort field and then of the ids. -/

namespace MediaService

open Foundation

/-! ### Sorting -/

/-- What a sort field compares and a cursor carries; a missing filename counts
as empty. -/
def SortField.Value : SortField → Type
  | .originalFilename | .category | .status => String
  | .sizeBytes => ℤ
  | .createdAt => Timestamp

instance : (f : SortField) → DecidableEq f.Value
  | .originalFilename | .category | .status => inferInstanceAs (DecidableEq String)
  | .sizeBytes | .createdAt => inferInstanceAs (DecidableEq ℤ)

def cursorSortValue : (f : SortField) → MediaObject → f.Value
  | .originalFilename, o => o.originalFilename.getD ""
  | .category, o => o.category.str
  | .status, o => o.status.str
  | .sizeBytes, o => Int.ofNat o.sizeBytes
  | .createdAt, o => o.createdAt

/-- What the pages rest on outside the service: the order in which the database
compares text, and the spelling of a cursor. -/
structure Paging where
  collate : String → String → Bool
  encode : (f : SortField) → f.Value × UUID → String
  decode : (f : SortField) → String → Except Failure (f.Value × UUID)
  collate_total : ∀ s t, collate s t ∨ collate t s
  collate_trans : ∀ s t u, collate s t → collate t u → collate s u
  collate_antisymm : ∀ s t, collate s t → collate t s → s = t

/-- The order of a sort column. -/
def Paging.valueLe (paging : Paging) : (f : SortField) → f.Value → f.Value → Bool
  | .originalFilename => paging.collate
  | .category => paging.collate
  | .status => paging.collate
  | .sizeBytes => fun (m n : ℤ) => m ≤ n
  | .createdAt => fun (s t : ℤ) => s ≤ t

/-- Positions in sort order: by value, then by id. -/
def Paging.positionLe (paging : Paging) (f : SortField) (p q : f.Value × UUID) : Bool :=
  !paging.valueLe f q.1 p.1 ∨ (p.1 = q.1 ∧ p.2.val ≤ q.2.val)

def Paging.positionLt (paging : Paging) (f : SortField) (p q : f.Value × UUID) : Bool :=
  !paging.valueLe f q.1 p.1 ∨ (p.1 = q.1 ∧ p.2.val < q.2.val)

/-- The position of a row, which its cursor spells. -/
def sortPosition (f : SortField) (o : MediaObject) : f.Value × UUID := (cursorSortValue f o, o.id)

/-- The order in which a listing shows its rows. -/
def Paging.shows (paging : Paging) (params : ObjectListParams) (o o' : MediaObject) : Bool :=
  match params.order with
  | .asc => paging.positionLe params.sortBy (sortPosition _ o) (sortPosition _ o')
  | .desc => paging.positionLe params.sortBy (sortPosition _ o') (sortPosition _ o)

/-- `_keyset_predicate`: the rows strictly behind a cursor's position. -/
def Paging.behind (paging : Paging) (params : ObjectListParams)
    (last : params.sortBy.Value × UUID) (o : MediaObject) : Bool :=
  match params.order with
  | .asc => paging.positionLt params.sortBy last (sortPosition _ o)
  | .desc => paging.positionLt params.sortBy (sortPosition _ o) last

section Order

variable (paging : Paging)

theorem Paging.valueLe_total (f : SortField) (v w : f.Value) :
    paging.valueLe f v w = true ∨ paging.valueLe f w v = true := by
  cases f with
  | sizeBytes => simpa [valueLe] using Int.le_total v w
  | createdAt => simpa [valueLe] using Int.le_total v w
  | _ => exact paging.collate_total v w

theorem Paging.valueLe_trans {f : SortField} {u v w : f.Value} (h : paging.valueLe f u v = true)
    (h' : paging.valueLe f v w = true) : paging.valueLe f u w = true := by
  cases f with
  | sizeBytes =>
    simp only [valueLe, decide_eq_true_eq] at h h' ⊢
    exact Int.le_trans h h'
  | createdAt =>
    simp only [valueLe, decide_eq_true_eq] at h h' ⊢
    exact Int.le_trans h h'
  | _ => exact paging.collate_trans u v w h h'

theorem Paging.valueLe_antisymm {f : SortField} {v w : f.Value} (h : paging.valueLe f v w = true)
    (h' : paging.valueLe f w v = true) : v = w := by
  cases f with
  | sizeBytes =>
    simp only [valueLe, decide_eq_true_eq] at h h'
    exact Int.le_antisymm h h'
  | createdAt =>
    simp only [valueLe, decide_eq_true_eq] at h h'
    exact Int.le_antisymm h h'
  | _ => exact paging.collate_antisymm v w h h'

theorem Paging.positionLe_iff {f : SortField} {p q : f.Value × UUID} :
    paging.positionLe f p q = true ↔ paging.valueLe f q.1 p.1 = false ∨
      (p.1 = q.1 ∧ p.2.val ≤ q.2.val) := by
  simp [positionLe]

theorem Paging.positionLe_total (f : SortField) (p q : f.Value × UUID) :
    paging.positionLe f p q = true ∨ paging.positionLe f q p = true := by
  rw [positionLe_iff, positionLe_iff]
  by_cases hqp : paging.valueLe f q.1 p.1 = true
  · by_cases hpq : paging.valueLe f p.1 q.1 = true
    · have he := paging.valueLe_antisymm hpq hqp
      have hids : p.2.val ≤ q.2.val ∨ q.2.val ≤ p.2.val := by bv_omega
      exact hids.imp (fun h => .inr ⟨he, h⟩) (fun h => .inr ⟨he.symm, h⟩)
    · exact .inr (.inl (Bool.not_eq_true _ ▸ hpq))
  · exact .inl (.inl (Bool.not_eq_true _ ▸ hqp))

theorem Paging.positionLe_trans {f : SortField} {p q r : f.Value × UUID}
    (h : paging.positionLe f p q = true) (h' : paging.positionLe f q r = true) :
    paging.positionLe f p r = true := by
  rw [positionLe_iff] at h h' ⊢
  rcases h with h | ⟨he, hid⟩
  · rcases h' with h' | ⟨he', -⟩
    · refine .inl (Bool.eq_false_iff.mpr fun hrp => ?_)
      have hpq := (paging.valueLe_total f p.1 q.1).resolve_right (by simp [h])
      exact Bool.eq_false_iff.mp h' (paging.valueLe_trans hrp hpq)
    · exact .inl (he' ▸ h)
  · rcases h' with h' | ⟨he', hid'⟩
    · exact .inl (he ▸ h')
    · exact .inr ⟨he.trans he', by bv_omega⟩

theorem Paging.positionLe_antisymm {f : SortField} {p q : f.Value × UUID}
    (h : paging.positionLe f p q = true) (h' : paging.positionLe f q p = true) : p = q := by
  rw [positionLe_iff] at h h'
  have hids : p.1 = q.1 → p.2.val ≤ q.2.val → q.2.val ≤ p.2.val → p = q := by
    rintro he hle hge
    have hval : p.2.val = q.2.val := by bv_omega
    exact Prod.ext he (by cases hp : p.2; cases hq : q.2; simp_all)
  rcases h with h | ⟨he, hid⟩
  · rcases h' with h' | ⟨he', -⟩
    · rcases paging.valueLe_total f p.1 q.1 with ht | ht
      · simp [h'] at ht
      · simp [h] at ht
    · have hself := (paging.valueLe_total f q.1 q.1).elim id id
      simp [← he', hself] at h
  · rcases h' with h' | ⟨-, hid'⟩
    · have hself := (paging.valueLe_total f q.1 q.1).elim id id
      simp [he, hself] at h'
    · exact hids he hid hid'

instance (params : ObjectListParams) :
    Std.Total fun o o' => paging.shows params o o' = true where
  total o o' := by
    unfold Paging.shows
    cases params.order
    · exact paging.positionLe_total _ _ _
    · exact paging.positionLe_total _ _ _

instance (params : ObjectListParams) :
    IsTrans MediaObject fun o o' => paging.shows params o o' = true where
  trans o o' o'' h h' := by
    unfold Paging.shows at h h' ⊢
    cases ho : params.order <;> rw [ho] at h h'
    · exact paging.positionLe_trans h h'
    · exact paging.positionLe_trans h' h

/-- Two rows shown before each other have one id. -/
theorem Paging.id_eq_of_shows {params : ObjectListParams} {o o' : MediaObject}
    (h : paging.shows params o o' = true) (h' : paging.shows params o' o = true) :
    o.id = o'.id := by
  unfold Paging.shows at h h'
  cases ho : params.order <;> rw [ho] at h h'
  · exact congrArg Prod.snd (paging.positionLe_antisymm h h')
  · exact (congrArg Prod.snd (paging.positionLe_antisymm h h')).symm

/-- Behind a row are the rows that are not shown up to it. -/
theorem Paging.behind_eq (params : ObjectListParams) (o o' : MediaObject) :
    paging.behind params (sortPosition _ o) o' = !paging.shows params o' o := by
  have hlt : ∀ (f : SortField) (p q : f.Value × UUID),
      paging.positionLt f p q = !paging.positionLe f q p := by
    intro f p q
    rw [Bool.eq_iff_iff, Bool.not_eq_true', Bool.eq_false_iff, ne_eq, positionLe_iff]
    unfold positionLt
    rw [decide_eq_true_eq, Bool.not_eq_true', not_or]
    constructor
    · rintro (h | ⟨he, hid⟩)
      · have hle := (paging.valueLe_total f p.1 q.1).resolve_right (by simp [h])
        have hself := (paging.valueLe_total f q.1 q.1).elim id id
        refine ⟨by simp [hle], fun he => ?_⟩
        rw [← he.1, hself] at h
        cases h
      · have hself := (paging.valueLe_total f q.1 q.1).elim id id
        exact ⟨by simp [he, hself], fun h => by bv_omega⟩
    · rintro ⟨hle, hid⟩
      by_cases hqp : paging.valueLe f q.1 p.1 = true
      · have he := paging.valueLe_antisymm (by simpa using hle) hqp
        have hnot : ¬ q.2.val ≤ p.2.val := fun h => hid ⟨he.symm, h⟩
        exact .inr ⟨he, by bv_omega⟩
      · exact .inl (Bool.not_eq_true _ ▸ hqp)
  unfold behind shows
  cases params.order
  · exact hlt _ _ _
  · exact hlt _ _ _

/-- Rows in the order they are shown are what sorting them gives. -/
theorem Paging.insertionSort_eq {params : ObjectListParams} {l l' : List MediaObject}
    (hp : l.Perm l') (hn : (l.map MediaObject.id).Nodup)
    (hsorted : l'.Pairwise fun o o' => paging.shows params o o' = true) :
    l.insertionSort (fun o o' => paging.shows params o o') = l' := by
  refine List.Perm.eq_of_pairwise ?_ (List.pairwise_insertionSort _ _) hsorted
    ((List.perm_insertionSort _ _).trans hp)
  intro o o' ho ho' hle hge
  rw [List.mem_insertionSort] at ho
  exact List.inj_on_of_nodup_map hn ho (hp.mem_iff.mpr ho') (paging.id_eq_of_shows hle hge)

end Order

/-! ### Answers -/

/-- `MediaObjectPublic`: the row, and its filing as the caller sees it. -/
structure MediaObjectPublic where
  object : MediaObject
  categories : List MediaObjectCategoryRef
  deriving DecidableEq

/-- `MediaObjectPublic.model_validate`, which checks the bounds of the columns again. -/
def MediaObjectPublic.modelValidate (o : MediaObject) (categories : List MediaObjectCategoryRef) :
    Except Failure MediaObjectPublic :=
  if o.Presentable then .ok ⟨o, categories⟩ else .error (.validationError "MediaObjectPublic")

theorem MediaObjectPublic.modelValidate_eq_ok {o : MediaObject}
    {categories : List MediaObjectCategoryRef} {answer : MediaObjectPublic} :
    modelValidate o categories = .ok answer ↔ o.Presentable ∧ answer = ⟨o, categories⟩ := by
  unfold modelValidate
  split
  · rename_i h
    simp [h, eq_comm]
  · rename_i h
    simp [h]

theorem mapM_modelValidate_eq_ok {rows : List MediaObject}
    {refs : UUID → List MediaObjectCategoryRef} {answers : List MediaObjectPublic} :
    (rows.mapM fun o => MediaObjectPublic.modelValidate o (refs o.id)) = .ok answers ↔
      (∀ o ∈ rows, o.Presentable) ∧ answers = rows.map fun o => ⟨o, refs o.id⟩ := by
  induction rows generalizing answers with
  | nil => simp [pure, Except.pure, eq_comm]
  | cons o rows ih =>
    simp only [mapM_cons_eq_ok, MediaObjectPublic.modelValidate_eq_ok, ih, List.forall_mem_cons,
      List.map_cons]
    constructor
    · rintro ⟨_, _, ⟨hfits, rfl⟩, ⟨hrest, rfl⟩, rfl⟩
      exact ⟨⟨hfits, hrest⟩, rfl⟩
    · rintro ⟨⟨hfits, hrest⟩, rfl⟩
      exact ⟨_, _, ⟨hfits, rfl⟩, ⟨hrest, rfl⟩, rfl⟩

structure ObjectListResponse where
  items : List MediaObjectPublic
  nextCursor : Option String
  count : ℕ
  deriving DecidableEq

/-- The position a request continues behind. -/
def ObjectListParams.position (params : ObjectListParams) (paging : Paging) :
    Except Failure (Option (params.sortBy.Value × UUID)) :=
  match params.cursor with
  | none => .ok none
  | some cursor =>
    match paging.decode params.sortBy cursor with
    | .error e => .error e
    | .ok last => .ok (some last)

/-- The page cut from the selected rows, and the cursor to the next one. -/
def cutPage (paging : Paging) (params : ObjectListParams) (selected : List MediaObject)
    (last : Option (params.sortBy.Value × UUID)) : List MediaObject × Option String :=
  let rows := (selected.filter fun o => last.all fun p => paging.behind params p o).insertionSort
    fun o o' => paging.shows params o o'
  let items := rows.take params.limit
  (items, if params.limit < rows.length then
    items.getLast?.map fun o => paging.encode params.sortBy (sortPosition _ o) else none)

def listObjects (paging : Paging) (db : Database) (user : Option UserModel)
    (params : ObjectListParams) : Except Failure ObjectListResponse :=
  match queryObjects db user params with
  | .error e => .error e
  | .ok selected =>
    match params.position paging with
    | .error e => .error e
    | .ok last =>
      let (items, next) := cutPage paging params selected last
      let refs := categoryRefsByObject db user (items.map MediaObject.id)
      match items.mapM fun o => MediaObjectPublic.modelValidate o (refs o.id) with
      | .error e => .error e
      | .ok answers => .ok ⟨answers, next, items.length⟩

/-- The answer for the rows of a page. -/
def pageAnswer (db : Database) (user : Option UserModel) (cut : List MediaObject × Option String) :
    ObjectListResponse where
  items := cut.1.map fun o =>
    ⟨o, categoryRefsByObject db user (cut.1.map MediaObject.id) o.id⟩
  nextCursor := cut.2
  count := cut.1.length

/-- A page is answered just if each of its rows fits. -/
theorem listObjects_eq_ok {paging : Paging} {db : Database} {user : Option UserModel}
    {params : ObjectListParams} {page : ObjectListResponse} :
    listObjects paging db user params = .ok page ↔
      ∃ selected last, queryObjects db user params = .ok selected ∧
        params.position paging = .ok last ∧
        (∀ o ∈ (cutPage paging params selected last).1, o.Presentable) ∧
        page = pageAnswer db user (cutPage paging params selected last) := by
  unfold listObjects
  cases hselected : queryObjects db user params with
  | error e => simp
  | ok selected =>
    cases hpos : params.position paging with
    | error e => simp
    | ok last =>
      have hmap := @mapM_modelValidate_eq_ok (cutPage paging params selected last).1
        (categoryRefsByObject db user ((cutPage paging params selected last).1.map MediaObject.id))
      dsimp only
      constructor
      · intro h
        split at h
        · cases h
        · rename_i answers hanswers
          obtain ⟨hfits, rfl⟩ := hmap.mp hanswers
          exact ⟨selected, last, rfl, rfl, hfits, (Except.ok.inj h).symm⟩
      · rintro ⟨_, _, ⟨⟩, ⟨⟩, hfits, rfl⟩
        rw [hmap.mpr ⟨hfits, rfl⟩]
        rfl

def getObject (db : Database) (user : Option UserModel) (objectId : UUID) :
    Except Failure MediaObjectPublic :=
  match loadObjectForRead db user objectId with
  | .error e => .error e
  | .ok o => MediaObjectPublic.modelValidate o (categoryRefsByObject db user [o.id] o.id)

/-- `update_object` with its answer, which shows the filing as it is after the commit. -/
def updateObjectPublic (env : Env) (b : Backend) (faults : Faults) (commitFails : Bool)
    (now : Timestamp) (user : UserModel) (objectId : UUID) (body : MediaObjectUpdate) :
    Backend × Except Failure MediaObjectPublic :=
  match updateObject env b faults commitFails now user objectId body with
  | (b', .error e) => (b', .error e)
  | (b', .ok o) => (b', MediaObjectPublic.modelValidate o
      (assignedCategoryRefs b'.db user (userCategories b'.db o.id)))

end MediaService
