import MediaService.Foundation.Like
import MediaService.Invariants.CategoryForest
import MediaService.ReadSurface.Export
import MediaService.ReadSurface.Traversal

/-! What the filters of a listing select. Each filter has a meaning of its own; the query
states most of them as comparisons and two as patterns. The text searched for in a
filename is escaped before it becomes a pattern, the prefix of a MIME type is not, and
this is the one place where the rows selected and the rows meant can differ. -/

namespace MediaService

open Foundation

variable {paging : Paging} {env : Env} {lib : CursorLibrary} {db : Database}
  {user : Option UserModel} {params : ObjectListParams} {selected : List MediaObject}
  {o : MediaObject}

/-! ### Patterns -/

theorem sqlLike_eq (pattern text : List Char) :
    sqlLike pattern text = Piece.accepts (Piece.parse none pattern) text := by
  induction pattern generalizing text with
  | nil => rfl
  | cons c pattern ih =>
    rw [Piece.parse_cons, Piece.ofChar]
    split_ifs with hmany hone
    · subst hmany
      rw [sqlLike, Piece.accepts, funext ih]
    · subst hone
      cases text with
      | nil => rfl
      | cons d text => exact ih text
    · cases text with
      | nil => simp [sqlLike, Piece.accepts]
      | cons d text => simp [sqlLike, Piece.accepts, ih]

theorem sqlLike_prefix_iff (p : String) :
    (∀ text, sqlLike (p.toList ++ ['%']) text = true ↔ p.toList <+: text) ↔
      '%' ∉ p.toList ∧ '_' ∉ p.toList := by
  rw [← Piece.accepts_parse_prefix_iff]
  refine forall_congr' fun text => ?_
  rw [sqlLike_eq, Piece.parse_append]
  rfl

theorem sqlLike_of_prefix {p text : List Char} (h : p <+: text) :
    sqlLike (p ++ ['%']) text = true := by
  rw [sqlLike_eq, Piece.parse_append]
  exact Piece.accepts_parse_prefix h

/-- `contains(q, autoescape=True)`: a pattern around the text, whose own wildcards are
behind the escape `/`. -/
def sqlContains (q text : String) : Bool :=
  Piece.accepts (Piece.parse (some '/') ('%' :: (Piece.escaped '/' q.toList ++ ['%']))) text.toList

theorem sqlContains_iff {q text : String} :
    sqlContains q text = true ↔ q.toList <:+: text.toList := by
  have hread : Piece.parse (some '/') ('%' :: (Piece.escaped '/' q.toList ++ ['%'])) =
      .many :: (q.toList.map Piece.char ++ [.many]) :=
    congrArg (Piece.many :: ·) (Piece.parse_escaped_append '/' q.toList ['%'])
  rw [sqlContains, hread, Piece.accepts_contains]

/-- The clauses of `_apply_filters`, in its order and with both patterns spelled out. -/
def applyFilters (params : ObjectListParams) (o : MediaObject) : Bool :=
  params.category.all (o.category = ·) ∧ params.visibility.all (o.visibility = ·) ∧
    params.status.all (o.status = ·) ∧
    params.mimePrefix.all (fun p => sqlLike (p.toList ++ ['%']) o.mimeType.toList) ∧
    params.createdFrom.all (· ≤ o.createdAt) ∧ params.createdTo.all (o.createdAt ≤ ·) ∧
    params.q.all fun q => o.originalFilename.any (sqlContains q)

theorem passesFilters_eq (params : ObjectListParams) (o : MediaObject) :
    passesFilters params o = applyFilters params o := by
  have hcontains : ∀ q : String,
      (fun name : String => decide (q.toList <:+: name.toList)) = sqlContains q := fun q =>
    funext fun name => Bool.eq_iff_iff.mpr (decide_eq_true_iff.trans sqlContains_iff.symm)
  unfold passesFilters applyFilters
  simp only [hcontains]

/-! ### What the filters mean -/

/-- A category that a branch filter covers: the one named, or below it through categories
of the caller's scope. An anonymous caller has none. -/
def InScopedBranch (db : Database) (user : Option UserModel) (root : ℤ) (descend : Bool)
    (i : ℤ) : Prop :=
  ∃ u, user = some u ∧ (i = root ∨ (descend = true ∧ Relation.ReflTransGen
    (fun above below => ∃ c ∈ db.categories, inScope u c = true ∧ c.id = below ∧
      c.parentId = some above) root i))

/-- The filters other than the MIME prefix hold of a row. -/
structure SatisfiesOthers (db : Database) (user : Option UserModel) (params : ObjectListParams)
    (o : MediaObject) : Prop where
  category : ∀ c, params.category = some c → o.category = c
  visibility : ∀ v, params.visibility = some v → o.visibility = v
  status : ∀ s, params.status = some s → o.status = s
  createdFrom : ∀ t, params.createdFrom = some t → t ≤ o.createdAt
  createdTo : ∀ t, params.createdTo = some t → o.createdAt ≤ t
  filename : ∀ q, params.q = some q →
    ∃ name, o.originalFilename = some name ∧ q.toList <:+: name.toList
  unfiled : params.uncategorized = true → ∀ i, (o.id, i) ∉ db.links
  filed : ∀ root, params.categoryId = some root →
    ∃ i, InScopedBranch db user root params.includeDescendants i ∧ (o.id, i) ∈ db.links

/-- Every filter holds of a row, and its MIME type starts with the prefix as spelled. -/
def Satisfies (db : Database) (user : Option UserModel) (params : ObjectListParams)
    (o : MediaObject) : Prop :=
  SatisfiesOthers db user params o ∧
    ∀ p, params.mimePrefix = some p → p.toList <+: o.mimeType.toList

/-- The scope of a listing: what the caller may view and is live, unless a superuser asks
for the deleted too or for one owner only. -/
def InListing (user : Option UserModel) (params : ObjectListParams) (o : MediaObject) : Prop :=
  MayView user o ∧
    if user.any UserModel.isSuperuser then
      (∀ owner, params.ownerUserId = some owner → o.ownerUserId = owner) ∧
        (params.includeDeleted = true ∨ o.deletedAt = none)
    else o.deletedAt = none

/-! ### What the query selects -/

theorem mem_collectBranchIds_scoped {u : UserModel} {root i : ℤ} :
    i ∈ collectBranchIds (scopedCategories db u) root ↔ Relation.ReflTransGen
      (fun above below => ∃ c ∈ db.categories, inScope u c = true ∧ c.id = below ∧
        c.parentId = some above) root i := by
  have hstep : (fun above below => below ∈ childrenOf (scopedCategories db u) above) =
      fun above below => ∃ c ∈ db.categories, inScope u c = true ∧ c.id = below ∧
        c.parentId = some above := by
    funext above below
    rw [mem_childrenOf]
    simp only [scopedCategories, List.mem_filter, and_assoc]
    rfl
  rw [collectBranchIds, mem_branchWalk, hstep]

/-- The ids a branch filter compares links with are those of the branch. -/
theorem mem_branchCategoryIds {root i : ℤ} {descend : Bool} {branch : List ℤ}
    (h : branchCategoryIds db user root descend = .ok branch) :
    i ∈ branch ↔ InScopedBranch db user root descend i := by
  unfold branchCategoryIds at h
  cases user with
  | none =>
    cases h
    simp [InScopedBranch]
  | some u =>
    dsimp only at h
    split at h
    · cases h
    · rename_i row hload
      obtain ⟨⟨-, rfl⟩, -⟩ := loadCategory_eq_ok.mp hload
      simp only [InScopedBranch, Option.some.injEq, exists_eq_left']
      split at h
      · rename_i hdescend
        cases h
        rw [mem_collectBranchIds_scoped]
        refine ⟨fun h => .inr ⟨hdescend, h⟩, ?_⟩
        rintro (rfl | ⟨-, h⟩)
        · exact .refl
        · exact h
      · rename_i hdescend
        cases h
        simp [hdescend]

/-- The filing filter holds of a row that is filed, or not filed, as asked. -/
theorem categoryFilter_iff {filed : MediaObject → Bool}
    (h : categoryFilter db user params = .ok filed) :
    filed o = true ↔ (params.uncategorized = true → ∀ i, (o.id, i) ∉ db.links) ∧
      ∀ root, params.categoryId = some root →
        ∃ i, InScopedBranch db user root params.includeDescendants i ∧ (o.id, i) ∈ db.links := by
  unfold categoryFilter at h
  split at h
  · rename_i hunfiled
    cases h
    have hnone := params.unfiled_xor_branch hunfiled
    simp only [hunfiled, hnone, decide_eq_true_eq, Finset.filter_eq_empty_iff, true_implies,
      reduceCtorEq, false_implies, implies_true, and_true]
    exact ⟨fun h i hi => h hi rfl, fun h l hl hid => h l.2 (by rw [← hid]; exact hl)⟩
  · rename_i hfiled
    rw [Bool.not_eq_true] at hfiled
    cases hroot : params.categoryId with
    | none =>
      simp only [hroot, Except.ok.injEq] at h
      subst h
      simp [hfiled]
    | some root =>
      simp only [hroot] at h
      cases hbranch : branchCategoryIds db user root params.includeDescendants with
      | error e => simp [hbranch, bind, Except.bind] at h
      | ok branch =>
        simp only [hbranch, bind, Except.bind, pure, Except.pure, Except.ok.injEq] at h
        subst h
        simp only [hfiled, Bool.false_eq_true, false_implies, true_and, List.any_eq_true,
          decide_eq_true_eq, Option.some.injEq, forall_eq', mem_branchCategoryIds hbranch]

/-- A row is selected exactly when it is in scope, every filter but one holds of it, and
its MIME type matches the prefix read as a pattern. -/
theorem mem_selected_iff (hselected : queryObjects db user params = .ok selected) :
    o ∈ selected ↔ o ∈ db.objects ∧ InListing user params o ∧ SatisfiesOthers db user params o ∧
      ∀ p, params.mimePrefix = some p →
        sqlLike (p.toList ++ ['%']) o.mimeType.toList = true := by
  obtain ⟨filed, hfiled, rfl⟩ := queryObjects_ok hselected
  have hothers : SatisfiesOthers db user params o ↔
      (∀ c, params.category = some c → o.category = c) ∧
      (∀ v, params.visibility = some v → o.visibility = v) ∧
      (∀ s, params.status = some s → o.status = s) ∧
      (∀ t, params.createdFrom = some t → t ≤ o.createdAt) ∧
      (∀ t, params.createdTo = some t → o.createdAt ≤ t) ∧
      (∀ q, params.q = some q → ∃ name, o.originalFilename = some name ∧
        q.toList <:+: name.toList) ∧ filed o = true := by
    rw [categoryFilter_iff hfiled]
    exact ⟨fun ⟨h₁, h₂, h₃, h₄, h₅, h₆, h₇, h₈⟩ => ⟨h₁, h₂, h₃, h₄, h₅, h₆, h₇, h₈⟩,
      fun ⟨h₁, h₂, h₃, h₄, h₅, h₆, h₇, h₈⟩ => ⟨h₁, h₂, h₃, h₄, h₅, h₆, h₇, h₈⟩⟩
  rw [List.mem_filter, decide_eq_true_eq, inListScope_iff, passesFilters_eq, hothers]
  simp only [applyFilters, decide_eq_true_eq, Option.all_eq_true, Option.any_eq_true,
    sqlContains_iff, InListing, Table.mem_def]
  tauto

/-! ### What the caller is shown -/

/-- A listing selects the rows that a predicate holds of, its pages from the first one on
show them, and an export describes them. -/
structure SelectsExactly (paging : Paging) (env : Env) (db : Database) (user : Option UserModel)
    (params : ObjectListParams) (wanted : MediaObject → Prop) : Prop where
  selected : ∀ selected, queryObjects db user params = .ok selected →
    ∀ o, o ∈ selected ↔ o ∈ db.objects ∧ wanted o
  listed : ∀ pages, Traverses paging db user params pages →
    ∀ o, o ∈ shownRows pages ↔ o ∈ db.objects ∧ wanted o
  exported : ∀ u manifest, user = some u → buildManifest env db u params = .ok manifest →
    ∀ id, id ∈ manifest.objects.map ManifestObjectEntry.id ↔
      ∃ o ∈ db.objects, o.id = id ∧ wanted o

theorem mem_shownRows (hdecimal : DecimalAscii env) (hstorable : ∀ o ∈ db.objects, o.Storable)
    (hcursor : params.cursor = none) (hselected : queryObjects db user params = .ok selected)
    {pages : List ObjectListResponse}
    (hpages : Traverses (paging.withCursors env lib) db user params pages) :
    o ∈ shownRows pages ↔ o ∈ selected := by
  rw [hpages.shows hdecimal hstorable hcursor hselected]
  exact sortedRows_perm.mem_iff

theorem mem_exported {u : UserModel} {manifest : ExportManifest} {id : UUID}
    (hmanifest : buildManifest env db u params = .ok manifest)
    (hselected : queryObjects db (some u) params = .ok selected) :
    id ∈ manifest.objects.map ManifestObjectEntry.id ↔ ∃ o ∈ selected, o.id = id := by
  rw [buildManifest_ok hmanifest hselected, List.map_map, List.mem_map]
  exact exists_congr fun o => and_congr_left' (orderById_perm _).mem_iff

/-- The rows shown and exported are those the filters mean, unless one that only the
wildcards of the MIME prefix match is among them. A prefix without wildcards never lets
one in. -/
theorem selectsExactly_iff (paging : Paging) (env : Env) (lib : CursorLibrary)
    (hdecimal : DecimalAscii env) (hstorable : ∀ o ∈ db.objects, o.Storable)
    (hcursor : params.cursor = none) (hselected : queryObjects db user params = .ok selected) :
    (SelectsExactly (paging.withCursors env lib) env db user params
        (fun o => InListing user params o ∧ Satisfies db user params o) ↔
      ∀ p, params.mimePrefix = some p → ∀ o ∈ db.objects, InListing user params o →
        SatisfiesOthers db user params o →
          sqlLike (p.toList ++ ['%']) o.mimeType.toList = true →
            p.toList <+: o.mimeType.toList) ∧
    ∀ p : String, (∀ text, sqlLike (p.toList ++ ['%']) text = true ↔ p.toList <+: text) ↔
      '%' ∉ p.toList ∧ '_' ∉ p.toList := by
  refine ⟨⟨fun h p hp o ho hscope hothers hlike => ?_, fun h => ?_⟩, sqlLike_prefix_iff⟩
  · have hmem : o ∈ selected := by
      refine (mem_selected_iff hselected).mpr ⟨ho, hscope, hothers, fun p' hp' => ?_⟩
      cases hp.symm.trans hp'
      exact hlike
    exact ((h.selected selected hselected o).mp hmem).2.2.2 p hp
  · have hwanted : ∀ o, o ∈ selected ↔
        o ∈ db.objects ∧ InListing user params o ∧ Satisfies db user params o := by
      intro o
      rw [mem_selected_iff hselected]
      constructor
      · rintro ⟨ho, hscope, hothers, hlike⟩
        exact ⟨ho, hscope, hothers, fun p hp => h p hp o ho hscope hothers (hlike p hp)⟩
      · rintro ⟨ho, hscope, hothers, hmime⟩
        exact ⟨ho, hscope, hothers, fun p hp => sqlLike_of_prefix (hmime p hp)⟩
    constructor
    · intro selected' hselected' o
      cases hselected.symm.trans hselected'
      exact hwanted o
    · intro pages hpages o
      rw [mem_shownRows hdecimal hstorable hcursor hselected hpages, hwanted]
    · rintro u manifest rfl hmanifest id
      rw [mem_exported hmanifest hselected]
      constructor
      · rintro ⟨o, ho, hid⟩
        exact ⟨o, ((hwanted o).mp ho).1, hid, ((hwanted o).mp ho).2⟩
      · rintro ⟨o, ho, hid, hw⟩
        exact ⟨o, (hwanted o).mpr ⟨ho, hw⟩, hid⟩

def mimePrefixed (p : String) : ObjectListParams :=
  { ObjectListParams.default with mimePrefix := some p }

theorem selectsExactly_image :
    SelectsExactly (Paging.unpaged.withCursors Env.default .numeric) Env.default namedDatabase
      (some (.ordinary 1)) (mimePrefixed "image/") fun o =>
        InListing (some (.ordinary 1)) (mimePrefixed "image/") o ∧
          Satisfies namedDatabase (some (.ordinary 1)) (mimePrefixed "image/") o := by
  have hselected : queryObjects namedDatabase (some (.ordinary 1)) (mimePrefixed "image/") =
      .ok namedDatabase.objects.rows := by decide +kernel
  obtain ⟨hiff, hwildcards⟩ := selectsExactly_iff Paging.unpaged Env.default .numeric
    (decimalAscii_ascii Settings.default) storable_namedDatabase rfl hselected
  refine hiff.mpr ?_
  rintro p hp o - - - hlike
  cases hp
  exact ((hwildcards "image/").mpr (by decide) o.mimeType.toList).mp hlike

/-- A prefix with an underscore lets in a row whose MIME type does not start with it. -/
theorem not_selectsExactly_underscore :
    ¬ SelectsExactly (Paging.unpaged.withCursors Env.default .numeric) Env.default namedDatabase
      (some (.ordinary 1)) (mimePrefixed "i_age") fun o =>
        InListing (some (.ordinary 1)) (mimePrefixed "i_age") o ∧
          Satisfies namedDatabase (some (.ordinary 1)) (mimePrefixed "i_age") o := by
  intro h
  have hselected : queryObjects namedDatabase (some (.ordinary 1)) (mimePrefixed "i_age") =
      .ok namedDatabase.objects.rows := by decide +kernel
  have hmem : namedObject 2 (some "b") ∈ namedDatabase.objects.rows := by decide
  have hstem := ((h.selected _ hselected _).mp hmem).2.2.2 "i_age" rfl
  exact absurd hstem (by decide)

end MediaService
