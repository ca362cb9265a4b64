import MediaService.Scenario

/-! The category forest. Every category request keeps the parent relation a
forest within the depth cap, in which parent and child share a scope and
siblings of one scope have different slugs. The guards are read once, as facts
about the forest: the cycle guard as not lying below, the depth guard as room
for the branch, the slug guard as a free slug among the siblings. -/

namespace MediaService

open Foundation ParentMap

/-! ### The invariant -/

/-- What every category table of the service is. -/
structure CategoryForest (settings : Settings) (db : Database) : Prop where
  acyclic : ∀ i, ¬ Relation.TransGen (Child (parentMap db.categories.rows)) i i
  parent_exists : ∀ c ∈ db.categories, ∀ p, c.parentId = some p → ∃ d ∈ db.categories, d.id = p
  parent_scope : ∀ c ∈ db.categories, ∀ d ∈ db.categories, c.parentId = some d.id →
    d.scopeKey = c.scopeKey
  slug_unique : ∀ c ∈ db.categories, ∀ d ∈ db.categories, c.scopeKey = d.scopeKey →
    c.parentId = d.parentId → c.slug = d.slug → c = d
  depth_le : ∀ c ∈ db.categories, ∃ n ≤ settings.mediaImportMaxCategoryDepth,
    Depth (parentMap db.categories.rows) c.id n

/-- The invariant as the steps keep it: groundedness covers cycles, dangling
parents and depth, and the sequence is ahead of every id. -/
structure ForestInv (settings : Settings) (db : Database) : Prop where
  seq_fresh : ∀ c ∈ db.categories, c.id < db.categorySeq
  grounded : Grounded (parentMap db.categories.rows) settings.mediaImportMaxCategoryDepth
  parent_scope : ∀ c ∈ db.categories, ∀ d ∈ db.categories, c.parentId = some d.id →
    d.scopeKey = c.scopeKey
  slug_unique : ∀ c ∈ db.categories, ∀ d ∈ db.categories, c.scopeKey = d.scopeKey →
    c.parentId = d.parentId → c.slug = d.slug → c = d

variable {settings : Settings} {db db' : Database}

/-! ### Parent pointers of a table -/

theorem parentMap_eq (t : Table Category.id) (i : ℤ) :
    parentMap t.rows i = (t.find i).map Category.parentId := rfl

theorem parentMap_of_mem {t : Table Category.id} {c : Category} (hc : c ∈ t) :
    parentMap t.rows c.id = some c.parentId := by
  rw [parentMap_eq, Table.find_of_mem hc, Option.map_some]

theorem parentMap_eq_some {t : Table Category.id} {i : ℤ} {v : Option ℤ} :
    parentMap t.rows i = some v ↔ ∃ c ∈ t, c.id = i ∧ c.parentId = v := by
  rw [parentMap_eq, Option.map_eq_some_iff]
  simp only [Table.find_eq_some]
  tauto

theorem parentMap_ne_none {t : Table Category.id} {i : ℤ} :
    parentMap t.rows i ≠ none ↔ ∃ c ∈ t, c.id = i := by
  rw [Option.ne_none_iff_exists']
  simp only [parentMap_eq_some]
  exact ⟨fun ⟨_, c, hc, hi, _⟩ => ⟨c, hc, hi⟩, fun ⟨c, hc, hi⟩ => ⟨_, c, hc, hi, rfl⟩⟩

theorem ForestInv.categoryForest (h : ForestInv settings db) : CategoryForest settings db where
  acyclic _ := h.grounded.acyclic
  parent_exists c hc p hp :=
    parentMap_ne_none.mp (h.grounded.parent_ne_none (x := c.id) (by
      rw [Child, parentMap_of_mem hc, hp]))
  parent_scope := h.parent_scope
  slug_unique := h.slug_unique
  depth_le c hc := h.grounded c.id (by rw [parentMap_of_mem hc]; simp)

theorem forestInv_empty : ForestInv settings Database.empty where
  seq_fresh _ hc := absurd hc (Table.not_mem_empty _)
  grounded _ hx := absurd rfl hx
  parent_scope _ hc := absurd hc (Table.not_mem_empty _)
  slug_unique _ hc := absurd hc (Table.not_mem_empty _)

/-! ### One write scope -/

section WriteScope

variable {tenantId : Option UUID} {ownerId : UUID}

/-- The rows of one write scope, as a table. -/
def writeScope (db : Database) (tenantId : Option UUID) (ownerId : UUID) : Table Category.id :=
  db.categories.filter (inWriteScope tenantId ownerId)

theorem mem_writeScope {c : Category} : c ∈ writeScope db tenantId ownerId ↔
    c ∈ db.categories ∧ c.scopeKey = scopeKey tenantId ownerId := by
  rw [writeScope, Table.mem_filter, inWriteScope_iff]

/-- A chain stays in the scope it starts in. -/
theorem ForestInv.depth_writeScope (h : ForestInv settings db) {i : ℤ} {n : ℕ}
    (hd : Depth (parentMap db.categories.rows) i n) {c : Category}
    (hc : c ∈ writeScope db tenantId ownerId) (hi : c.id = i) :
    Depth (parentMap (writeScope db tenantId ownerId).rows) i n := by
  induction hd generalizing c with
  | root hr =>
    subst hi
    refine .root ?_
    rw [parentMap_of_mem (mem_writeScope.mp hc).1] at hr
    rw [parentMap_of_mem hc, hr]
  | @child i p n hi' _ ih =>
    subst hi
    have hcat := (mem_writeScope.mp hc).1
    rw [parentMap_of_mem hcat] at hi'
    obtain ⟨d, hd, rfl⟩ := parentMap_ne_none.mp (h.grounded.parent_ne_none
      (x := c.id) (p := p) (by rw [Child, parentMap_of_mem hcat]; exact hi'))
    have hscope := h.parent_scope c hcat d hd (Option.some.inj hi')
    exact .child (by rw [parentMap_of_mem hc]; exact hi')
      (ih (mem_writeScope.mpr ⟨hd, hscope.trans (mem_writeScope.mp hc).2⟩) rfl)

/-- Everything below a row is in the row's scope. -/
theorem ForestInv.below_writeScope (h : ForestInv settings db) {c : Category}
    (hc : c ∈ writeScope db tenantId ownerId) {i : ℤ} {k : ℕ}
    (hb : Below (parentMap db.categories.rows) c.id i k) :
    ∃ d ∈ writeScope db tenantId ownerId, d.id = i := by
  induction hb with
  | refl => exact ⟨c, hc, rfl⟩
  | child hy _ ih =>
    obtain ⟨d, hd, rfl⟩ := ih
    obtain ⟨e, he, rfl, hp⟩ := parentMap_eq_some.mp hy
    have hscope := h.parent_scope e he d (mem_writeScope.mp hd).1 hp
    exact ⟨e, mem_writeScope.mpr ⟨he, hscope.symm.trans (mem_writeScope.mp hd).2⟩, rfl⟩

/-- Below a row, the write scope has the same branch. -/
theorem ForestInv.below_writeScope_below (h : ForestInv settings db) {c : Category}
    (hc : c ∈ writeScope db tenantId ownerId) {i : ℤ} {k : ℕ}
    (hb : Below (parentMap db.categories.rows) c.id i k) :
    Below (parentMap (writeScope db tenantId ownerId).rows) c.id i k := by
  induction hb with
  | refl => exact .refl
  | @child y p k hy hp ih =>
    obtain ⟨d, hd, rfl⟩ := h.below_writeScope hc (.child hy hp)
    refine .child ?_ ih
    rw [parentMap_of_mem hd, ← parentMap_of_mem (mem_writeScope.mp hd).1, hy]

end WriteScope

/-! ### What the guards establish -/

/-- The depth guard's walk up counts the levels above the new place. -/
theorem parentDepth_eq {t : Table Category.id} {i : ℤ} {n : ℕ}
    (hd : Depth (parentMap t.rows) i n) : parentDepth t.rows (some i) = n := by
  have hlen : n ≤ t.rows.length + 1 := by
    have := hd.le_length (t.rows.map Category.id) fun x hx => by
      obtain ⟨c, hc, rfl⟩ := parentMap_ne_none.mp hx
      exact List.mem_map_of_mem hc
    rw [List.length_map] at this
    omega
  obtain ⟨hwalk, hmem⟩ := climb_of_depth hd hlen [] (by simp)
  rw [parentDepth, List.filter_eq_self.mpr]
  · exact hwalk
  · intro x hx
    obtain ⟨k, hk⟩ := (hmem x).mp hx
    obtain ⟨m, -, hm⟩ := hk.depth_of hd
    exact Option.isSome_iff_ne_none.mpr hm.node_ne_none

/-- The cycle guard's walk up meets the moved row exactly when the new parent
lies below it. -/
theorem rejectCycle_eq_ok {categoryId parentId : ℤ} {n : ℕ}
    (hd : Depth (parentMap db.categories.rows) parentId n) :
    rejectCycle db categoryId parentId = .ok () ↔
      ∀ k, ¬ Below (parentMap db.categories.rows) categoryId parentId k := by
  have hlen : n ≤ db.categories.rows.length + 1 := by
    have := hd.le_length (db.categories.rows.map Category.id) fun x hx => by
      obtain ⟨c, hc, rfl⟩ := parentMap_ne_none.mp hx
      exact List.mem_map_of_mem hc
    rw [List.length_map] at this
    omega
  obtain ⟨-, hmem⟩ := climb_of_depth hd hlen [] (by simp)
  have hbelow : categoryId ∈ climb (parentOf db.categories.rows) (db.categories.rows.length + 1)
      (some parentId) [] ↔ ∃ k, Below (parentMap db.categories.rows) categoryId parentId k :=
    hmem categoryId
  rw [← not_exists, ← hbelow]
  unfold rejectCycle
  split
  · rename_i hin
    exact ⟨fun h => (refuse_ne_ok h).elim, fun h => absurd hin h⟩
  · rename_i hout
    exact ⟨fun _ => hout, fun _ => rfl⟩

theorem mem_childrenOf {rows : List Category} {i j : ℤ} :
    j ∈ childrenOf rows i ↔ ∃ c ∈ rows, c.id = j ∧ c.parentId = some i := by
  simp only [childrenOf, childEdges, List.mem_map, List.mem_filter, List.mem_filterMap,
    Option.map_eq_some_iff, decide_eq_true_eq]
  constructor
  · rintro ⟨e, ⟨⟨c, hc, p, hp, rfl⟩, rfl⟩, rfl⟩
    exact ⟨c, hc, rfl, hp⟩
  · rintro ⟨c, hc, rfl, hp⟩
    exact ⟨(i, c.id), ⟨⟨c, hc, i, hp, rfl⟩, rfl⟩, rfl⟩

theorem le_foldl_max {l : List (ℤ × ℕ)} {e : ℤ × ℕ} (he : e ∈ l) (h : ℕ) :
    e.2 ≤ l.foldl (fun h e => max h e.2) h := by
  have hmono : ∀ (l : List (ℤ × ℕ)) (h : ℕ), h ≤ l.foldl (fun h e => max h e.2) h := by
    intro l
    induction l with
    | nil => exact fun h => le_refl h
    | cons e l ih => exact fun h => (le_max_left h e.2).trans (ih _)
  induction l generalizing h with
  | nil => cases he
  | cons e' l ih =>
    rcases List.mem_cons.mp he with rfl | he
    · exact (le_max_right h e.2).trans (hmono l _)
    · exact ih he _

/-- A walk down visits each id that climbs to its start, once. -/
theorem mem_branchWalk {rows : List Category} {i j : ℤ} (height : ℕ) :
    j ∈ (branchWalk rows i height).map Prod.fst ↔
      Relation.ReflTransGen (fun a c => c ∈ childrenOf rows a) i j := by
  have hcost : exploreCost (childEdges rows) [(i, height)] [] ≤ (childEdges rows).length + 1 := by
    simp [exploreCost]
    omega
  obtain ⟨hroot, hclosed⟩ := explore_closed (fun _ => rfl : ∀ a, childrenOf rows a = _)
    [(i, height)] [] hcost
  constructor
  · intro hj
    obtain ⟨e, he, rfl⟩ := List.mem_map.mp hj
    refine explore_sound (P := fun a _ => Relation.ReflTransGen (fun a c => c ∈ childrenOf rows a)
      i a) (fun a _ ha c hc => ha.tail hc) _ _ _ ?_ e he
    intro e he
    rw [List.mem_singleton.mp he]
  · intro hj
    induction hj with
    | refl => exact (hroot (i, height) (by simp)).resolve_left (by simp)
    | tail _ hc ih =>
      obtain ⟨e, he, rfl⟩ := List.mem_map.mp ih
      exact (hclosed e he _ hc).resolve_left (by simp)

theorem nodup_branchWalk (rows : List Category) (i : ℤ) (height : ℕ) :
    ((branchWalk rows i height).map Prod.fst).Nodup :=
  (explore_nodup _ _ _).1

/-- The depth guard's walk down is as high as the branch. -/
theorem le_branchHeight {t : Table Category.id} {cap : ℕ} (h : Grounded (parentMap t.rows) cap)
    {x y : ℤ} {k n : ℕ} (hx : Depth (parentMap t.rows) x n)
    (hy : Below (parentMap t.rows) x y k) : k + 1 ≤ branchHeight t.rows (some x) := by
  classical
  let level : ℤ → ℕ := fun i =>
    if hd : ∃ n, Depth (parentMap t.rows) i n then hd.choose else 0
  have hlevel : ∀ {i n}, Depth (parentMap t.rows) i n → level i = n := by
    intro i n hd
    have hex : ∃ n, Depth (parentMap t.rows) i n := ⟨n, hd⟩
    simp only [level, dif_pos hex]
    exact hex.choose_spec.unique hd
  have hstep : ∀ a, ∀ c ∈ childrenOf t.rows a, level c = level a + 1 := by
    intro a c hc
    obtain ⟨r, hr, rfl, hp⟩ := mem_childrenOf.mp hc
    obtain ⟨m, -, hm⟩ := h r.id (by rw [parentMap_of_mem hr]; simp)
    obtain ⟨m', rfl, hm'⟩ := hm.of_child (p := a) (by rw [Child, parentMap_of_mem hr, hp])
    rw [hlevel hm, hlevel hm']
  have hpos := hx.pos
  have hheight : ∀ e ∈ branchWalk t.rows x 1, e.2 + (n - 1) = level e.1 := by
    refine explore_sound (P := fun i h => h + (n - 1) = level i) (fun a h ha c hc => ?_) _ _ _ ?_
    · rw [hstep a c hc, ← ha]
      omega
    · intro e he
      rw [List.mem_singleton.mp he, hlevel hx]
      omega
  have hvisited : y ∈ (branchWalk t.rows x 1).map Prod.fst := by
    clear hx hheight
    rw [mem_branchWalk]
    induction hy with
    | refl => exact .refl
    | child hc _ ih =>
      obtain ⟨r, hr, rfl, hparent⟩ := parentMap_eq_some.mp hc
      exact ih.tail (mem_childrenOf.mpr ⟨r, hr, rfl, hparent⟩)
  obtain ⟨e, he, rfl⟩ := List.mem_map.mp hvisited
  have hlabel := hheight e he
  rw [hlevel (hy.depth hx)] at hlabel
  have := le_foldl_max he 1
  simp only [branchHeight]
  omega

theorem rejectDepthOverflow_ok {tenantId : Option UUID} {ownerId : UUID}
    {parentId categoryId : Option ℤ}
    (h : rejectDepthOverflow settings db tenantId ownerId parentId categoryId = .ok ()) :
    parentDepth (writeScope db tenantId ownerId).rows parentId +
      branchHeight (writeScope db tenantId ownerId).rows categoryId ≤
        settings.mediaImportMaxCategoryDepth := by
  unfold rejectDepthOverflow at h
  dsimp only at h
  split at h
  · exact absurd h refuse_ne_ok
  · rename_i hle
    exact Nat.le_of_not_lt hle

theorem loadParent_ok {user : UserModel} {p : ℤ} {tenantId : Option UUID} {ownerId : UUID}
    {c : Category} (h : loadParent db user p tenantId ownerId = .ok c) :
    c ∈ writeScope db tenantId ownerId ∧ c.id = p := by
  unfold loadParent at h
  split at h
  · exact absurd h refuse_ne_ok
  · rename_i parent hfind
    split at h
    · exact absurd h refuse_ne_ok
    · split at h
      · exact absurd h refuse_ne_ok
      · rename_i hscope
        cases h
        obtain ⟨hmem, hid⟩ := Table.find_eq_some.mp hfind
        exact ⟨mem_writeScope.mpr ⟨hmem, not_not.mp hscope⟩, hid⟩

theorem loadCategory_eq_ok {user : UserModel} {i : ℤ} {c : Category} :
    loadCategory db user i = .ok c ↔
      (c ∈ db.categories ∧ c.id = i) ∧ inScope user c = true := by
  rw [loadCategory, ← Table.find_eq_some]
  cases hfind : db.categories.find i with
  | none => simp [refuse]
  | some row =>
    by_cases hscope : inScope user row
    · simp only [hscope, if_true, Except.ok.injEq, Option.some.injEq]
      exact ⟨fun he => ⟨he, he ▸ hscope⟩, And.left⟩
    · simp only [hscope, Option.some.injEq]
      refine ⟨fun he => absurd he refuse_ne_ok, ?_⟩
      rintro ⟨rfl, hc⟩
      exact absurd hc hscope

/-- The slug guard's answer, read over the siblings of the write scope. -/
theorem siblingWithSlug_eq_none {slug : String} {parentId : Option ℤ} {tenantId : Option UUID}
    {ownerId : UUID} {excludeId : Option ℤ} :
    siblingWithSlug db slug parentId tenantId ownerId excludeId = none ↔
      ∀ c ∈ writeScope db tenantId ownerId, c.slug = slug → c.parentId = parentId →
        excludeId = some c.id := by
  simp only [siblingWithSlug, List.find?_eq_none, decide_eq_true_eq, not_and, not_not]
  rfl

theorem rejectDuplicateSlug_eq_ok {slug : String} {parentId : Option ℤ} {tenantId : Option UUID}
    {ownerId : UUID} {excludeId : Option ℤ} :
    rejectDuplicateSlug db slug parentId tenantId ownerId excludeId = .ok () ↔
      siblingWithSlug db slug parentId tenantId ownerId excludeId = none := by
  unfold rejectDuplicateSlug
  cases siblingWithSlug db slug parentId tenantId ownerId excludeId with
  | none => simp
  | some c => simp [refuse]

/-! ### What each request keeps -/

theorem insertCategory_ok {name slug : String} {parentId : Option ℤ} {ownerId : UUID}
    {tenantId : Option UUID} {row : Category}
    (h : insertCategory db name slug parentId ownerId tenantId = .ok (db', row)) :
    row = ⟨db.categorySeq, name, slug, parentId, ownerId, tenantId⟩ ∧
      ∃ t, db.categories.insert row = some t ∧
        db' = { db with categories := t, categorySeq := db.categorySeq + 1 } := by
  unfold insertCategory at h
  dsimp only at h
  split at h
  · cases h
  · split at h
    · cases h
    · rename_i t ht
      cases h
      exact ⟨rfl, t, ht, rfl⟩

/-- A new row under a parent of its scope, with room and a free slug. -/
theorem ForestInv.insert (h : ForestInv settings db) {name slug : String} {parentId : Option ℤ}
    {ownerId : UUID} {tenantId : Option UUID} {row : Category}
    (hi : insertCategory db name slug parentId ownerId tenantId = .ok (db', row))
    (hparent : ∀ p, parentId = some p → ∃ c ∈ writeScope db tenantId ownerId, c.id = p ∧
      ∃ n, Depth (parentMap db.categories.rows) p n ∧
        n + 1 ≤ settings.mediaImportMaxCategoryDepth)
    (hslug : siblingWithSlug db slug parentId tenantId ownerId none = none) :
    ForestInv settings db' := by
  obtain ⟨hrow, t, ht, rfl⟩ := insertCategory_ok hi
  have hid : row.id = db.categorySeq := by rw [hrow]
  have hmem : ∀ {c}, c ∈ t ↔ c ∈ db.categories ∨ c = row := Table.mem_insert ht
  have hnone : parentMap db.categories.rows row.id = none := by
    rw [parentMap_eq, Table.find_none_of_insert ht, Option.map_none]
  have hnew : ∀ i, i ≠ row.id → parentMap t.rows i = parentMap db.categories.rows i := by
    intro i hne
    rw [parentMap_eq, parentMap_eq, Table.find_insert ht, if_neg hne]
  have hat : parentMap t.rows row.id = some row.parentId := parentMap_of_mem (hmem.mpr (.inr rfl))
  have hpid : row.parentId = parentId := by rw [hrow]
  have hkey : row.scopeKey = scopeKey tenantId ownerId := by rw [hrow]; rfl
  refine ⟨?_, ?_, ?_, ?_⟩
  · intro c hc
    rcases hmem.mp hc with hc | rfl
    · have := h.seq_fresh c hc
      dsimp only
      omega
    · dsimp only
      omega
  · refine h.grounded.insert hnone hnew ?_
    cases hp : parentId with
    | none => exact .inl ⟨by rw [hat, hpid, hp], settings.one_le_categoryDepth⟩
    | some p =>
      obtain ⟨c, -, -, n, hd, hn⟩ := hparent p hp
      exact .inr ⟨p, n, by rw [hat, hpid, hp], hd, hn⟩
  · intro c hc d hd hcd
    rcases hmem.mp hc with hc | rfl <;> rcases hmem.mp hd with hd | rfl
    · exact h.parent_scope c hc d hd hcd
    · -- no stored row points at the id just handed out
      have := h.grounded.parent_ne_none (x := c.id) (p := d.id) (by
        rw [Child, parentMap_of_mem hc, hcd])
      exact absurd hnone this
    · obtain ⟨p, hp, hpp, -⟩ := hparent d.id (by rw [← hcd, hpid])
      have hpd : p = d := Table.eq_of_key_eq (mem_writeScope.mp hp).1 hd hpp
      rw [← hpd, (mem_writeScope.mp hp).2, hkey]
    · rfl
  · intro c hc d hd hscope hsib hsl
    have hfree := siblingWithSlug_eq_none.mp hslug
    have hclash : ∀ c ∈ db.categories, c.scopeKey = row.scopeKey → c.parentId = row.parentId →
        c.slug = row.slug → False := by
      intro c hc h₁ h₂ h₃
      have := hfree c (mem_writeScope.mpr ⟨hc, h₁.trans hkey⟩) (by rw [h₃, hrow])
        (by rw [h₂, hpid])
      cases this
    rcases hmem.mp hc with hc | rfl <;> rcases hmem.mp hd with hd | rfl
    · exact h.slug_unique c hc d hd hscope hsib hsl
    · exact (hclash c hc hscope hsib hsl).elim
    · exact (hclash d hd hscope.symm hsib.symm hsl.symm).elim
    · rfl

/-- The checks behind an accepted creation. -/
theorem createCategory_ok {user : UserModel} {req : CategoryCreate} {row : Category}
    (h : createCategory settings db user req = .ok (db', row)) :
    (∀ p, req.parentId = some p → ∃ c, loadParent db user p user.tenantId user.id = .ok c) ∧
      rejectDepthOverflow settings db user.tenantId user.id req.parentId none = .ok () ∧
      rejectDuplicateSlug db req.slug req.parentId user.tenantId user.id none = .ok () ∧
      insertCategory db req.name req.slug req.parentId user.id user.tenantId = .ok (db', row) := by
  unfold createCategory at h
  simp only [bind, Except.bind] at h
  cases hp : req.parentId with
  | none =>
    rw [hp] at h
    dsimp only at h
    split at h <;> [cases h; rename_i hdepth]
    split at h <;> [cases h; rename_i hdup]
    exact ⟨by simp, hdepth, hdup, h⟩
  | some p =>
    rw [hp] at h
    dsimp only at h
    cases hl : loadParent db user p user.tenantId user.id with
    | error e => rw [hl] at h; cases h
    | ok c =>
      rw [hl] at h
      dsimp only at h
      split at h <;> [cases h; rename_i hdepth]
      split at h <;> [cases h; rename_i hdup]
      exact ⟨fun q hq => ⟨c, by cases hq; exact hl⟩, hdepth, hdup, h⟩

theorem ForestInv.createCategory (h : ForestInv settings db) {user : UserModel}
    {req : CategoryCreate} {row : Category}
    (hc : createCategory settings db user req = .ok (db', row)) : ForestInv settings db' := by
  obtain ⟨hparent, hdepth, hdup, hinsert⟩ := createCategory_ok hc
  refine h.insert hinsert (fun p hp => ?_) (rejectDuplicateSlug_eq_ok.mp hdup)
  obtain ⟨c, hl⟩ := hparent p hp
  obtain ⟨hmem, rfl⟩ := loadParent_ok hl
  obtain ⟨n, -, hd⟩ := h.grounded c.id (by rw [parentMap_of_mem (mem_writeScope.mp hmem).1]; simp)
  have hroom := rejectDepthOverflow_ok hdepth
  rw [hp, parentDepth_eq (h.depth_writeScope hd hmem rfl)] at hroom
  exact ⟨c, hmem, rfl, n, hd, hroom⟩

/-- The checks behind an accepted patch. -/
theorem updateCategory_ok {user : UserModel} {i : ℤ} {req : CategoryUpdate} {new : Category}
    (h : updateCategory settings db user i req = .ok (db', new)) :
    ∃ row, loadCategory db user i = .ok row ∧
      new = { row with
        name := req.name, slug := req.slug, parentId := req.parentId.getD row.parentId } ∧
      db' = { db with categories := db.categories.update new } ∧
      checkReparent settings db user row new.parentId = .ok () ∧
      checkSibling db row new.parentId new.slug = .ok () := by
  unfold updateCategory at h
  simp only [bind, Except.bind] at h
  cases hl : loadCategory db user i with
  | error e => rw [hl] at h; cases h
  | ok row =>
    rw [hl] at h
    dsimp only at h
    split at h <;> [cases h; rename_i hreparent]
    split at h <;> [cases h; rename_i hsibling]
    split at h
    · cases h
    · cases h
      exact ⟨row, rfl, rfl, rfl, hreparent, hsibling⟩

/-- A reparent that passes the guards has its place: at the root or below a row
of the same scope that is not in the branch, with room for the branch. -/
theorem ForestInv.checkReparent (h : ForestInv settings db) {user : UserModel} {row : Category}
    {parentId : Option ℤ} (hmoved : parentId ≠ row.parentId)
    (hc : checkReparent settings db user row parentId = .ok ()) :
    ∃ d, (parentId = none ∧ d = 0 ∨
        ∃ c ∈ writeScope db row.tenantId row.ownerId, parentId = some c.id ∧
          Depth (parentMap db.categories.rows) c.id d ∧
          ∀ k, ¬ Below (parentMap db.categories.rows) row.id c.id k) ∧
      d + branchHeight (writeScope db row.tenantId row.ownerId).rows (some row.id) ≤
        settings.mediaImportMaxCategoryDepth := by
  unfold MediaService.checkReparent at hc
  rw [if_neg hmoved] at hc
  cases parentId with
  | none =>
    have hroom := rejectDepthOverflow_ok hc
    exact ⟨0, .inl ⟨rfl, rfl⟩, by omega⟩
  | some p =>
    simp only [bind, Except.bind] at hc
    split at hc <;> [cases hc; rename_i c hl]
    split at hc <;> [cases hc; rename_i hcycle]
    obtain ⟨hmem, rfl⟩ := loadParent_ok hl
    obtain ⟨n, -, hd⟩ := h.grounded c.id (by
      rw [parentMap_of_mem (mem_writeScope.mp hmem).1]; simp)
    have hroom := rejectDepthOverflow_ok hc
    rw [parentDepth_eq (h.depth_writeScope hd hmem rfl)] at hroom
    exact ⟨n, .inr ⟨c, hmem, rfl, hd, (rejectCycle_eq_ok hd).mp hcycle⟩, hroom⟩

theorem ForestInv.updateCategory (h : ForestInv settings db) {user : UserModel} {i : ℤ}
    {req : CategoryUpdate} {new : Category}
    (hu : updateCategory settings db user i req = .ok (db', new)) : ForestInv settings db' := by
  obtain ⟨row, hload, hnew, rfl, hreparent, hsibling⟩ := updateCategory_ok hu
  obtain ⟨⟨hrow, -⟩, -⟩ := loadCategory_eq_ok.mp hload
  have hid : new.id = row.id := by rw [hnew]
  have hkey : new.scopeKey = row.scopeKey := by rw [hnew]; rfl
  have hfind : db.categories.find new.id = some row := by rw [hid]; exact Table.find_of_mem hrow
  have hmem : ∀ {c}, c ∈ db.categories.update new ↔ c = new ∨ c ∈ db.categories ∧ c.id ≠ new.id :=
    Table.mem_update hfind
  have hscope : row ∈ writeScope db row.tenantId row.ownerId := mem_writeScope.mpr ⟨hrow, rfl⟩
  have hoff : ∀ j, j ≠ row.id →
      parentMap (db.categories.update new).rows j = parentMap db.categories.rows j := by
    intro j hj
    rw [parentMap_eq, parentMap_eq, Table.find_update_ne (by rw [hid]; exact hj)]
  have hat : parentMap (db.categories.update new).rows row.id = some new.parentId := by
    rw [← hid]
    exact parentMap_of_mem (hmem.mpr (.inl rfl))
  have hplace := fun (hmoved : new.parentId ≠ row.parentId) => h.checkReparent hmoved hreparent
  have hparent : ∀ d ∈ db.categories, new.parentId = some d.id → d.scopeKey = row.scopeKey := by
    intro d hd hpd
    by_cases hmoved : new.parentId = row.parentId
    · exact h.parent_scope row hrow d hd (by rw [← hmoved, hpd])
    · obtain ⟨_, ⟨hn, -⟩ | ⟨c, hc, hpc, -⟩, -⟩ := hplace hmoved
      · rw [hn] at hpd; cases hpd
      · rw [hpc, Option.some.injEq] at hpd
        rw [← Table.eq_of_key_eq (mem_writeScope.mp hc).1 hd hpd]
        exact (mem_writeScope.mp hc).2
  refine ⟨?_, ?_, ?_, ?_⟩
  · intro c hc
    rcases hmem.mp hc with rfl | ⟨hc, -⟩
    · rw [hid]
      exact h.seq_fresh row hrow
    · exact h.seq_fresh c hc
  · by_cases hmoved : new.parentId = row.parentId
    · have hsame : parentMap (db.categories.update new).rows = parentMap db.categories.rows := by
        funext j
        by_cases hj : j = row.id
        · rw [hj, hat, hmoved, parentMap_of_mem hrow]
        · exact hoff j hj
      rw [hsame]
      exact h.grounded
    · obtain ⟨d, hwhere, hroom⟩ := hplace hmoved
      obtain ⟨m, -, hm⟩ := h.grounded row.id (by rw [parentMap_of_mem hrow]; simp)
      have hscoped : Grounded (parentMap (writeScope db row.tenantId row.ownerId).rows)
          settings.mediaImportMaxCategoryDepth := by
        intro j hj
        obtain ⟨c, hc, rfl⟩ := parentMap_ne_none.mp hj
        obtain ⟨n, hn, hd⟩ := h.grounded c.id (by
          rw [parentMap_of_mem (mem_writeScope.mp hc).1]; simp)
        exact ⟨n, hn, h.depth_writeScope hd hc rfl⟩
      refine h.grounded.move hm hoff (d := d) ?_ (fun y k hy => ?_) hroom
      · rcases hwhere with ⟨hn, hd⟩ | ⟨c, -, hpc, hd, hbelow⟩
        · exact .inl ⟨by rw [hat, hn], hd⟩
        · exact .inr ⟨c.id, by rw [hat, hpc], hd, hbelow⟩
      · exact le_branchHeight hscoped (h.depth_writeScope hm hscope rfl)
          (h.below_writeScope_below hscope hy)
  · intro c hc d hd hcd
    rcases hmem.mp hc with rfl | ⟨hc₀, -⟩ <;> rcases hmem.mp hd with rfl | ⟨hd₀, -⟩
    · rfl
    · rw [hkey]
      exact hparent d hd₀ hcd
    · rw [hkey]
      exact h.parent_scope c hc₀ row hrow (by rw [hcd, hid])
    · exact h.parent_scope c hc₀ d hd₀ hcd
  · have hclash : ∀ c ∈ db.categories, c.id ≠ new.id → c.scopeKey = new.scopeKey →
        c.parentId = new.parentId → c.slug = new.slug → False := by
      intro c hc hne h₁ h₂ h₃
      unfold checkSibling at hsibling
      split at hsibling
      · rename_i hsame
        rw [Prod.mk.injEq] at hsame
        have := h.slug_unique c hc row hrow (h₁.trans hkey) (h₂.trans hsame.1) (h₃.trans hsame.2)
        exact hne (by rw [this, hid])
      · have := siblingWithSlug_eq_none.mp (rejectDuplicateSlug_eq_ok.mp hsibling) c
          (mem_writeScope.mpr ⟨hc, h₁.trans hkey⟩) h₃ h₂
        exact hne (by rw [← Option.some.inj this, hid])
    intro c hc d hd hscope' hsib hsl
    rcases hmem.mp hc with rfl | ⟨hc₀, hcn⟩ <;> rcases hmem.mp hd with rfl | ⟨hd₀, hdn⟩
    · rfl
    · exact (hclash d hd₀ hdn hscope'.symm hsib.symm hsl.symm).elim
    · exact (hclash c hc₀ hcn hscope' hsib hsl).elim
    · exact h.slug_unique c hc₀ d hd₀ hscope' hsib hsl

/-- A row that is deleted has no children, and its filings go with it. -/
theorem deleteCategory_ok {user : UserModel} {i : ℤ} (h : deleteCategory db user i = .ok db') :
    ∃ row, loadCategory db user i = .ok row ∧ (∀ c ∈ db.categories, c.parentId ≠ some i) ∧
      db' = { db with
        categories := db.categories.erase row.id
        links := db.links.filter fun l => l.2 ≠ row.id } := by
  unfold deleteCategory at h
  simp only [bind, Except.bind] at h
  cases hl : loadCategory db user i with
  | error e => rw [hl] at h; cases h
  | ok row =>
    rw [hl] at h
    dsimp only at h
    split at h
    · exact absurd h refuse_ne_ok
    · rename_i hleaf
      cases h
      exact ⟨row, rfl, fun c hc hp => hleaf (List.any_eq_true.mpr ⟨c, hc, decide_eq_true hp⟩), rfl⟩

theorem ForestInv.deleteCategory (h : ForestInv settings db) {user : UserModel} {i : ℤ}
    (hd : deleteCategory db user i = .ok db') : ForestInv settings db' := by
  obtain ⟨row, hl, hleaf, rfl⟩ := deleteCategory_ok hd
  obtain ⟨⟨hrow, rfl⟩, -⟩ := loadCategory_eq_ok.mp hl
  have hmem : ∀ {c}, c ∈ db.categories.erase row.id ↔ c ∈ db.categories ∧ c.id ≠ row.id :=
    Table.mem_erase
  refine ⟨fun c hc => h.seq_fresh c (hmem.mp hc).1, ?_,
    fun c hc d hd => h.parent_scope c (hmem.mp hc).1 d (hmem.mp hd).1,
    fun c hc d hd => h.slug_unique c (hmem.mp hc).1 d (hmem.mp hd).1⟩
  refine h.grounded.erase (x := row.id) (fun y hy => ?_) (fun y hy => ?_) ?_
  · obtain ⟨c, hc, -, hp⟩ := parentMap_eq_some.mp hy
    exact hleaf c hc hp
  · rw [parentMap_eq, parentMap_eq, Table.find_erase, if_neg hy]
  · rw [parentMap_eq, Table.find_erase, if_pos rfl, Option.map_none]

/-! ### Category paths -/

/-- Where a path has got to: at the top, or at a row of the caller's own scope
`d` levels down. -/
def LevelAt (db : Database) (user : UserModel) (parent : Option Category) (d : ℕ) : Prop :=
  match parent with
  | none => d = 0
  | some c => c ∈ writeScope db user.tenantId user.id ∧
      Depth (parentMap db.categories.rows) c.id d

/-- A level that is there is reused, any other inserted. -/
theorem ensureLevel_ok {user : UserModel} {parentId : Option ℤ} {name slug : String}
    {row : Category} {n : ℕ} (h : ensureLevel db user parentId name slug = .ok (db', row, n)) :
    (siblingWithSlug db slug parentId user.tenantId user.id none = some row ∧ db' = db ∧ n = 0) ∨
      siblingWithSlug db slug parentId user.tenantId user.id none = none ∧
        insertCategory db name slug parentId user.id user.tenantId = .ok (db', row) ∧ n = 1 := by
  unfold ensureLevel at h
  split at h
  · rename_i hsibling
    cases h
    exact .inl ⟨hsibling, rfl, rfl⟩
  · rename_i hfree
    split at h
    · cases h
    · rename_i hinsert
      cases h
      exact .inr ⟨hfree, hinsert, rfl⟩

/-- One level further, reused or created, while there is room. -/
theorem ForestInv.ensureLevel (h : ForestInv settings db) {user : UserModel}
    {parent : Option Category} {d : ℕ} (hat : LevelAt db user parent d)
    (hroom : d + 1 ≤ settings.mediaImportMaxCategoryDepth) {name slug : String} {row : Category}
    {n : ℕ} (he : ensureLevel db user (parent.map Category.id) name slug = .ok (db', row, n)) :
    ForestInv settings db' ∧ LevelAt db' user (some row) (d + 1) := by
  have hdepth : ∀ {t : Table Category.id}, parentMap t.rows row.id = some (parent.map Category.id) →
      (∀ c, parent = some c → Depth (parentMap t.rows) c.id d) →
      Depth (parentMap t.rows) row.id (d + 1) := by
    intro t hp hc
    cases parent with
    | none =>
      rw [show d = 0 from hat]
      exact .root hp
    | some c => exact .child hp (hc c rfl)
  obtain ⟨hfound, rfl, -⟩ | ⟨hfree, hi, -⟩ := ensureLevel_ok he
  · have hmem : row ∈ writeScope db' user.tenantId user.id := List.mem_of_find?_eq_some hfound
    have hp := List.find?_some hfound
    rw [decide_eq_true_eq] at hp
    refine ⟨h, hmem, hdepth ?_ ?_⟩
    · rw [parentMap_of_mem (mem_writeScope.mp hmem).1, hp.2.1]
    · rintro c rfl
      exact hat.2
  · have hinv : ForestInv settings db' := by
      refine h.insert hi (fun p hp => ?_) hfree
      cases parent with
      | none => cases hp
      | some c =>
        cases hp
        exact ⟨c, hat.1, rfl, d, hat.2, hroom⟩
    obtain ⟨hrow, t, ht, rfl⟩ := insertCategory_ok hi
    have hrt : row ∈ t := (Table.mem_insert ht).mpr (.inr rfl)
    refine ⟨hinv, mem_writeScope.mpr ⟨hrt, by rw [hrow]; rfl⟩, hdepth ?_ ?_⟩
    · rw [parentMap_of_mem hrt, hrow]
    · rintro c rfl
      refine hat.2.mono fun y v hy => ?_
      obtain ⟨e, he, rfl, hv⟩ := parentMap_eq_some.mp hy
      rw [parentMap_of_mem ((Table.mem_insert ht).mpr (.inl he)), hv]

theorem ForestInv.ensureLevels (h : ForestInv settings db) {user : UserModel}
    {parent : Option Category} {d created : ℕ} (hat : LevelAt db user parent d)
    {segments : List (String × String)}
    (hroom : d + segments.length ≤ settings.mediaImportMaxCategoryDepth) :
    ForestInv settings (ensureLevels user db parent created segments).1 := by
  induction segments generalizing db parent d created with
  | nil => exact h
  | cons seg segments ih =>
    obtain ⟨name, slug⟩ := seg
    rw [MediaService.ensureLevels]
    rw [List.length_cons] at hroom
    cases he : MediaService.ensureLevel db user (parent.map Category.id) name slug with
    | error e => exact h
    | ok res =>
      obtain ⟨hinv, hnext⟩ := h.ensureLevel hat (by omega) he
      exact ih hinv hnext (by omega)

theorem ForestInv.ensureCategoryPath (h : ForestInv settings db) {user : UserModel}
    {segments : List (String × String)}
    (hlen : segments.length ≤ settings.mediaImportMaxCategoryDepth) :
    ForestInv settings (ensureCategoryPath db user segments).1 := by
  have hroot : LevelAt db user none 0 := rfl
  have hinv : ForestInv settings (MediaService.ensureLevels user db none 0 segments).1 :=
    h.ensureLevels hroot (by omega)
  unfold MediaService.ensureCategoryPath
  split <;> rename_i heq <;> rw [heq] at hinv <;> exact hinv

/-! ### Runs of category requests -/

/-- An imported path is no longer than the cap; the rest is unrestricted. -/
def CategoryRequest.WithinCap (settings : Settings) : CategoryRequest → Prop
  | .ensurePath _ segments => segments.length ≤ settings.mediaImportMaxCategoryDepth
  | _ => True

theorem ForestInv.step (h : ForestInv settings db) {r : CategoryRequest}
    (hr : r.WithinCap settings) : ForestInv settings (r.step settings db) := by
  cases r with
  | create user req =>
    simp only [CategoryRequest.step]
    split
    · rename_i hc
      exact h.createCategory hc
    · exact h
  | update user i req =>
    simp only [CategoryRequest.step]
    split
    · rename_i hu
      exact h.updateCategory hu
    · exact h
  | delete user i =>
    simp only [CategoryRequest.step]
    split
    · rename_i hd
      exact h.deleteCategory hd
    · exact h
  | ensurePath user segments => exact h.ensureCategoryPath hr

/-- Every state of every run of category requests, by any callers, is a forest
of scopes within the depth cap. -/
theorem categoryForest_of_run (settings : Settings) (rs : List CategoryRequest)
    (hcap : ∀ r ∈ rs, r.WithinCap settings) :
    Always (fun db r => CategoryRequest.step settings db r) (CategoryForest settings)
      Database.empty rs := by
  have hinv : Always (fun db r => CategoryRequest.step settings db r) (ForestInv settings)
      Database.empty rs :=
    always_of_step (C := fun _ r => r.WithinCap settings) (fun _ _ h hr => h.step hr)
      forestInv_empty (guarded_of_forall (fun r hr _ => hcap r hr) _)
  exact hinv.mono fun _ h => h.categoryForest

theorem work_length : 1 ≤ "Work".length ∧ "Work".length ≤ 50 := by decide

theorem work_slug_length : 1 ≤ "work".length ∧ "work".length ≤ 50 := by decide

theorem bills_length : 1 ≤ "Bills".length ∧ "Bills".length ≤ 50 := by decide

theorem bills_slug_length : 1 ≤ "bills".length ∧ "bills".length ≤ 50 := by decide

/-- Two levels created one by one, the lower one then moved to the top, and a path
that reuses it. -/
def categoryRequests : List CategoryRequest :=
  [.create (.ordinary 1) ⟨"Work", "work", none, work_length, work_slug_length⟩,
    .create (.ordinary 1) ⟨"Bills", "bills", some 1, bills_length, bills_slug_length⟩,
    .update (.ordinary 1) 2 ⟨"Bills", "bills", some none, bills_length, bills_slug_length⟩,
    .ensurePath (.ordinary 1) [("Bills", "bills"), ("May", "may")]]

theorem categoryForest_of_categoryRequests :
    Always (fun db r => CategoryRequest.step Settings.default db r)
      (CategoryForest Settings.default) Database.empty categoryRequests ∧
    ((run (fun db r => CategoryRequest.step Settings.default db r) Database.empty
      categoryRequests).categories.rows.map fun c => (c.id, c.parentId)) =
        [(1, none), (2, none), (3, some 2)] :=
  ⟨categoryForest_of_run Settings.default categoryRequests
    (by simp [categoryRequests, CategoryRequest.WithinCap, Settings.default]), by decide +kernel⟩

end MediaService
