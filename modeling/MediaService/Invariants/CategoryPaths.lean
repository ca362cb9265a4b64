import MediaService.Controllers.TransferImport
import MediaService.Invariants.CategoryForest

/-! The path of a category, from its root down. Climbing the rows of a write scope
spells it, the nested tree has one node for each, and looking its slugs up level by
level leads back to the category. -/

namespace MediaService

open Foundation ParentMap

variable {t : Table Category.id} {c : Category} {cs ds : List Category} {above : Option ℤ}

/-! ### Lines -/

/-- The categories follow one another downwards, the first below `above`. -/
def Line (t : Table Category.id) : Option ℤ → List Category → Prop
  | _, [] => True
  | above, c :: cs => c ∈ t ∧ c.parentId = above ∧ Line t (some c.id) cs

/-- What the next category of a line is below. -/
def foot (above : Option ℤ) : List Category → Option ℤ
  | [] => above
  | c :: cs => foot (some c.id) cs

theorem foot_append (above : Option ℤ) (cs ds : List Category) :
    foot above (cs ++ ds) = foot (foot above cs) ds := by
  induction cs generalizing above with
  | nil => rfl
  | cons c cs ih => exact ih (some c.id)

theorem line_append : Line t above (cs ++ ds) ↔ Line t above cs ∧ Line t (foot above cs) ds := by
  induction cs generalizing above with
  | nil => exact (and_iff_right trivial).symm
  | cons c cs ih =>
    simp only [List.cons_append, Line, foot, ih, and_assoc]

theorem line_snoc : Line t above (cs ++ [c]) ↔
    Line t above cs ∧ c ∈ t ∧ c.parentId = foot above cs := by
  rw [line_append]
  simp [Line]

theorem Line.mem (h : Line t above cs) (hc : c ∈ cs) : c ∈ t := by
  induction cs generalizing above with
  | nil => cases hc
  | cons d cs ih =>
    rcases List.mem_cons.mp hc with rfl | hc
    · exact h.1
    · exact ih h.2.2 hc

/-- A line from a root is as deep as it is long. -/
theorem Line.depth (h : Line t none (cs ++ [c])) :
    Depth (parentMap t.rows) c.id (cs.length + 1) := by
  induction cs using List.reverseRecOn generalizing c with
  | nil =>
    obtain ⟨-, hc, hroot⟩ := line_snoc.mp h
    exact .root (by rw [parentMap_of_mem hc, hroot]; rfl)
  | append_singleton cs p ih =>
    obtain ⟨hline, hc, hparent⟩ := line_snoc.mp h
    rw [foot_append] at hparent
    rw [List.length_append, List.length_singleton]
    exact .child (by rw [parentMap_of_mem hc, hparent]; rfl) (ih hline)

/-- A category at some depth ends a line from a root. -/
theorem exists_line {i : ℤ} {n : ℕ} (h : Depth (parentMap t.rows) i n) :
    ∃ cs c, Line t none (cs ++ [c]) ∧ c.id = i := by
  induction h with
  | root hr =>
    obtain ⟨c, hc, rfl, hroot⟩ := parentMap_eq_some.mp hr
    exact ⟨[], c, line_snoc.mpr ⟨trivial, hc, hroot⟩, rfl⟩
  | child hp _ ih =>
    obtain ⟨c, hc, rfl, hparent⟩ := parentMap_eq_some.mp hp
    obtain ⟨cs, p, hline, rfl⟩ := ih
    refine ⟨cs ++ [p], c, line_snoc.mpr ⟨hline, hc, ?_⟩, rfl⟩
    rw [hparent, foot_append]
    rfl

theorem Line.length_le (h : Line t none cs) : cs.length ≤ t.rows.length := by
  rcases List.eq_nil_or_concat cs with rfl | ⟨cs, c, rfl⟩
  · exact Nat.zero_le _
  · rw [List.concat_eq_append] at h ⊢
    have hle := h.depth.le_length (t.rows.map Category.id) fun x hx => by
      obtain ⟨d, hd, rfl⟩ := parentMap_ne_none.mp hx
      exact List.mem_map_of_mem hd
    rwa [List.length_map, ← List.length_singleton, ← List.length_append] at hle

/-! ### Missing parents -/

/-- The parent of a row among the rows; a row whose parent is missing is a root. -/
def treeParent (rows : List Category) : ParentMap ℤ := fun i =>
  (rows.find? fun c => c.id = i).map fun c =>
    c.parentId.filter fun p => rows.any fun c' => c'.id = p

theorem treeParent_of_mem (hc : c ∈ t) : treeParent t.rows c.id =
    some (c.parentId.filter fun p => t.rows.any fun c' => c'.id = p) := by
  rw [treeParent, show t.rows.find? (fun d => decide (d.id = c.id)) = some c from
    Table.find_of_mem hc]
  rfl

theorem any_id_eq {p : ℤ} : (t.rows.any fun c => c.id = p) = true ↔ ∃ c ∈ t, c.id = p := by
  rw [List.any_eq_true]
  exact exists_congr fun c => and_congr_right' decide_eq_true_iff

theorem treeParent_ne_none {i : ℤ} : treeParent t.rows i ≠ none ↔ ∃ c ∈ t, c.id = i := by
  rw [treeParent, ne_eq, Option.map_eq_none_iff, ← any_id_eq, List.find?_eq_none,
    List.any_eq_true]
  push Not
  rfl

/-- Nothing of the rows is above: there is no parent, or it is missing. -/
def Topmost (t : Table Category.id) (above : Option ℤ) : Prop :=
  ∀ p, above = some p → ∀ c ∈ t, c.id ≠ p

theorem topmost_none : Topmost t none := nofun

theorem topmost_iff :
    Topmost t above ↔ above.filter (fun p => t.rows.any fun c => c.id = p) = none := by
  rw [Option.filter_eq_none_iff, Topmost]
  simp only [any_id_eq, not_exists, not_and]

/-- A line from the top is as deep in the tree as it is long. -/
theorem Line.treeDepth (h : Line t above (cs ++ [c])) (habove : Topmost t above) :
    Depth (treeParent t.rows) c.id (cs.length + 1) := by
  induction cs using List.reverseRecOn generalizing c with
  | nil =>
    obtain ⟨-, hc, hroot⟩ := line_snoc.mp h
    refine .root ?_
    rw [treeParent_of_mem hc, hroot, foot, topmost_iff.mp habove]
  | append_singleton cs p ih =>
    obtain ⟨hline, hc, hparent⟩ := line_snoc.mp h
    rw [foot_append] at hparent
    rw [List.length_append, List.length_singleton]
    refine .child ?_ (ih hline)
    rw [treeParent_of_mem hc, hparent]
    have hany := any_id_eq.mpr ⟨p, hline.mem (by simp), rfl⟩
    simp [foot, Option.filter, hany]

/-! ### Climbing -/

/-- A missing parent ends the climb. -/
theorem climb_topmost (habove : Topmost t above) {fuel : ℕ} (hfuel : 1 ≤ fuel) {seen : List ℤ}
    (hseen : ∀ s ∈ seen, ∃ m, Depth (treeParent t.rows) s m) :
    climb (parentOf t.rows) fuel above seen = above.toList := by
  obtain ⟨fuel, rfl⟩ : ∃ n, fuel = n + 1 := ⟨fuel - 1, by omega⟩
  cases above with
  | none => rfl
  | some p =>
    have hmissing : ¬ ∃ d ∈ t, d.id = p := fun ⟨d, hd, hid⟩ => habove p rfl d hd hid
    have hp : p ∉ seen := fun hs => by
      obtain ⟨m, hd⟩ := hseen p hs
      exact hmissing (treeParent_ne_none.mp hd.node_ne_none)
    have hnone : parentOf t.rows p = none := by
      rw [parentOf, not_ne_iff.mp (mt parentMap_ne_none.mp hmissing)]
      rfl
    rw [climb, if_neg hp, hnone]
    cases fuel <;> rfl

/-- Climbing from the end of a line meets its categories, and last the missing parent. -/
theorem climb_line {cs : List Category} {c : Category} (h : Line t above (cs ++ [c]))
    (habove : Topmost t above) {fuel : ℕ} (hfuel : cs.length + 2 ≤ fuel) (seen : List ℤ)
    (hseen : ∀ s ∈ seen, ∃ m > cs.length + 1, Depth (treeParent t.rows) s m) :
    climb (parentOf t.rows) fuel (some c.id) seen =
      ((cs ++ [c]).map Category.id).reverse ++ above.toList := by
  induction cs using List.reverseRecOn generalizing c fuel seen with
  | nil =>
    obtain ⟨fuel, rfl⟩ : ∃ n, fuel = n + 1 := ⟨fuel - 1, by omega⟩
    obtain ⟨-, hc, hparent⟩ := line_snoc.mp h
    have hdepth := h.treeDepth habove
    have hnext : parentOf t.rows c.id = above := by
      rw [parentOf, parentMap_of_mem hc, hparent]
      rfl
    rw [climb, if_neg (hdepth.not_mem hseen), hnext, climb_topmost habove (by simp at hfuel; omega)]
    · rfl
    · exact fun s hs => (hdepth.above_cons hseen s hs).imp fun _ h => h.2
  | append_singleton cs p ih =>
    obtain ⟨fuel, rfl⟩ : ∃ n, fuel = n + 1 := ⟨fuel - 1, by omega⟩
    obtain ⟨hline, hc, hparent⟩ := line_snoc.mp h
    have hdepth := h.treeDepth habove
    have hnext : parentOf t.rows c.id = some p.id := by
      rw [parentOf, parentMap_of_mem hc, hparent, foot_append]
      rfl
    rw [List.length_append, List.length_singleton] at hfuel hseen hdepth
    rw [climb, if_neg (hdepth.not_mem hseen), hnext, ih hline (by omega) (c.id :: seen)]
    · simp
    · exact hdepth.above_cons hseen

/-- The path of a category is the slugs of its line. -/
theorem categoryPath_topmost (h : Line t above (cs ++ [c])) (habove : Topmost t above) :
    categoryPath t.rows c.id = some ("/".intercalate ((cs ++ [c]).map Category.slug)) := by
  have hc : c ∈ t := h.mem (by simp)
  have hslugs : ∀ ds : List Category, (∀ d ∈ ds, d ∈ t) →
      (ds.map Category.id).filterMap (fun i => (t.rows.find? fun d => d.id = i).map Category.slug) =
        ds.map Category.slug := by
    intro ds hds
    induction ds with
    | nil => rfl
    | cons d ds ih =>
      have hd : t.rows.find? (fun e => decide (e.id = d.id)) = some d :=
        Table.find_of_mem (hds d List.mem_cons_self)
      rw [List.map_cons, List.filterMap_cons, hd]
      dsimp only [Option.map_some]
      rw [ih fun e he => hds e (List.mem_cons_of_mem d he), List.map_cons]
  have hmissing : above.toList.filterMap
      (fun i => (t.rows.find? fun d => d.id = i).map Category.slug) = [] := by
    cases above with
    | none => rfl
    | some p =>
      have hp : t.rows.find? (fun d => decide (d.id = p)) = none :=
        List.find?_eq_none.mpr fun d hd => by simpa using habove p rfl d hd
      simp [hp]
  have hlen := (h.treeDepth habove).le_length (t.rows.map Category.id) fun x hx => by
    obtain ⟨d, hd, rfl⟩ := treeParent_ne_none.mp hx
    exact List.mem_map_of_mem hd
  rw [List.length_map] at hlen
  rw [categoryPath, if_pos (any_id_eq.mpr ⟨c, hc, rfl⟩)]
  dsimp only
  rw [climb_line h habove (by omega) [] (by simp), List.filterMap_append, hmissing,
    List.append_nil, ← List.map_reverse, hslugs _ fun d hd => h.mem (List.mem_reverse.mp hd),
    List.map_reverse, List.reverse_reverse]

theorem categoryPath_line (h : Line t none (cs ++ [c])) :
    categoryPath t.rows c.id = some ("/".intercalate ((cs ++ [c]).map Category.slug)) :=
  categoryPath_topmost h topmost_none

/-- There is one line to a category. -/
theorem Line.unique (h : Line t none (cs ++ [c])) (h' : Line t none (ds ++ [c])) : cs = ds := by
  induction cs using List.reverseRecOn generalizing c ds with
  | nil =>
    obtain ⟨-, -, hroot⟩ := line_snoc.mp h
    obtain ⟨-, -, hparent⟩ := line_snoc.mp h'
    rcases List.eq_nil_or_concat ds with rfl | ⟨ds, q, rfl⟩
    · rfl
    · rw [hroot, List.concat_eq_append, foot_append] at hparent
      cases hparent
  | append_singleton cs p ih =>
    obtain ⟨hline, -, hparent⟩ := line_snoc.mp h
    obtain ⟨hline', -, hparent'⟩ := line_snoc.mp h'
    rw [hparent, foot_append] at hparent'
    rcases List.eq_nil_or_concat ds with rfl | ⟨ds, q, rfl⟩
    · cases hparent'
    · rw [List.concat_eq_append] at hline' hparent' ⊢
      rw [foot_append] at hparent'
      have hpq : p = q :=
        Table.eq_of_key_eq (hline.mem (by simp)) (hline'.mem (by simp)) (Option.some.inj hparent')
      subst hpq
      rw [ih hline hline']

/-! ### Scopes of a forest -/

section Scope

variable {settings : Settings} {db : Database} {tenantId : Option UUID} {ownerId : UUID}

/-- Every category of a scope ends a line of it. -/
theorem ForestInv.exists_line (h : ForestInv settings db)
    (hc : c ∈ writeScope db tenantId ownerId) :
    ∃ cs, Line (writeScope db tenantId ownerId) none (cs ++ [c]) := by
  obtain ⟨n, -, hd⟩ := h.grounded c.id (by rw [parentMap_of_mem (mem_writeScope.mp hc).1]; simp)
  obtain ⟨cs, c', hline, hid⟩ := MediaService.exists_line (h.depth_writeScope hd hc rfl)
  obtain rfl := Table.eq_of_key_eq (hline.mem (by simp)) hc hid
  exact ⟨cs, hline⟩

theorem ForestInv.length_line_le (h : ForestInv settings db)
    (hline : Line (writeScope db tenantId ownerId) none cs) :
    cs.length ≤ settings.mediaImportMaxCategoryDepth := by
  rcases List.eq_nil_or_concat' cs with rfl | ⟨cs, c, rfl⟩
  · exact Nat.zero_le _
  · have hscope : c ∈ writeScope db tenantId ownerId := hline.mem (by simp)
    obtain ⟨n, hn, hd⟩ := h.grounded c.id (by
      rw [parentMap_of_mem (mem_writeScope.mp hscope).1]; simp)
    rw [List.length_append, List.length_singleton,
      hline.depth.unique (h.depth_writeScope hd hscope rfl)]
    exact hn

end Scope

/-! ### Levels found again -/

section Levels

variable {settings : Settings} {db db' : Database} {user : UserModel}
  {parent last : Option Category}
  {segments : List (String × String)} {n m : ℕ}

theorem siblingWithSlug_mem {slug : String} {parentId : Option ℤ} {tenantId : Option UUID}
    {ownerId : UUID} (h : siblingWithSlug db slug parentId tenantId ownerId none = some c) :
    c ∈ writeScope db tenantId ownerId ∧ c.slug = slug ∧ c.parentId = parentId := by
  have hfound := List.find?_some h
  simp only [ne_eq, reduceCtorEq, not_false_eq_true, and_true, decide_eq_true_eq] at hfound
  exact ⟨List.mem_of_find?_eq_some h, hfound⟩

/-- The sibling with a slug is the one row that has it. -/
theorem ForestInv.siblingWithSlug_self (h : ForestInv settings db) {tenantId : Option UUID}
    {ownerId : UUID} (hc : c ∈ writeScope db tenantId ownerId) :
    siblingWithSlug db c.slug c.parentId tenantId ownerId none = some c := by
  cases hs : siblingWithSlug db c.slug c.parentId tenantId ownerId none with
  | none => exact absurd (siblingWithSlug_eq_none.mp hs c hc rfl rfl) (by simp)
  | some d =>
    obtain ⟨hd, hslug, hparent⟩ := siblingWithSlug_mem hs
    obtain ⟨hd, hscope⟩ := mem_writeScope.mp hd
    obtain ⟨hc, hscope'⟩ := mem_writeScope.mp hc
    exact congrArg some (h.slug_unique d hd c hc (hscope.trans hscope'.symm) hparent hslug)

/-- The levels of a line are found, and nothing is created. -/
theorem ForestInv.ensureLevels_line (h : ForestInv settings db)
    (hline : Line (writeScope db user.tenantId user.id) (parent.map Category.id) cs)
    (hslugs : segments.map Prod.snd = cs.map Category.slug) (n : ℕ) :
    MediaService.ensureLevels user db parent n segments = (db, .ok (cs.getLast?.or parent, n)) := by
  induction segments generalizing parent cs n with
  | nil =>
    obtain rfl : cs = [] := List.map_eq_nil_iff.mp hslugs.symm
    rfl
  | cons level segments ih =>
    obtain ⟨name, slug⟩ := level
    cases cs with
    | nil => cases hslugs
    | cons c cs =>
      obtain ⟨hc, hparent, hline⟩ := hline
      obtain ⟨hslug, hslugs⟩ := List.cons.inj hslugs
      have hfound : MediaService.ensureLevel db user (parent.map Category.id) name slug =
          .ok (db, c, 0) := by
        rw [MediaService.ensureLevel, show slug = c.slug from hslug, ← hparent,
          h.siblingWithSlug_self hc]
      rw [MediaService.ensureLevels, hfound]
      dsimp only
      rw [ih (show Line _ ((some c).map Category.id) cs from hline) hslugs]
      cases hlast : cs.getLast? <;> simp [List.getLast?_cons, hlast]

theorem ForestInv.ensureCategoryPath_line (h : ForestInv settings db)
    (hline : Line (writeScope db user.tenantId user.id) none (cs ++ [c]))
    (hslugs : segments.map Prod.snd = (cs ++ [c]).map Category.slug) :
    MediaService.ensureCategoryPath db user segments = (db, .ok (c, 0)) := by
  have hlevels : MediaService.ensureLevels user db none 0 segments =
      (db, .ok ((cs ++ [c]).getLast?.or none, 0)) := h.ensureLevels_line hline hslugs 0
  rw [List.getLast?_concat, Option.some_or] at hlevels
  rw [MediaService.ensureCategoryPath, hlevels]

theorem ensureLevels_le (h : ensureLevels user db parent n segments = (db', .ok (last, m))) :
    n ≤ m := by
  induction segments generalizing db parent n with
  | nil =>
    cases h
    exact Nat.le_refl _
  | cons level segments ih =>
    obtain ⟨name, slug⟩ := level
    rw [ensureLevels] at h
    split at h
    · cases h
    · exact (Nat.le_add_right _ _).trans (ih h)

/-- Levels of which none is created are those of a line. -/
theorem line_of_ensureLevels
    (h : ensureLevels user db parent n segments = (db', .ok (last, n))) :
    db' = db ∧ ∃ cs, Line (writeScope db user.tenantId user.id) (parent.map Category.id) cs ∧
      cs.map Category.slug = segments.map Prod.snd ∧ last = cs.getLast?.or parent := by
  induction segments generalizing parent with
  | nil =>
    cases h
    exact ⟨rfl, [], trivial, rfl, rfl⟩
  | cons level segments ih =>
    obtain ⟨name, slug⟩ := level
    rw [ensureLevels] at h
    split at h
    · cases h
    · rename_i db₁ row k hlevel
      have hk := ensureLevels_le h
      obtain rfl : k = 0 := by omega
      obtain ⟨hsibling, rfl, -⟩ | ⟨-, -, hone⟩ := ensureLevel_ok hlevel
      · obtain ⟨hrow, hslug, hparent⟩ := siblingWithSlug_mem hsibling
        obtain ⟨rfl, cs, hline, hslugs, rfl⟩ := ih h
        refine ⟨rfl, row :: cs, ⟨hrow, hparent, hline⟩,
              by rw [List.map_cons, hslug, hslugs]; rfl, ?_⟩
        cases hlast : cs.getLast? <;> simp [List.getLast?_cons, hlast]
      · cases hone

theorem line_of_ensureCategoryPath
    (h : ensureCategoryPath db user segments = (db', .ok (c, 0))) :
    db' = db ∧ ∃ cs, Line (writeScope db user.tenantId user.id) none (cs ++ [c]) ∧
      (cs ++ [c]).map Category.slug = segments.map Prod.snd := by
  unfold ensureCategoryPath at h
  split at h
  · cases h
  · cases h
  · rename_i hlevels
    cases h
    obtain ⟨rfl, cs, hline, hslugs, hlast⟩ := line_of_ensureLevels hlevels
    rw [Option.or_none] at hlast
    obtain ⟨cs, rfl⟩ := List.getLast?_eq_some_iff.mp hlast.symm
    exact ⟨rfl, cs, hline, hslugs⟩

/-- No chain creates a category exactly if each finds its own. -/
theorem ensureChains_reuses {chains : List (String × CategoryChain)}
    (h : ∀ p ∈ chains, ∃ row, ensureCategoryPath db user p.2 = (db, .ok (row, 0)))
    (tree : RecreatedTree) :
    ∃ tree', ensureChains user db tree chains = (db, .ok tree') ∧ tree'.created = tree.created := by
  induction chains generalizing tree with
  | nil => exact ⟨tree, rfl, rfl⟩
  | cons p chains ih =>
    obtain ⟨key, chain⟩ := p
    obtain ⟨row, hrow⟩ := h _ List.mem_cons_self
    rw [ensureChains, hrow]
    exact ih (fun q hq => h q (List.mem_cons_of_mem _ hq)) _

theorem ensureChains_le {chains : List (String × CategoryChain)} {tree tree' : RecreatedTree}
    (h : ensureChains user db tree chains = (db', .ok tree')) : tree.created ≤ tree'.created := by
  induction chains generalizing db tree with
  | nil =>
    cases h
    exact Nat.le_refl _
  | cons p chains ih =>
    obtain ⟨key, chain⟩ := p
    rw [ensureChains] at h
    split at h
    · cases h
    · exact (Nat.le_add_right _ _).trans (ih h)

theorem reused_of_ensureChains {chains : List (String × CategoryChain)}
    {tree tree' : RecreatedTree} (h : ensureChains user db tree chains = (db', .ok tree'))
    (hcreated : tree'.created = tree.created) :
    db' = db ∧ (∀ p ∈ chains, ∃ row, ensureCategoryPath db user p.2 = (db, .ok (row, 0))) ∧
      ∀ q ∈ tree'.byPath, q ∈ tree.byPath ∨ ∃ chain, (q.1, chain) ∈ chains ∧
        ensureCategoryPath db user chain = (db, .ok (q.2, 0)) := by
  induction chains generalizing tree with
  | nil =>
    cases h
    exact ⟨rfl, by simp, fun q hq => .inl hq⟩
  | cons p chains ih =>
    obtain ⟨key, chain⟩ := p
    rw [ensureChains] at h
    split at h
    · cases h
    · rename_i db₁ row k hpath
      have hle := ensureChains_le h
      dsimp only at hle
      obtain rfl : k = 0 := by omega
      obtain ⟨rfl, -⟩ := line_of_ensureCategoryPath hpath
      obtain ⟨rfl, hreused, hbyPath⟩ := ih h (by dsimp only; omega)
      refine ⟨rfl, fun q hq => ?_, fun q hq => ?_⟩
      · rcases List.mem_cons.mp hq with rfl | hq
        · exact ⟨row, hpath⟩
        · exact hreused q hq
      · rcases hbyPath q hq with hq | ⟨chain', hq, hrow⟩
        · rcases List.mem_append.mp hq with hq | hq
          · exact .inl hq
          · rw [List.mem_singleton] at hq
            subst hq
            exact .inr ⟨chain, List.mem_cons_self, hpath⟩
        · exact .inr ⟨chain', List.mem_cons_of_mem _ hq, hrow⟩

end Levels

end MediaService
