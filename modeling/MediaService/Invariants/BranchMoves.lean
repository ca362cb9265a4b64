import MediaService.Invariants.CategoryIsolation
import MediaService.Invariants.ManifestRoundTrip
import MediaService.Invariants.SpelledCategories
import MediaService.ReadSurface.CategoryViews

/-! Moving a branch of categories. A patch that renames a category or files it under another
moves its branch as a whole, in the view of everyone who sees it: the paths in the branch
keep what follows the category's own and no other path changes, the branch is collected from
what is above its new place and no longer from what was above the old one, and objects stay
filed where they were. -/

namespace MediaService

open Foundation ParentMap

variable {settings : Settings} {db db' : Database} {viewer user : UserModel}
  {t t' : Table Category.id} {row new c d : Category} {cs ds up down : List Category}
  {above : Option ℤ} {i j : ℤ}

/-! ### Lines -/

theorem Line.transport (h : Line t above cs) (hkeep : ∀ c ∈ cs, c ∈ t → c ∈ t') :
    Line t' above cs := by
  induction cs generalizing above with
  | nil => trivial
  | cons c cs ih =>
    obtain ⟨hc, hparent, hrest⟩ := h
    exact ⟨hkeep c List.mem_cons_self hc, hparent,
      ih hrest fun d hd => hkeep d (List.mem_cons_of_mem c hd)⟩

/-- No category comes twice in a line from a root. -/
theorem Line.not_mem_below (h : Line t none (up ++ row :: down)) : row ∉ down := by
  intro hin
  obtain ⟨ds, es, rfl⟩ := List.append_of_mem hin
  have hupper : Line t none (up ++ [row]) := by
    rw [List.append_cons] at h
    exact (line_append.mp h).1
  have hlower : Line t none ((up ++ row :: ds) ++ [row]) := by
    rw [← List.cons_append, ← List.append_assoc, List.append_cons (up ++ row :: ds)] at h
    exact (line_append.mp h).1
  have heq := hupper.depth.unique hlower.depth
  rw [List.length_append, List.length_cons] at heq
  omega

/-- The branches a category is in are those of its line. -/
theorem Line.inBranch_iff (h : Line t none (cs ++ [c])) :
    InBranch t.rows i c.id ↔ i ∈ (cs ++ [c]).map Category.id := by
  constructor
  · rintro ⟨k, hk⟩
    induction cs using List.reverseRecOn generalizing c k with
    | nil =>
      obtain ⟨-, hc, hroot⟩ := line_snoc.mp h
      cases hk with
      | refl => simp
      | child hchild _ =>
        obtain ⟨⟨e, he, hid, hparent⟩, -⟩ := child_treeParent.mp hchild
        rw [Table.eq_of_key_eq he hc hid, hroot] at hparent
        cases hparent
    | append_singleton cs p ih =>
      obtain ⟨hline, hc, hparent⟩ := line_snoc.mp h
      cases hk with
      | refl => simp
      | child hchild hbelow =>
        obtain ⟨⟨e, he, hid, hp⟩, -⟩ := child_treeParent.mp hchild
        rw [Table.eq_of_key_eq he hc hid, hparent, foot_append] at hp
        cases hp
        rw [List.map_append]
        exact List.mem_append_left _ (ih hline _ hbelow)
  · intro hin
    induction cs using List.reverseRecOn generalizing c with
    | nil =>
      obtain rfl : i = c.id := by simpa using hin
      exact ⟨0, .refl⟩
    | append_singleton cs p ih =>
      obtain ⟨hline, hc, hparent⟩ := line_snoc.mp h
      rw [List.map_append] at hin
      rcases List.mem_append.mp hin with hin | hin
      · obtain ⟨k, hk⟩ := ih hline hin
        refine ⟨k + 1, .child (child_treeParent.mpr ⟨⟨c, hc, rfl, ?_⟩, p, ?_, rfl⟩) hk⟩
        · rw [hparent, foot_append]
          rfl
        · exact hline.mem (by simp)
      · obtain rfl : i = c.id := by simpa using hin
        exact ⟨0, .refl⟩

/-- A line leads to the category it ends with. -/
theorem foot_eq_some (hfoot : foot none cs = some i) : ∃ ds c, cs = ds ++ [c] ∧ c.id = i := by
  rcases List.eq_nil_or_concat' cs with rfl | ⟨ds, c, rfl⟩
  · cases hfoot
  · rw [foot_append] at hfoot
    exact ⟨ds, c, rfl, Option.some.inj hfoot⟩

theorem Line.mem_collectBranchIds (h : Line t none cs) (hfoot : foot none cs = some i)
    (hd : ∃ d ∈ t, d.id = j) :
    i ∈ collectBranchIds t.rows j ↔ j ∈ cs.map Category.id := by
  obtain ⟨ds, c, rfl, rfl⟩ := foot_eq_some hfoot
  rw [MediaService.mem_collectBranchIds (treeParent_ne_none.mpr hd), h.inBranch_iff]

theorem Line.path (h : Line t none cs) (hfoot : foot none cs = some i) :
    categoryPath t.rows i = some ("/".intercalate (cs.map Category.slug)) := by
  obtain ⟨ds, c, rfl, rfl⟩ := foot_eq_some hfoot
  exact categoryPath_line h

/-! ### Views -/

/-- What a caller is shown of the categories, as a table. -/
def categoryView (db : Database) (viewer : UserModel) : Table Category.id :=
  db.categories.filter (inScope viewer)

theorem mem_categoryView : c ∈ categoryView db viewer ↔
    c ∈ db.categories ∧ inScope viewer c = true :=
  Table.mem_filter

theorem inScope_congr (h : c.scopeKey = d.scopeKey) : inScope viewer c = inScope viewer d := by
  unfold Category.scopeKey scopeKey at h
  unfold inScope
  cases hc : c.tenantId <;> cases hd : d.tenantId <;> simp_all

/-- In a view, every category ends a line from a root. -/
theorem ForestInv.view_line (h : ForestInv settings db) (hc : c ∈ categoryView db viewer) :
    ∃ cs, Line (categoryView db viewer) none (cs ++ [c]) := by
  obtain ⟨hmem, hsees⟩ := mem_categoryView.mp hc
  obtain ⟨cs, hline⟩ := h.exists_line (mem_writeScope.mpr ⟨hmem, rfl⟩ :
    c ∈ writeScope db c.tenantId c.ownerId)
  refine ⟨cs, hline.transport fun d _ hd => ?_⟩
  obtain ⟨hd, hkey⟩ := mem_writeScope.mp hd
  exact mem_categoryView.mpr ⟨hd, (inScope_congr hkey).trans hsees⟩

/-! ### One move -/

/-- The path of a category as a caller is shown it. -/
def pathFor (db : Database) (viewer : UserModel) (i : ℤ) : Option String :=
  categoryPath (scopedCategories db viewer) i

/-- The ids of a category's branch as a caller lists by them. -/
def branchFor (db : Database) (viewer : UserModel) (i : ℤ) : List ℤ :=
  collectBranchIds (scopedCategories db viewer) i

/-- A category was rewritten, and in a caller's view its branch moved with it. -/
structure BranchMoved (db db' : Database) (viewer : UserModel) (row new : Category) : Prop where
  filings : db'.links = db.links
  rows : ∀ c, c ∈ scopedCategories db' viewer ↔
    c = new ∨ c ∈ scopedCategories db viewer ∧ c.id ≠ row.id
  place : new.parentId = none ∧ pathFor db' viewer row.id = some new.slug ∨
    ∃ p ∈ scopedCategories db viewer, new.parentId = some p.id ∧
      p.id ∉ branchFor db viewer row.id ∧ ∃ path, pathFor db viewer p.id = some path ∧
        pathFor db' viewer row.id = some (path ++ "/" ++ new.slug)
  outside : ∀ c ∈ scopedCategories db viewer, c.id ∉ branchFor db viewer row.id →
    pathFor db' viewer c.id = pathFor db viewer c.id
  inside : ∀ c ∈ scopedCategories db viewer, c.id ∈ branchFor db viewer row.id →
    ∃ path path' below, pathFor db viewer row.id = some path ∧
      pathFor db' viewer row.id = some path' ∧ pathFor db viewer c.id = some (path ++ below) ∧
        pathFor db' viewer c.id = some (path' ++ below)
  branches : ∀ a ∈ scopedCategories db viewer, ∀ c ∈ scopedCategories db viewer,
    (c.id ∈ branchFor db' viewer a.id ↔
      if c.id ∈ branchFor db viewer row.id then
        a.id ∈ branchFor db viewer row.id ∧ c.id ∈ branchFor db viewer a.id ∨
          ∃ p, new.parentId = some p ∧ p ∈ branchFor db viewer a.id
      else c.id ∈ branchFor db viewer a.id)

/-- What follows in a path. -/
def pathBelow (slugs : List String) : String :=
  if slugs = [] then "" else "/" ++ "/".intercalate slugs

theorem intercalate_append {slugs : List String} (h : slugs ≠ []) (slugs' : List String) :
    "/".intercalate (slugs ++ slugs') = "/".intercalate slugs ++ pathBelow slugs' := by
  unfold pathBelow
  split
  · rename_i hnil
    rw [hnil, List.append_nil, String.append_empty]
  · rename_i hne
    rw [String.intercalate_append_of_ne_nil h hne, String.append_assoc]

/-- The rows of a view before a patch and after, and the new line to the patched one. -/
structure Rewritten (t t' : Table Category.id) (row new : Category) (up : List Category) :
    Prop where
  row_mem : row ∈ t
  id_eq : new.id = row.id
  mem : ∀ c, c ∈ t' ↔ c = new ∨ c ∈ t ∧ c.id ≠ row.id
  line : Line t' none (up ++ [new])
  up_mem : ∀ c ∈ up, c ∈ t ∧ c ≠ row
  lines : ∀ c ∈ t, ∃ cs, Line t none cs ∧ foot none cs = some c.id

namespace Rewritten

variable (h : Rewritten t t' row new up)
include h

theorem ne_id (hc : c ∈ t) (hne : c ≠ row) : c.id ≠ row.id :=
  fun hid => hne (Table.eq_of_key_eq hc h.row_mem hid)

theorem mem_id (hc : c ∈ t) : ∃ c' ∈ t', c'.id = c.id := by
  by_cases he : c = row
  · exact ⟨new, (h.mem new).mpr (.inl rfl), he ▸ h.id_eq⟩
  · exact ⟨c, (h.mem c).mpr (.inr ⟨hc, h.ne_id hc he⟩), rfl⟩

/-- A line that does not come through the row is there afterwards. -/
theorem line_outside (hline : Line t above cs) (hout : row ∉ cs) : Line t' above cs :=
  hline.transport fun c hc hmem =>
    (h.mem c).mpr (.inr ⟨hmem, h.ne_id hmem fun he => hout (he ▸ hc)⟩)

/-- A line that comes through the row follows it to its new place. -/
theorem line_inside (hline : Line t none (cs ++ row :: down)) :
    Line t' none (up ++ new :: down) := by
  have hdown : Line t (some row.id) down := (line_append.mp hline).2.2.2
  have hbelow : Line t' (some row.id) down := h.line_outside hdown hline.not_mem_below
  rw [List.append_cons]
  refine line_append.mpr ⟨h.line, ?_⟩
  rw [foot_append]
  change Line t' (some new.id) down
  rw [h.id_eq]
  exact hbelow

theorem foot_inside (cs down : List Category) :
    foot none (up ++ new :: down) = foot none (cs ++ row :: down) := by
  rw [foot_append, foot_append, foot, foot, h.id_eq]

/-- The line to the new parent was there before. -/
theorem line_up : Line t none up :=
  (line_append.mp h.line).1.transport fun c hc _ => (h.up_mem c hc).1

theorem parentId_eq : new.parentId = foot none up :=
  (line_snoc.mp h.line).2.2

/-- Whether a line comes through the row, by the branch that is collected from it. -/
theorem mem_line_iff (hline : Line t none cs) (hfoot : foot none cs = some i) :
    row ∈ cs ↔ i ∈ collectBranchIds t.rows row.id := by
  rw [hline.mem_collectBranchIds hfoot ⟨row, h.row_mem, rfl⟩]
  constructor
  · exact fun hin => List.mem_map_of_mem hin
  · intro hin
    obtain ⟨d, hd, hid⟩ := List.mem_map.mp hin
    rwa [← Table.eq_of_key_eq (hline.mem hd) h.row_mem hid]

theorem path_outside (hc : c ∈ t) (hout : c.id ∉ collectBranchIds t.rows row.id) :
    categoryPath t'.rows c.id = categoryPath t.rows c.id := by
  obtain ⟨cs, hline, hfoot⟩ := h.lines c hc
  have hline' := h.line_outside hline (mt (h.mem_line_iff hline hfoot).mp hout)
  rw [hline.path hfoot, hline'.path hfoot]

theorem path_inside (hc : c ∈ t) (hin : c.id ∈ collectBranchIds t.rows row.id) :
    ∃ path path' below, categoryPath t.rows row.id = some path ∧
      categoryPath t'.rows row.id = some path' ∧ categoryPath t.rows c.id = some (path ++ below) ∧
        categoryPath t'.rows c.id = some (path' ++ below) := by
  obtain ⟨cs, hline, hfoot⟩ := h.lines c hc
  obtain ⟨upper, down, rfl⟩ := List.append_of_mem ((h.mem_line_iff hline hfoot).mpr hin)
  have hrow : Line t none (upper ++ [row]) := by
    rw [List.append_cons] at hline
    exact (line_append.mp hline).1
  have hfootRow : foot none (upper ++ [row]) = some row.id := by
    rw [foot_append]
    rfl
  have hfoot' : foot none (up ++ new :: down) = some c.id := by
    rw [h.foot_inside upper down, hfoot]
  have hslugs : ∀ (upper : List Category) (top : Category), "/".intercalate
      ((upper ++ top :: down).map Category.slug) =
        "/".intercalate ((upper ++ [top]).map Category.slug) ++
          pathBelow (down.map Category.slug) := by
    intro upper top
    rw [List.append_cons, List.map_append]
    exact intercalate_append (by simp) _
  refine ⟨_, _, pathBelow (down.map Category.slug), hrow.path hfootRow,
    h.line.path (i := row.id) ?_, ?_, ?_⟩
  · rw [foot_append, ← h.id_eq]
    rfl
  · rw [hline.path hfoot, hslugs]
  · rw [(h.line_inside hline).path hfoot', hslugs]

theorem place : new.parentId = none ∧ categoryPath t'.rows row.id = some new.slug ∨
    ∃ p ∈ t, new.parentId = some p.id ∧ p.id ∉ collectBranchIds t.rows row.id ∧
      ∃ path, categoryPath t.rows p.id = some path ∧
        categoryPath t'.rows row.id = some (path ++ "/" ++ new.slug) := by
  have hpath : categoryPath t'.rows row.id =
      some ("/".intercalate ((up ++ [new]).map Category.slug)) := by
    refine h.line.path ?_
    rw [foot_append, ← h.id_eq]
    rfl
  cases hparent : new.parentId with
  | none =>
    refine .inl ⟨rfl, ?_⟩
    rw [h.parentId_eq] at hparent
    rcases List.eq_nil_or_concat' up with rfl | ⟨us, p, rfl⟩
    · rw [hpath]
      exact congrArg some String.intercalate_singleton
    · rw [foot_append] at hparent
      cases hparent
  | some i =>
    rw [h.parentId_eq] at hparent
    obtain ⟨us, p, rfl, rfl⟩ := foot_eq_some hparent
    have hp := h.up_mem p (by simp)
    refine .inr ⟨p, hp.1, rfl, ?_, _, h.line_up.path hparent, ?_⟩
    · rw [← h.mem_line_iff h.line_up hparent]
      exact fun hin => (h.up_mem row hin).2 rfl
    · rw [hpath, List.map_append, intercalate_append (by simp)]
      simp [pathBelow, String.append_assoc]

/-- What the new parent's line has is what is above the new place. -/
theorem above_iff {a : Category} (ha : a ∈ t) :
    (∃ p, new.parentId = some p ∧ p ∈ collectBranchIds t.rows a.id) ↔
      a.id ∈ up.map Category.id := by
  rw [h.parentId_eq]
  constructor
  · rintro ⟨p, hp, hin⟩
    exact (h.line_up.mem_collectBranchIds hp ⟨a, ha, rfl⟩).mp hin
  · intro hin
    rcases List.eq_nil_or_concat' up with rfl | ⟨us, p, rfl⟩
    · cases hin
    · have hfoot : foot none (us ++ [p]) = some p.id := by
        rw [foot_append]
        rfl
      exact ⟨p.id, hfoot, (h.line_up.mem_collectBranchIds hfoot ⟨a, ha, rfl⟩).mpr hin⟩

/-- In a line through the row, what follows from it on is what is in its branch. -/
theorem below_iff {a : Category} (ha : a ∈ t) (hline : Line t none (cs ++ row :: down)) :
    a.id ∈ collectBranchIds t.rows row.id ∧ a.id ∈ (cs ++ row :: down).map Category.id ↔
      a.id ∈ (row :: down).map Category.id := by
  have hmem : ∀ {ds : List Category}, (∀ d ∈ ds, d ∈ t) → a.id ∈ ds.map Category.id → a ∈ ds := by
    intro ds hds hin
    obtain ⟨d, hd, hid⟩ := List.mem_map.mp hin
    rwa [← Table.eq_of_key_eq (hds d hd) ha hid]
  have hupto : ∀ us vs : List Category, cs ++ row :: down = us ++ a :: vs →
      (a.id ∈ collectBranchIds t.rows row.id ↔ row ∈ us ++ [a]) := by
    intro us vs he
    have hus : Line t none (us ++ [a]) := by
      rw [he, List.append_cons] at hline
      exact (line_append.mp hline).1
    refine (h.mem_line_iff hus ?_).symm
    rw [foot_append]
    rfl
  constructor
  · rintro ⟨hbranch, hin⟩
    rw [List.map_append] at hin
    refine (List.mem_append.mp hin).resolve_left fun hover => ?_
    have hover := hmem (fun d hd => hline.mem (List.mem_append_left _ hd)) hover
    obtain ⟨us, vs, rfl⟩ := List.append_of_mem hover
    have hrow := (hupto us (vs ++ row :: down) (by simp)).mp hbranch
    obtain ⟨xs, ys, hxs⟩ := List.append_of_mem hrow
    have hagain : (us ++ a :: vs) ++ row :: down = xs ++ row :: (ys ++ vs ++ row :: down) := by
      rw [List.append_cons us, hxs]
      simp
    rw [hagain] at hline
    exact hline.not_mem_below (by simp)
  · intro hin
    have hdown := hmem (fun d hd => hline.mem (List.mem_append_right _ hd)) hin
    refine ⟨?_, by rw [List.map_append]; exact List.mem_append_right _ hin⟩
    obtain ⟨us, vs, he⟩ := List.append_of_mem hdown
    rw [hupto (cs ++ us) vs (by rw [he, List.append_assoc])]
    cases us with
    | nil =>
      obtain ⟨rfl, -⟩ := List.cons_eq_cons.mp he
      simp
    | cons u us =>
      obtain ⟨rfl, -⟩ := List.cons_eq_cons.mp he
      simp

theorem branches {a : Category} (ha : a ∈ t) (hc : c ∈ t) :
    c.id ∈ collectBranchIds t'.rows a.id ↔
      if c.id ∈ collectBranchIds t.rows row.id then
        a.id ∈ collectBranchIds t.rows row.id ∧ c.id ∈ collectBranchIds t.rows a.id ∨
          ∃ p, new.parentId = some p ∧ p ∈ collectBranchIds t.rows a.id
      else c.id ∈ collectBranchIds t.rows a.id := by
  obtain ⟨cs, hline, hfoot⟩ := h.lines c hc
  have hbranch := hline.mem_collectBranchIds hfoot ⟨a, ha, rfl⟩
  split
  · rename_i hin
    obtain ⟨upper, down, rfl⟩ := List.append_of_mem ((h.mem_line_iff hline hfoot).mpr hin)
    have hfoot' : foot none (up ++ new :: down) = some c.id := by
      rw [h.foot_inside upper down, hfoot]
    rw [(h.line_inside hline).mem_collectBranchIds hfoot' (h.mem_id ha), hbranch,
      h.below_iff ha hline, h.above_iff ha, List.map_append, List.mem_append, List.map_cons,
      List.map_cons, h.id_eq, or_comm]
  · rename_i hout
    have hline' := h.line_outside hline (mt (h.mem_line_iff hline hfoot).mp hout)
    rw [hbranch, hline'.mem_collectBranchIds hfoot (h.mem_id ha)]

end Rewritten

/-! ### The patch -/

/-- A patch that goes through rewrites the row in every view that has it. -/
theorem ForestInv.rewritten (h : ForestInv settings db) {req : CategoryUpdate}
    (hu : MediaService.updateCategory settings db user i req = .ok (db', new))
    (hsees : inScope viewer new = true) :
    ∃ row up, loadCategory db user i = .ok row ∧ db'.links = db.links ∧
      Rewritten (categoryView db viewer) (categoryView db' viewer) row new up := by
  have hinv' := h.updateCategory hu
  obtain ⟨row, hload, hnew, hdb, hreparent, -⟩ := updateCategory_ok hu
  obtain ⟨⟨hrow, -⟩, -⟩ := loadCategory_eq_ok.mp hload
  have hid : new.id = row.id := by rw [hnew]
  have hkey : new.scopeKey = row.scopeKey := by rw [hnew]; rfl
  have hmem : ∀ c, c ∈ categoryView db' viewer ↔
      c = new ∨ c ∈ categoryView db viewer ∧ c.id ≠ row.id := by
    intro c
    have hfind : db.categories.find new.id = some row := hid ▸ Table.find_of_mem hrow
    rw [mem_categoryView, mem_categoryView, hdb, Table.mem_update hfind, hid]
    constructor
    · rintro ⟨rfl | ⟨hc, hne⟩, hscope⟩
      · exact .inl rfl
      · exact .inr ⟨⟨hc, hscope⟩, hne⟩
    · rintro (rfl | ⟨⟨hc, hscope⟩, hne⟩)
      · exact ⟨.inl rfl, hsees⟩
      · exact ⟨.inr ⟨hc, hne⟩, hscope⟩
  obtain ⟨up, hline⟩ := hinv'.view_line ((hmem new).mpr (.inl rfl))
  refine ⟨row, up, hload, by rw [hdb], ?_, hid, hmem, hline, fun c hc => ?_, fun c hc => ?_⟩
  · exact mem_categoryView.mpr ⟨hrow, (inScope_congr hkey).symm.trans hsees⟩
  · rcases (hmem c).mp (hline.mem (List.mem_append_left _ hc)) with rfl | ⟨hct, hne⟩
    · obtain ⟨us, vs, rfl⟩ := List.append_of_mem hc
      rw [List.append_assoc, List.cons_append] at hline
      exact absurd (by simp) hline.not_mem_below
    · exact ⟨hct, fun he => hne (he ▸ rfl)⟩
  · obtain ⟨cs, hcs⟩ := h.view_line hc
    refine ⟨_, hcs, ?_⟩
    rw [foot_append]
    rfl

/-- In every state the service comes to, a patch of a category that goes through moves its
branch, for everyone who sees it. -/
theorem category_branch_moves (env : Env) (lib : ModelLibrary) {before : List Request}
    (hbefore : ∀ r ∈ before, r.Admitted env lib) {req : CategoryUpdate} :
    let db := (run (serve env) World.initial before).backend.db
    ∀ db' new, updateCategory env.settings db user i req = .ok (db', new) →
      ∃ row, loadCategory db user i = .ok row ∧
        ∀ viewer, inScope viewer new = true → BranchMoved db db' viewer row new := by
  intro db db' new hu
  have hforest : ForestInv env.settings db := (spelledForest_run hbefore).forest
  obtain ⟨row, hload, -⟩ := updateCategory_ok hu
  refine ⟨row, hload, fun viewer hsees => ?_⟩
  obtain ⟨row', up, hload', hlinks, hrewritten⟩ := hforest.rewritten hu hsees
  obtain rfl := Except.ok.inj (hload'.symm.trans hload)
  exact ⟨hlinks, hrewritten.mem, hrewritten.place, fun c hc hout => hrewritten.path_outside hc hout,
    fun c hc hin => hrewritten.path_inside hc hin, fun a ha c hc => hrewritten.branches ha hc⟩

/-- A category with another below it, and that with one more. -/
def nestedRequests : List Request :=
  [.category (.create (.ordinary 1) ⟨"work", "work", none, by decide, by decide⟩),
    .category (.create (.ordinary 1) ⟨"bills", "bills", some 1, by decide, by decide⟩),
    .category (.create (.ordinary 1) ⟨"may", "may", some 2, by decide, by decide⟩)]

/-- The middle one to the top, under another name. -/
def liftedUpdate : CategoryUpdate := ⟨"paid", "paid", some none, by decide, by decide⟩

theorem category_branch_moves_lifted :
    let db := (run (serve Env.default) World.initial nestedRequests).backend.db
    ∃ db' row new, updateCategory Settings.default db (.ordinary 1) 2 liftedUpdate =
        .ok (db', new) ∧ BranchMoved db db' (.ordinary 1) row new ∧
      pathFor db (.ordinary 1) 3 = some "work/bills/may" ∧
        pathFor db' (.ordinary 1) 3 = some "paid/may" := by
  intro db
  have hmoved : ∃ db' new, updateCategory Settings.default db (.ordinary 1) 2 liftedUpdate =
      .ok (db', new) ∧ inScope (.ordinary 1) new = true ∧
        pathFor db (.ordinary 1) 3 = some "work/bills/may" ∧
          pathFor db' (.ordinary 1) 3 = some "paid/may" := by
    have hresult : ((updateCategory Settings.default db (.ordinary 1) 2 liftedUpdate).toOption.map
        fun r => (inScope (.ordinary 1) r.2, pathFor r.1 (.ordinary 1) 3)) =
          some (true, some "paid/may") := by
      decide +kernel
    obtain ⟨⟨db', new⟩, hres, hboth⟩ := Option.map_eq_some_iff.mp hresult
    obtain ⟨hsees, hpath⟩ := Prod.mk.inj hboth
    refine ⟨db', new, ?_, hsees, by decide +kernel, hpath⟩
    cases hu : updateCategory Settings.default db (.ordinary 1) 2 liftedUpdate with
    | error e =>
      rw [hu] at hres
      cases hres
    | ok res =>
      rw [hu] at hres
      exact congrArg Except.ok (Option.some.inj hres)
  obtain ⟨db', new, hu, hsees, hpath, hpath'⟩ := hmoved
  have hadmitted : ∀ r ∈ nestedRequests, r.Admitted Env.default ModelLibrary.plain := by
    intro r hr
    simp only [nestedRequests, List.mem_cons, List.not_mem_nil, or_false] at hr
    rcases hr with rfl | rfl | rfl
    · exact (by decide +kernel : "work" = Env.default.slugify "work")
    · exact (by decide +kernel : "bills" = Env.default.slugify "bills")
    · exact (by decide +kernel : "may" = Env.default.slugify "may")
  obtain ⟨row, -, hmoves⟩ :=
    category_branch_moves Env.default ModelLibrary.plain hadmitted db' new hu
  exact ⟨db', row, new, hu, hmoves _ hsees, hpath, hpath'⟩

end MediaService
