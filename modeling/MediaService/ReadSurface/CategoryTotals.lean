import Mathlib.Data.Finset.Card
import MediaService.ReadSurface.CategoryViews
import MediaService.Scenario

/-! The totals of the category tree. A node adds up the filings of its branch, and the
number it promises is that of the objects filed there. An object that is filed twice
into one tree is counted twice at its root, so the two agree at every node exactly if
no object is. -/

namespace MediaService

open Foundation ParentMap

variable {t : Table Category.id} {rows : List Category} {links : Finset (UUID × ℤ)} {i j : ℤ}

/-! ### Counting -/

/-- Disjoint selections add up to their union. -/
theorem sum_card_filter {α β : Type*} {l : List α} (hl : l.Nodup) (s : Finset β)
    (p : α → β → Prop) [∀ a, DecidablePred (p a)]
    (hp : ∀ a ∈ l, ∀ a' ∈ l, ∀ b, p a b → p a' b → a = a') :
    (l.map fun a => (s.filter (p a)).card).sum = (s.filter fun b => ∃ a ∈ l, p a b).card := by
  classical
  induction l with
  | nil => simp
  | cons a l ih =>
    obtain ⟨ha, hl⟩ := List.nodup_cons.mp hl
    have hdisjoint : Disjoint (s.filter (p a)) (s.filter fun b => ∃ a ∈ l, p a b) := by
      refine Finset.disjoint_filter.mpr fun b _ hb ⟨a', ha', hb'⟩ => ha ?_
      exact hp a List.mem_cons_self a' (List.mem_cons_of_mem a ha') b hb hb' ▸ ha'
    rw [List.map_cons, List.sum_cons, ih hl fun a' h a'' h' =>
      hp a' (List.mem_cons_of_mem a h) a'' (List.mem_cons_of_mem a h'),
      ← Finset.card_union_of_disjoint hdisjoint, ← Finset.filter_or]
    simp only [List.mem_cons, exists_eq_or_imp]

/-! ### Totals of a tree -/

theorem InBranch.trans {z : ℤ} (h : InBranch rows i j) (h' : InBranch rows j z) :
    InBranch rows i z := by
  obtain ⟨k, hk⟩ := h
  obtain ⟨m, hm⟩ := h'
  exact ⟨k + m, hk.trans hm⟩

open Classical in
/-- The counts of a branch are those of the filings in it. -/
theorem sum_collectBranchIds (hi : treeParent t.rows i ≠ none) :
    ((collectBranchIds t.rows i).map fun j => (links.filter (·.2 = j)).card).sum =
      (links.filter fun l => InBranch t.rows i l.2).card := by
  have hnodup : (collectBranchIds t.rows i).Nodup := nodup_branchWalk _ _ _
  rw [sum_card_filter hnodup links (fun j l => l.2 = j)
    fun j _ j' _ l hj hj' => hj.symm.trans hj']
  refine congrArg Finset.card (Finset.filter_congr fun l _ => ?_)
  simp only [exists_eq_right', mem_collectBranchIds hi]

open Classical in
/-- The objects filed on a category of the caller's or on a descendant of it. -/
noncomputable def objectsInBranch (db : Database) (user : UserModel) (i : ℤ) : Finset UUID :=
  (db.links.filter fun l => InBranch (scopedCategories db user) i l.2).image Prod.fst

/-- An object is filed on two categories that have a root in common. -/
def FiledTwice (db : Database) (user : UserModel) : Prop :=
  ∃ id i j, (id, i) ∈ db.links ∧ (id, j) ∈ db.links ∧ i ≠ j ∧
    ∃ r, treeParent (scopedCategories db user) r = some none ∧
      InBranch (scopedCategories db user) r i ∧ InBranch (scopedCategories db user) r j

/-- The totals of the tree count distinct objects, exactly if no object is filed twice
into one tree. -/
theorem totalObjectCount_distinct_iff (env : Env) (db : Database) (user : UserModel) :
    (∀ node ∈ CategoryNode.nodesList (getCategoryTree env db user),
        node.totalObjectCount = (objectsInBranch db user node.category.id).card) ↔
      ¬ FiledTwice db user := by
  classical
  let t : Table Category.id := db.categories.filter (inScope user)
  have ht : scopedCategories db user = t.rows := rfl
  have htotal : ∀ {rows a cs c m}, rows.Perm t.rows → Topmost t a → Line t a (cs ++ [c]) →
      t.rows.length = m + cs.length →
      (categoryNode rows (fun i => (db.links.filter (·.2 = i)).card) m c).totalObjectCount =
        (db.links.filter fun l => InBranch t.rows c.id l.2).card := by
    intro rows a cs c m hrows ha hline hlevels
    rw [total_categoryNode, ((branch_perm hrows ha hline hlevels).map _).sum_eq,
      sum_collectBranchIds (hline.treeDepth ha).node_ne_none]
  unfold getCategoryTree objectsInBranch FiledTwice
  rw [ht]
  constructor
  · rintro h ⟨id, i, j, hi, hj, hne, r, hr, hri, hrj⟩
    obtain ⟨rows, roots, hrows, -, hroots, htree⟩ := buildCategoryTree_eq env t
      fun i => (db.links.filter (·.2 = i)).card
    obtain ⟨c, hc, rfl⟩ := treeParent_ne_none.mp (by rw [hr]; nofun)
    rw [treeParent_of_mem hc, Option.some_inj, ← topmost_iff] at hr
    have hcount := h _ (by
      rw [htree]
      exact CategoryNode.mem_nodesList.mpr ⟨_, List.mem_map_of_mem ((hroots c).mpr ⟨hc, hr⟩),
        CategoryNode.mem_nodes _⟩)
    rw [htotal hrows hr (line_snoc.mpr ⟨trivial, hc, rfl⟩ : Line t c.parentId ([] ++ [c])) rfl,
      category_categoryNode, eq_comm, Finset.card_image_iff] at hcount
    have hpair := hcount (Finset.mem_filter.mpr ⟨hi, hri⟩) (Finset.mem_filter.mpr ⟨hj, hrj⟩) rfl
    exact hne (Prod.mk.inj hpair).2
  · intro h node hnode
    rw [← CategoryNode.map_snd_linesList []] at hnode
    obtain ⟨e, he, rfl⟩ := List.mem_map.mp hnode
    obtain ⟨rows, a, cs, c, m, hrows, ha, hline, hlevels, rfl⟩ := line_of_mem_tree env he
    obtain ⟨r, hr, k, hk⟩ := (hline.treeDepth ha).exists_root
    rw [htotal hrows ha hline hlevels, category_categoryNode, eq_comm, Finset.card_image_iff]
    rintro ⟨id, i⟩ hi ⟨id', j⟩ hj rfl
    obtain ⟨hi, hbi⟩ := Finset.mem_filter.mp hi
    obtain ⟨hj, hbj⟩ := Finset.mem_filter.mp hj
    by_contra hne
    exact h ⟨id, i, j, hi, hj, fun heq => hne (heq ▸ rfl), r, hr, InBranch.trans ⟨k, hk⟩ hbi,
      InBranch.trans ⟨k, hk⟩ hbj⟩

/-- A category of the caller's with one below it. -/
def nestedCategories : Table Category.id where
  rows := [⟨1, "a", "a", none, ⟨1⟩, none⟩, ⟨2, "b", "b", some 1, ⟨1⟩, none⟩]
  nodup := by decide

/-- One object is filed on both. -/
def nestedDatabase : Database :=
  { Database.empty with categories := nestedCategories, links := {(⟨7⟩, 1), (⟨7⟩, 2)} }

/-- The root counts the object twice. -/
theorem not_totalObjectCount_distinct :
    ¬ ∀ node ∈ CategoryNode.nodesList (getCategoryTree .default nestedDatabase (.ordinary 1)),
      node.totalObjectCount = (objectsInBranch nestedDatabase (.ordinary 1)
        node.category.id).card := by
  classical
  intro h
  have hroot : ∃ node ∈ CategoryNode.nodesList (getCategoryTree .default nestedDatabase
      (.ordinary 1)), node.totalObjectCount = 2 := by
    decide +kernel
  obtain ⟨node, hnode, htotal⟩ := hroot
  have hone : objectsInBranch nestedDatabase (.ordinary 1) node.category.id ⊆ {⟨7⟩} := by
    intro id hid
    obtain ⟨l, hl, rfl⟩ := Finset.mem_image.mp hid
    have := (Finset.mem_filter.mp hl).1
    simp only [nestedDatabase, Finset.mem_insert, Finset.mem_singleton] at this
    rcases this with rfl | rfl <;> exact Finset.mem_singleton_self _
  have hcard := Finset.card_le_card hone
  rw [← h node hnode, htotal, Finset.card_singleton] at hcard
  omega

end MediaService
