import MediaService.Invariants.CategoryPaths

/-! The views of one set of category rows: the nested tree, the branch collected from a
row downwards, and the path climbed from a row upwards. Each node of the tree stands for
a row at the end of a line from the top, and has below it what the other two walks meet. -/

namespace MediaService

open Foundation ParentMap

variable {t : Table Category.id} {rows : List Category} {counts : ℤ → ℕ} {c d : Category}
  {above cs : List Category} {i j : ℤ} {n levels : ℕ}

/-! ### Branches -/

/-- The second category is the first or a descendant of it. -/
def InBranch (rows : List Category) (i j : ℤ) : Prop := ∃ k, (treeParent rows).Below i j k

theorem child_treeParent : Child (treeParent t.rows) j i ↔
    (∃ d ∈ t, d.id = j ∧ d.parentId = some i) ∧ ∃ c ∈ t, c.id = i := by
  rw [Child, treeParent, Option.map_eq_some_iff]
  constructor
  · rintro ⟨d, hd, hp⟩
    obtain ⟨hp, hany⟩ := Option.filter_eq_some_iff.mp hp
    obtain ⟨c, hc, hid⟩ := List.any_eq_true.mp hany
    exact ⟨⟨d, List.mem_of_find?_eq_some hd, by simpa using List.find?_some hd, hp⟩, c, hc,
      of_decide_eq_true hid⟩
  · rintro ⟨⟨d, hd, rfl, hp⟩, c, hc, rfl⟩
    refine ⟨d, Table.find_of_mem hd, Option.filter_eq_some_iff.mpr ⟨hp, ?_⟩⟩
    exact List.any_eq_true.mpr ⟨c, hc, decide_eq_true rfl⟩

theorem depth_le (hd : (treeParent t.rows).Depth i n) : n ≤ t.rows.length := by
  rw [← List.length_map Category.id]
  refine hd.le_length _ fun x hx => ?_
  obtain ⟨c, hc, rfl⟩ := treeParent_ne_none.mp hx
  exact List.mem_map_of_mem hc

/-- Going down from a row leads to its children in the tree. -/
theorem mem_childrenOf_iff (hrows : rows.Perm t.rows) (hi : treeParent t.rows i ≠ none) :
    j ∈ childrenOf rows i ↔ Child (treeParent t.rows) j i := by
  rw [mem_childrenOf, child_treeParent, and_iff_left (treeParent_ne_none.mp hi)]
  exact exists_congr fun d => and_congr_left' hrows.mem_iff

theorem childrenOf_eq (rows : List Category) (i : ℤ) :
    childrenOf rows i = (rows.filter fun c => c.parentId = some i).map Category.id := by
  unfold childrenOf childEdges
  induction rows with
  | nil => rfl
  | cons c rows ih =>
    cases hp : c.parentId with
    | none => simpa [hp] using ih
    | some p =>
      by_cases hpi : p = i
      · simpa [hp, hpi] using ih
      · simpa [hp, hpi] using ih

theorem nodup_childrenOf (hrows : rows.Perm t.rows) (i : ℤ) : (childrenOf rows i).Nodup := by
  rw [childrenOf_eq]
  exact ((hrows.map Category.id).nodup_iff.mpr t.nodup).sublist (List.filter_sublist.map _)

/-- The branch collected below a row is its branch of the tree, each row once. -/
theorem mem_collectBranchIds (hi : treeParent t.rows i ≠ none) :
    j ∈ collectBranchIds t.rows i ↔ InBranch t.rows i j := by
  rw [collectBranchIds, mem_branchWalk]
  constructor
  · intro h
    induction h with
    | refl => exact ⟨0, .refl⟩
    | tail _ hc ih =>
      obtain ⟨k, hk⟩ := ih
      refine ⟨k + 1, .child ?_ hk⟩
      refine (mem_childrenOf_iff (List.Perm.refl _) ?_).mp hc
      cases hk with
      | refl => exact hi
      | child hp _ =>
        rw [hp]
        nofun
  · rintro ⟨k, hk⟩
    induction hk with
    | refl => exact .refl
    | child hc _ ih =>
      obtain ⟨⟨d, hd, hid, hp⟩, -⟩ := child_treeParent.mp hc
      exact ih.tail (mem_childrenOf.mpr ⟨d, hd, hid, hp⟩)

/-! ### Nodes -/

def CategoryNode.category : CategoryNode → Category
  | .mk c _ _ _ => c

mutual

/-- The nodes of a branch, parents first. -/
def CategoryNode.nodes : CategoryNode → List CategoryNode
  | .mk c count total children => .mk c count total children :: CategoryNode.nodesList children

def CategoryNode.nodesList : List CategoryNode → List CategoryNode
  | [] => []
  | node :: nodes => node.nodes ++ CategoryNode.nodesList nodes

end

mutual

/-- The nodes of a branch, each with the categories from the root down to its own. -/
def CategoryNode.lines (above : List Category) :
    CategoryNode → List (List Category × CategoryNode)
  | .mk c count total children =>
    (above ++ [c], .mk c count total children) :: CategoryNode.linesList (above ++ [c]) children

def CategoryNode.linesList (above : List Category) :
    List CategoryNode → List (List Category × CategoryNode)
  | [] => []
  | node :: nodes => node.lines above ++ CategoryNode.linesList above nodes

end

mutual

theorem CategoryNode.map_snd_lines (above : List Category) :
    (node : CategoryNode) → (node.lines above).map Prod.snd = node.nodes
  | .mk c count total children => by
    rw [CategoryNode.lines, CategoryNode.nodes, List.map_cons,
      CategoryNode.map_snd_linesList (above ++ [c]) children]

theorem CategoryNode.map_snd_linesList (above : List Category) : (nodes : List CategoryNode) →
    (CategoryNode.linesList above nodes).map Prod.snd = CategoryNode.nodesList nodes
  | [] => rfl
  | node :: nodes => by
    rw [CategoryNode.linesList, CategoryNode.nodesList, List.map_append,
      CategoryNode.map_snd_lines above node, CategoryNode.map_snd_linesList above nodes]

end

mutual

theorem CategoryNode.count_eq : (node : CategoryNode) → node.count = node.nodes.length
  | .mk c count total children => by
    rw [CategoryNode.count, CategoryNode.nodes, List.length_cons,
      countCategoryNodes_eq children, Nat.add_comm]

/-- Counting the nodes at every depth counts the nodes. -/
theorem countCategoryNodes_eq : (nodes : List CategoryNode) →
    countCategoryNodes nodes = (CategoryNode.nodesList nodes).length
  | [] => rfl
  | node :: nodes => by
    rw [countCategoryNodes, CategoryNode.nodesList, List.length_append, CategoryNode.count_eq node,
      countCategoryNodes_eq nodes]

end

theorem CategoryNode.mem_nodesList {node : CategoryNode} {nodes : List CategoryNode} :
    node ∈ CategoryNode.nodesList nodes ↔ ∃ top ∈ nodes, node ∈ top.nodes := by
  induction nodes with
  | nil => simp [CategoryNode.nodesList]
  | cons top nodes ih => simp [CategoryNode.nodesList, ih]

theorem CategoryNode.mem_linesList {e : List Category × CategoryNode} {nodes : List CategoryNode} :
    e ∈ CategoryNode.linesList above nodes ↔ ∃ top ∈ nodes, e ∈ top.lines above := by
  induction nodes with
  | nil => simp [CategoryNode.linesList]
  | cons top nodes ih => simp [CategoryNode.linesList, ih]

theorem CategoryNode.nodesList_eq (nodes : List CategoryNode) :
    CategoryNode.nodesList nodes = nodes.flatMap CategoryNode.nodes := by
  induction nodes with
  | nil => rfl
  | cons node nodes ih => rw [CategoryNode.nodesList, ih, List.flatMap_cons]

theorem category_categoryNode (counts : ℤ → ℕ) :
    (categoryNode rows counts levels c).category = c := by
  cases levels <;> rfl

theorem CategoryNode.mem_nodes (node : CategoryNode) : node ∈ node.nodes := by
  cases node
  exact List.mem_cons_self

/-! ### One node -/

/-- A node has below it the branch of its row. -/
theorem ids_categoryNode : (categoryNode rows counts levels c).nodes.map (fun node =>
    node.category.id) = branch (childrenOf rows) levels c.id := by
  induction levels generalizing c with
  | zero => rfl
  | succ levels ih =>
    rw [categoryNode, CategoryNode.nodes, List.map_cons, branch, CategoryNode.nodesList_eq,
      List.flatMap_map, List.map_flatMap, childrenOf_eq, List.flatMap_map]
    simp only [ih]
    rfl

/-- Its total adds up the counts of that branch. -/
theorem total_categoryNode : (categoryNode rows counts levels c).totalObjectCount =
    ((branch (childrenOf rows) levels c.id).map counts).sum := by
  induction levels generalizing c with
  | zero => simp [categoryNode, CategoryNode.totalObjectCount, branch]
  | succ levels ih =>
    rw [categoryNode, CategoryNode.totalObjectCount, branch, List.map_cons, List.sum_cons,
      List.map_flatMap, childrenOf_eq, List.flatMap_map, List.flatMap_def, List.sum_flatten,
      List.map_map, List.map_map]
    simp only [Function.comp_def, ih]

/-- The nodes below a row at the end of a line are each at the end of a longer one. -/
theorem line_of_mem_lines {a : Option ℤ} (hrows : rows.Perm t.rows)
    (hline : Line t a (above ++ [c])) {e : List Category × CategoryNode}
    (he : e ∈ (categoryNode rows counts levels c).lines above) :
    ∃ cs d m, e = (cs ++ [d], categoryNode rows counts m d) ∧ Line t a (cs ++ [d]) ∧
      levels + above.length = m + cs.length := by
  induction levels generalizing c above with
  | zero =>
    obtain rfl := List.mem_singleton.mp he
    exact ⟨above, c, 0, rfl, hline, rfl⟩
  | succ levels ih =>
    rcases List.mem_cons.mp he with rfl | he
    · exact ⟨above, c, levels + 1, rfl, hline, rfl⟩
    · obtain ⟨top, htop, he⟩ := CategoryNode.mem_linesList.mp he
      obtain ⟨k, hk, rfl⟩ := List.mem_map.mp htop
      obtain ⟨hk, hp⟩ := List.mem_filter.mp hk
      have hfoot : foot a (above ++ [c]) = some c.id := by
        rw [foot_append]
        rfl
      obtain ⟨cs, d, m, rfl, hd, hlevels⟩ := ih (line_snoc.mpr ⟨hline, hrows.mem_iff.mp hk,
        hfoot ▸ of_decide_eq_true hp⟩) he
      refine ⟨cs, d, m, rfl, hd, ?_⟩
      rw [List.length_append, List.length_singleton] at hlevels
      omega

/-- So the branch below it is the one collected from its row. -/
theorem branch_perm {a : Option ℤ} (hrows : rows.Perm t.rows) (ha : Topmost t a)
    (hline : Line t a (cs ++ [c])) (hlevels : t.rows.length = levels + cs.length) :
    (branch (childrenOf rows) levels c.id).Perm (collectBranchIds t.rows c.id) := by
  have hdepth := hline.treeDepth ha
  have hchildren : ∀ i, treeParent t.rows i ≠ none → ∀ j, j ∈ childrenOf rows i ↔
      Child (treeParent t.rows) j i := fun i hi j => mem_childrenOf_iff hrows hi
  refine (List.perm_ext_iff_of_nodup (nodup_branch hchildren (nodup_childrenOf hrows) hdepth)
    (nodup_branchWalk _ _ _)).mpr fun j => ?_
  rw [mem_branch hchildren hdepth.node_ne_none]
  · exact (mem_collectBranchIds hdepth.node_ne_none).symm
  · intro y k hk
    have := depth_le (hk.depth hdepth)
    omega

/-! ### The tree -/

/-- The tree is made of the rows in some order, from those without a parent among them. -/
theorem buildCategoryTree_eq (env : Env) (t : Table Category.id) (counts : ℤ → ℕ) :
    ∃ rows roots : List Category, rows.Perm t.rows ∧ roots.Sublist rows ∧
      (∀ c, c ∈ roots ↔ c ∈ t ∧ Topmost t c.parentId) ∧
      buildCategoryTree env t.rows counts =
        roots.map (categoryNode rows counts t.rows.length) := by
  have hrows := List.perm_insertionSort (fun c c' : Category =>
    (env.lower c.name).toList ≤ (env.lower c'.name).toList) t.rows
  unfold buildCategoryTree
  dsimp only
  rw [hrows.length_eq]
  refine ⟨_, _, hrows, List.filter_sublist, fun c => ?_, rfl⟩
  rw [List.mem_filter, hrows.mem_iff]
  refine and_congr_right fun _ => ?_
  simp only [Topmost, Option.all_eq_true, Bool.not_eq_true', List.any_eq_false, hrows.mem_iff,
    decide_eq_true_eq]
  rfl

/-- Every node of the tree stands for a row at the end of a line from the top. -/
theorem line_of_mem_tree (env : Env) {e : List Category × CategoryNode}
    (he : e ∈ CategoryNode.linesList [] (buildCategoryTree env t.rows counts)) :
    ∃ rows a cs d m, rows.Perm t.rows ∧ Topmost t a ∧ Line t a (cs ++ [d]) ∧
      t.rows.length = m + cs.length ∧ e = (cs ++ [d], categoryNode rows counts m d) := by
  obtain ⟨rows, roots, hrows, -, hroots, htree⟩ := buildCategoryTree_eq env t counts
  rw [htree] at he
  obtain ⟨top, htop, he⟩ := CategoryNode.mem_linesList.mp he
  obtain ⟨c, hc, rfl⟩ := List.mem_map.mp htop
  obtain ⟨hc, habove⟩ := (hroots c).mp hc
  obtain ⟨cs, d, m, rfl, hline, hlevels⟩ := line_of_mem_lines hrows
    (line_snoc.mpr ⟨trivial, hc, rfl⟩ : Line t c.parentId ([] ++ [c])) he
  exact ⟨rows, _, cs, d, m, hrows, habove, hline, hlevels, rfl⟩

/-- No category climbs to itself. -/
def Acyclic (rows : List Category) : Prop :=
  ∀ i, ¬ Relation.TransGen (fun i p => parentOf rows i = some p) i i

/-- Where no category climbs to itself, each is below a root. -/
theorem exists_depth (h : Acyclic t.rows) (hc : c ∈ t) :
    ∃ n, Depth (treeParent t.rows) c.id n := by
  refine grounded_of_acyclic (t.rows.map Category.id) ?_ ?_ ?_ c.id
    (treeParent_ne_none.mpr ⟨c, hc, rfl⟩)
  · intro x hx
    obtain ⟨d, hd, rfl⟩ := treeParent_ne_none.mp hx
    exact List.mem_map_of_mem hd
  · intro x p hx
    exact treeParent_ne_none.mpr (child_treeParent.mp hx).2
  · intro x hx
    refine h x (Relation.TransGen.mono (fun i p hp => ?_) x x hx)
    obtain ⟨⟨d, hd, rfl, hparent⟩, -⟩ := child_treeParent.mp hp
    rw [parentOf, parentMap_of_mem hd, hparent]
    rfl

/-- The tree has a node for each row, and no other. -/
theorem perm_buildCategoryTree (env : Env) (h : Acyclic t.rows) (counts : ℤ → ℕ) :
    ((CategoryNode.nodesList (buildCategoryTree env t.rows counts)).map
      CategoryNode.category).Perm t.rows := by
  obtain ⟨rows, roots, hrows, hsub, hroots, htree⟩ := buildCategoryTree_eq env t counts
  have hchildren : ∀ i, treeParent t.rows i ≠ none → ∀ j, j ∈ childrenOf rows i ↔
      Child (treeParent t.rows) j i := fun i hi j => mem_childrenOf_iff hrows hi
  have hroot : ∀ c ∈ roots, Depth (treeParent t.rows) c.id 1 := fun c hc =>
    (line_snoc.mpr ⟨trivial, ((hroots c).mp hc).1, rfl⟩ :
      Line t c.parentId ([] ++ [c])).treeDepth ((hroots c).mp hc).2
  have hids : ((CategoryNode.nodesList (buildCategoryTree env t.rows counts)).map
      CategoryNode.category).map Category.id =
      roots.flatMap fun c => branch (childrenOf rows) t.rows.length c.id := by
    rw [htree, CategoryNode.nodesList_eq, List.map_map, List.flatMap_map, List.map_flatMap]
    simp only [← @ids_categoryNode rows counts]
    rfl
  have hnodup : (((CategoryNode.nodesList (buildCategoryTree env t.rows counts)).map
      CategoryNode.category).map Category.id).Nodup := by
    rw [hids, List.nodup_flatMap]
    have hrootIds : (roots.map Category.id).Nodup :=
      ((hrows.map Category.id).nodup_iff.mpr t.nodup).sublist (hsub.map _)
    refine ⟨fun c hc => nodup_branch hchildren (nodup_childrenOf hrows) (hroot c hc),
      (List.pairwise_map.mp hrootIds).imp_of_mem fun {c d} hc hd hne z hz hz' => hne ?_⟩
    obtain ⟨k, hk⟩ := below_of_mem_branch hchildren (hroot c hc).node_ne_none hz
    obtain ⟨m, hm⟩ := below_of_mem_branch hchildren (hroot d hd).node_ne_none hz'
    have := (hk.depth (hroot c hc)).unique (hm.depth (hroot d hd))
    obtain rfl : k = m := by omega
    exact hk.unique hm
  have hrow : ∀ c ∈ (CategoryNode.nodesList (buildCategoryTree env t.rows counts)).map
      CategoryNode.category, c ∈ t := by
    intro c hc
    obtain ⟨node, hnode, rfl⟩ := List.mem_map.mp hc
    rw [← CategoryNode.map_snd_linesList []] at hnode
    obtain ⟨e, he, rfl⟩ := List.mem_map.mp hnode
    obtain ⟨rows, a, cs, d, m, -, -, hline, -, rfl⟩ := line_of_mem_tree env he
    rw [category_categoryNode]
    exact hline.mem (by simp)
  refine (List.perm_ext_iff_of_nodup (List.Nodup.of_map _ hnodup)
    (List.Nodup.of_map _ t.nodup)).mpr fun c => ⟨hrow c, fun hc => ?_⟩
  -- The root above a row has it in its branch.
  obtain ⟨n, hn⟩ := exists_depth h hc
  obtain ⟨r, hr, k, hk⟩ := hn.exists_root
  have hlisted : c.id ∈ ((CategoryNode.nodesList (buildCategoryTree env t.rows counts)).map
      CategoryNode.category).map Category.id := by
    obtain ⟨r, hmem, rfl⟩ := treeParent_ne_none.mp (by rw [hr]; nofun)
    rw [treeParent_of_mem hmem, Option.some_inj] at hr
    have hin := (hroots r).mpr ⟨hmem, topmost_iff.mpr hr⟩
    rw [hids]
    refine List.mem_flatMap.mpr ⟨r, hin, (mem_branch hchildren (hroot r hin).node_ne_none ?_).mpr
      ⟨k, hk⟩⟩
    intro y m hm
    have := depth_le (hm.depth (hroot r hin))
    omega
  obtain ⟨d, hd, hid⟩ := List.mem_map.mp hlisted
  rwa [Table.eq_of_key_eq (hrow d hd) hc hid] at hd

/-- The views of a set of rows agree with its tree: every row is in it once; below a node
are the rows collected from its own, and its total adds up their counts; the slugs from
the top down to it spell the path of its row; and its nodes are as many as the rows. -/
structure ViewsAgree (rows : List Category) (counts : ℤ → ℕ) (tree : List CategoryNode) :
    Prop where
  once : ((CategoryNode.nodesList tree).map CategoryNode.category).Perm rows
  branch : ∀ node ∈ CategoryNode.nodesList tree, (node.nodes.map fun m => m.category.id).Perm
    (collectBranchIds rows node.category.id)
  path : ∀ e ∈ CategoryNode.linesList [] tree, categoryPath rows e.2.category.id =
    some ("/".intercalate (e.1.map Category.slug))
  total : ∀ node ∈ CategoryNode.nodesList tree, node.totalObjectCount =
    ((collectBranchIds rows node.category.id).map counts).sum
  count : countCategoryNodes tree = rows.length

/-- They do for rows of which none climbs to itself, wherever the parents of the topmost
ones are. -/
theorem viewsAgree_buildCategoryTree (env : Env) (rows : List Category)
    (hids : (rows.map Category.id).Nodup) (h : Acyclic rows) (counts : ℤ → ℕ) :
    ViewsAgree rows counts (buildCategoryTree env rows counts) := by
  obtain ⟨t, rfl⟩ : ∃ t : Table Category.id, t.rows = rows := ⟨⟨rows, hids⟩, rfl⟩
  have hnode : ∀ node ∈ CategoryNode.nodesList (buildCategoryTree env t.rows counts),
      ∃ rows a cs d m, rows.Perm t.rows ∧ Topmost t a ∧ Line t a (cs ++ [d]) ∧
        t.rows.length = m + cs.length ∧ node = categoryNode rows counts m d := by
    intro node hnode
    rw [← CategoryNode.map_snd_linesList []] at hnode
    obtain ⟨e, he, rfl⟩ := List.mem_map.mp hnode
    obtain ⟨rows, a, cs, d, m, hrows, ha, hline, hlevels, rfl⟩ := line_of_mem_tree env he
    exact ⟨rows, a, cs, d, m, hrows, ha, hline, hlevels, rfl⟩
  have honce := perm_buildCategoryTree env h counts
  refine ⟨honce, fun node hmem => ?_, fun e he => ?_, fun node hmem => ?_, ?_⟩
  · obtain ⟨rows, a, cs, d, m, hrows, ha, hline, hlevels, rfl⟩ := hnode node hmem
    rw [ids_categoryNode, category_categoryNode]
    exact branch_perm hrows ha hline hlevels
  · obtain ⟨rows, a, cs, d, m, hrows, ha, hline, hlevels, rfl⟩ := line_of_mem_tree env he
    rw [category_categoryNode]
    exact categoryPath_topmost hline ha
  · obtain ⟨rows, a, cs, d, m, hrows, ha, hline, hlevels, rfl⟩ := hnode node hmem
    rw [total_categoryNode, category_categoryNode]
    exact ((branch_perm hrows ha hline hlevels).map counts).sum_eq
  · rw [countCategoryNodes_eq, ← List.length_map CategoryNode.category, honce.length_eq]

/-- Three rows, one of them below a missing parent. -/
def danglingRows : List Category :=
  [⟨1, "b", "b", none, ⟨1⟩, none⟩, ⟨2, "a", "a", some 0, ⟨1⟩, none⟩,
    ⟨3, "c", "c", some 2, ⟨1⟩, none⟩]

theorem viewsAgree_danglingRows :
    ViewsAgree danglingRows (fun _ => 1) (buildCategoryTree .default danglingRows fun _ => 1) := by
  refine viewsAgree_buildCategoryTree .default danglingRows (by decide) (fun i hi => ?_) _
  have hstep : ∀ i p, parentOf danglingRows i = some p → p < i := by
    intro i p hp
    obtain ⟨c, hfind, hparent⟩ := Option.map_eq_some_iff.mp (Option.join_eq_some_iff.mp hp)
    obtain rfl : c.id = i := by simpa using List.find?_some hfind
    have hbelow : ∀ c ∈ danglingRows, ∀ p ∈ c.parentId, p < c.id := by decide
    exact hbelow c (List.mem_of_find?_eq_some hfind) p hparent
  have hlt : ∀ j, Relation.TransGen (fun i p => parentOf danglingRows i = some p) i j → j < i := by
    intro j hj
    induction hj with
    | single h => exact hstep _ _ h
    | tail _ h ih => exact (hstep _ _ h).trans ih
  exact lt_irrefl i (hlt i hi)

end MediaService
