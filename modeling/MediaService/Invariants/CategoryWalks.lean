import MediaService.Foundation.Walks
import MediaService.Invariants.CategoryForest

/-! The category walks as the loops that the service runs. Nothing is asked of the rows: on
every table, with cycles, rows below themselves and parents that are missing, each loop ends
with the value that the bounded recursions compute and visits no id twice. -/

namespace MediaService

open Foundation Foundation.Loop

variable {db : Database} {rows : List Category}

/-! ### The loops -/

def rowOf (rows : List Category) (i : ℤ) : Option Category := rows.find? fun c => c.id = i

/-- The loop of `_reject_cycle`. -/
def cycleBody (db : Database) (categoryId : ℤ) (s : Climb ℤ Unit) :
    Climb ℤ Unit ⊕ Except Failure Unit :=
  match s.current with
  | none => .inr (.ok ())
  | some ancestorId =>
    if ancestorId = categoryId then
      .inr (refuse 409 "A category cannot be nested under itself or its descendants.")
    else if ancestorId ∈ s.seen then .inr (.ok ())
    else
      match db.categories.find ancestorId with
      | none => .inr (.ok ())
      | some ancestor => .inl ⟨ancestorId :: s.seen, ancestor.parentId, ()⟩

/-- The loop up of `_reject_depth_overflow`. -/
def parentDepthBody (rows : List Category) : Climb ℤ ℕ → Climb ℤ ℕ ⊕ ℕ :=
  climbBody (rowOf rows) Category.parentId fun depth _ => depth + 1

/-- The loop down of `_reject_depth_overflow`. -/
def branchHeightBody (rows : List Category) : Descent (ℤ × ℕ) ℤ ℕ → Descent (ℤ × ℕ) ℤ ℕ ⊕ ℕ :=
  descendBody Prod.fst (fun e => (childrenOf rows e.1).map fun c => (c, e.2 + 1))
    fun height e => max height e.2

/-- The loop of `collect_branch_ids`. -/
def branchIdsBody (rows : List Category) : Descent ℤ ℤ (List ℤ) → Descent ℤ ℤ (List ℤ) ⊕ List ℤ :=
  descendBody id (childrenOf rows) fun collected current => collected ++ [current]

/-- The inner loop of `resolve_category_paths`. -/
def categoryPathBody (rows : List Category) :
    Climb ℤ (List String) → Climb ℤ (List String) ⊕ List String :=
  climbBody (rowOf rows) Category.parentId fun segments parent => segments ++ [parent.slug]

/-- The walk ends with this result, and visits no id twice and none it starts from. -/
def Walks {σ β : Type} (body : σ → σ ⊕ β) (here : σ → Option ℤ) (seen : σ → List ℤ) (s : σ)
    (r : β) : Prop :=
  ∃ ss, Runs body s ss r ∧ (visits here seen ss).Nodup ∧ ∀ a ∈ visits here seen ss, a ∉ seen s

theorem walks_of_runs {σ β : Type} {body : σ → σ ⊕ β} {here : σ → Option ℤ} {seen : σ → List ℤ}
    (hmarks : Marks body here seen) {s : σ} {r : β} (h : ∃ ss, Runs body s ss r) :
    Walks body here seen s r := by
  obtain ⟨ss, hss⟩ := h
  exact ⟨ss, hss, hss.visits_fresh hmarks⟩

/-! ### The walks up -/

theorem parentOf_eq (rows : List Category) :
    parentOf rows = fun i => (rowOf rows i).bind Category.parentId := by
  funext i
  rw [parentOf, parentMap, rowOf]
  cases rows.find? fun c => c.id = i <;> rfl

theorem mem_of_rowOf {i : ℤ} {row : Category} (h : rowOf rows i = some row) :
    i ∈ rows.map Category.id := by
  have hid : row.id = i := by simpa using List.find?_some h
  exact hid ▸ List.mem_map_of_mem (List.mem_of_find?_eq_some h)

theorem mem_of_parentOf {i p : ℤ} (h : parentOf rows i = some p) : i ∈ rows.map Category.id := by
  rw [parentOf_eq] at h
  obtain ⟨row, hrow, -⟩ := Option.bind_eq_some_iff.mp h
  exact mem_of_rowOf hrow

/-- `a` is on the ancestor chain that starts at `p`; a missing row ends the chain. -/
def OnChain (rows : List Category) (p a : ℤ) : Prop :=
  Relation.ReflTransGen (fun i j => parentOf rows i = some j) p a

theorem rejectCycle_ne_ok_iff (c p : ℤ) :
    rejectCycle db c p ≠ .ok () ↔ OnChain db.categories.rows p c := by
  have hlength : (db.categories.rows.map Category.id).length = db.categories.rows.length :=
    List.length_map _
  have hmem := mem_climb (fun _ _ => mem_of_parentOf) (a := p) (x := c)
    (Nat.le_of_eq (congrArg (· + 1) hlength))
  rw [OnChain, ← hmem, rejectCycle]
  split_ifs with hin
  · exact iff_of_true refuse_ne_ok hin
  · exact iff_of_false (fun h => h rfl) hin

theorem cycleBody_marks (c : ℤ) : Marks (cycleBody db c) Climb.current Climb.seen := by
  intro s s' h
  rw [cycleBody] at h
  split at h
  · cases h
  · rename_i a ha
    split_ifs at h
    split at h
    · cases h
    · obtain rfl := Sum.inl.inj h
      refine ⟨fun b hb => ?_, List.subset_cons_self a _⟩
      rw [ha] at hb
      obtain rfl := Option.some.inj hb
      exact List.mem_cons_self

/-- The cycle loop answers what the climb says, as long as it has not seen the category. -/
theorem runs_cycleBody {c : ℤ} {fuel : ℕ} (current : Option ℤ) (seen : List ℤ)
    (hnodup : seen.Nodup) (hseen : seen ⊆ db.categories.rows.map Category.id) (hself : c ∉ seen)
    (hfuel : (db.categories.rows.map Category.id).length + 1 ≤ fuel + seen.length) :
    ∃ ss, Runs (cycleBody db c) ⟨seen, current, ()⟩ ss
      (if c ∈ climb (parentOf db.categories.rows) fuel current seen then
        refuse 409 "A category cannot be nested under itself or its descendants."
      else .ok ()) := by
  induction fuel generalizing current seen with
  | zero =>
    have := (List.subperm_of_subset hnodup hseen).length_le
    omega
  | succ fuel ih =>
    cases current with
    | none => exact ⟨_, .stop rfl⟩
    | some a =>
      rw [climb]
      by_cases hac : a = c
      · subst hac
        rw [if_neg hself, if_pos List.mem_cons_self]
        exact ⟨_, .stop (if_pos rfl)⟩
      by_cases ha : a ∈ seen
      · refine ⟨_, .stop ?_⟩
        simp only [cycleBody, if_neg hac, if_pos ha, List.not_mem_nil, if_false]
      rw [if_neg ha, parentOf_eq]
      have hcons : ∀ l : List ℤ, c ∈ a :: l ↔ c ∈ l := fun l => by
        rw [List.mem_cons, or_iff_right (Ne.symm hac)]
      simp only [hcons]
      cases hrow : rowOf db.categories.rows a with
      | none =>
        have hfind : db.categories.find a = none := hrow
        refine ⟨_, .stop ?_⟩
        simp only [cycleBody, if_neg hac, if_neg ha, hfind, Option.bind_none, climb_none,
          List.not_mem_nil, if_false]
      | some row =>
        have hfind : db.categories.find a = some row := hrow
        obtain ⟨ss, hss⟩ := ih row.parentId (a :: seen) (List.nodup_cons.mpr ⟨ha, hnodup⟩)
          (List.cons_subset.mpr ⟨mem_of_rowOf hrow, hseen⟩)
          (fun hin => (List.mem_cons.mp hin).elim (Ne.symm hac) hself)
          (by rw [List.length_cons]; omega)
        rw [parentOf_eq] at hss
        refine ⟨_, .next ?_ hss⟩
        simp only [cycleBody, if_neg hac, if_neg ha, hfind]

theorem walks_cycle (c p : ℤ) :
    Walks (cycleBody db c) Climb.current Climb.seen ⟨[], some p, ()⟩ (rejectCycle db c p) := by
  refine walks_of_runs (cycleBody_marks c) ?_
  exact runs_cycleBody (some p) [] List.nodup_nil (List.nil_subset _) List.not_mem_nil
    (by rw [List.length_map, List.length_nil, Nat.add_zero])

/-- A climb over the rows ends, with the rows of the chain added up. -/
theorem runs_rows {α : Type} (add : α → Category → α) {fuel : ℕ} (current : Option ℤ)
    {seen : List ℤ} (acc : α) (hnodup : seen.Nodup) (hseen : seen ⊆ rows.map Category.id)
    (hfuel : rows.length + 1 ≤ fuel + seen.length) :
    ∃ ss, Runs (climbBody (rowOf rows) Category.parentId add) ⟨seen, current, acc⟩ ss
      (((climb (parentOf rows) fuel current seen).filterMap (rowOf rows)).foldl add acc) := by
  rw [parentOf_eq]
  exact runs_climbBody (fun _ _ => mem_of_rowOf) ⟨seen, current, acc⟩ hnodup hseen
    (by rwa [List.length_map])

theorem foldl_add_one {l : List Category} (n : ℕ) :
    l.foldl (fun depth _ => depth + 1) n = n + l.length := by
  induction l generalizing n with
  | nil => rfl
  | cons c l ih =>
    rw [List.foldl_cons, ih, List.length_cons]
    omega

theorem length_filterMap_rowOf (l : List ℤ) :
    (l.filterMap (rowOf rows)).length = (l.filter fun i => (parentMap rows i).isSome).length := by
  induction l with
  | nil => rfl
  | cons i l ih =>
    rw [List.filterMap_cons, List.filter_cons, parentMap, ← rowOf, Option.isSome_map]
    cases rowOf rows i with
    | none => simpa using ih
    | some row => simpa using ih

theorem walks_parentDepth (parentId : Option ℤ) :
    Walks (parentDepthBody rows) Climb.current Climb.seen ⟨[], parentId, 0⟩
      (parentDepth rows parentId) := by
  refine walks_of_runs climbBody_marks ?_
  have hrun := runs_rows (fun (depth : ℕ) (_ : Category) => depth + 1) parentId 0 List.nodup_nil
    (List.nil_subset (rows.map Category.id)) (Nat.le_refl (rows.length + 1))
  rwa [foldl_add_one, length_filterMap_rowOf, Nat.zero_add] at hrun

theorem foldl_slugs {l : List Category} (segments : List String) :
    l.foldl (fun segments parent => segments ++ [parent.slug]) segments =
      segments ++ l.map Category.slug := by
  induction l generalizing segments with
  | nil => rw [List.foldl_nil, List.map_nil, List.append_nil]
  | cons c l ih => rw [List.foldl_cons, ih, List.append_assoc, List.singleton_append, List.map_cons]

/-- For each id of the rows, the segments of its path, the last first. -/
theorem walks_categoryPath {i : ℤ} {row : Category} (hrow : rowOf rows i = some row) :
    ∃ segments, categoryPath rows i = some ("/".intercalate segments.reverse) ∧
      Walks (categoryPathBody rows) Climb.current Climb.seen ⟨[i], row.parentId, [row.slug]⟩
        segments := by
  have hnext : parentOf rows i = row.parentId := by
    simp only [parentOf_eq, hrow, Option.bind_some]
  have hrun := runs_rows (fun segments (parent : Category) => segments ++ [parent.slug])
    row.parentId [row.slug] (List.nodup_singleton i)
    (List.cons_subset.mpr ⟨mem_of_rowOf hrow, List.nil_subset _⟩)
    (Nat.le_refl (rows.length + [i].length))
  refine ⟨_, ?_, walks_of_runs climbBody_marks hrun⟩
  have hany : (rows.any fun c => c.id = i) = true := by
    obtain ⟨c, hc, hid⟩ := List.mem_map.mp (mem_of_rowOf hrow)
    exact List.any_eq_true.mpr ⟨c, hc, decide_eq_true hid⟩
  have hslugs : ∀ l : List ℤ, (l.filterMap fun i => (rows.find? fun c => c.id = i).map
      Category.slug) = (l.filterMap (rowOf rows)).map Category.slug := fun l => by
    rw [List.map_filterMap]
    rfl
  rw [categoryPath, if_pos hany]
  dsimp only
  rw [climb, if_neg List.not_mem_nil, hslugs, List.filterMap_cons, hrow, hnext, foldl_slugs,
    List.map_cons, List.singleton_append]

/-! ### The walks down -/

/-- A descent over the rows ends, with the entries of the branch added up. -/
theorem runs_branch {ε α : Type} {key : ε → ℤ} {expand : ε → List ε} {put : α → ε → α}
    {entry : ℤ × ℕ → ε} (hkey : ∀ p, key (entry p) = p.1)
    (hexpand : ∀ p, expand (entry p) = (childrenOf rows p.1).map fun c => entry (c, p.2 + 1))
    (root : ℤ) (height : ℕ) (acc : α) :
    ∃ ss, Runs (descendBody key expand put) ⟨[entry (root, height)], [], acc⟩ ss
      (((branchWalk rows root height).map entry).foldl put acc) := by
  refine runs_descendBody hkey hexpand (fun _ => rfl) [(root, height)] [] acc ?_
  simp only [exploreCost, List.length_singleton, List.not_mem_nil, not_false_eq_true]
  simp
  omega

theorem walks_branchHeight (c : ℤ) :
    Walks (branchHeightBody rows) (Descent.here Prod.fst) Descent.seen ⟨[(c, 1)], [], 1⟩
      (branchHeight rows (some c)) := by
  refine walks_of_runs descendBody_marks ?_
  have hrun := @runs_branch rows (ℤ × ℕ) ℕ Prod.fst
    (fun e => (childrenOf rows e.1).map fun c => (c, e.2 + 1)) (fun height e => max height e.2) id
    (fun _ => rfl) (fun _ => rfl) c 1 1
  rwa [List.map_id] at hrun

theorem foldl_collect {l : List ℤ} (collected : List ℤ) :
    l.foldl (fun collected current => collected ++ [current]) collected = collected ++ l := by
  induction l generalizing collected with
  | nil => rw [List.foldl_nil, List.append_nil]
  | cons a l ih => rw [List.foldl_cons, ih, List.append_assoc, List.singleton_append]

theorem walks_collectBranchIds (root : ℤ) :
    Walks (branchIdsBody rows) (Descent.here id) Descent.seen ⟨[root], [], []⟩
      (collectBranchIds rows root) := by
  refine walks_of_runs descendBody_marks ?_
  have hrun := @runs_branch rows ℤ (List ℤ) id (childrenOf rows)
    (fun collected current => collected ++ [current]) Prod.fst (fun _ => rfl)
    (fun p => (List.map_id' _).symm) root 0 []
  rwa [foldl_collect, List.nil_append] at hrun

/-- `j` is reached from `root` by going down from parents to children. -/
def OnBranch (rows : List Category) (root j : ℤ) : Prop :=
  Relation.ReflTransGen (fun i c => ∃ row ∈ rows, row.id = c ∧ row.parentId = some i) root j

theorem mem_collectBranchIds_onBranch {root j : ℤ} :
    j ∈ collectBranchIds rows root ↔ OnBranch rows root j := by
  have hchildren : (fun i c => c ∈ childrenOf rows i) =
      fun i c => ∃ row ∈ rows, row.id = c ∧ row.parentId = some i := by
    funext i c
    exact propext mem_childrenOf
  rw [collectBranchIds, mem_branchWalk, OnBranch, hchildren]

/-! ### All walks -/

/-- What the walks do on a table, whatever is in it: `db` is where a reparent looks rows up,
`rows` the rows a caller is scoped to. -/
structure WalksSafe (db : Database) (rows : List Category) : Prop where
  rejectCycle : ∀ c p, Walks (cycleBody db c) Climb.current Climb.seen ⟨[], some p, ()⟩
    (rejectCycle db c p)
  rejects : ∀ c p, MediaService.rejectCycle db c p ≠ .ok () ↔ OnChain db.categories.rows p c
  parentDepth : ∀ parentId, Walks (parentDepthBody rows) Climb.current Climb.seen
    ⟨[], parentId, 0⟩ (parentDepth rows parentId)
  branchHeight : ∀ c, Walks (branchHeightBody rows) (Descent.here Prod.fst) Descent.seen
    ⟨[(c, 1)], [], 1⟩ (branchHeight rows (some c))
  collectBranchIds : ∀ root, Walks (branchIdsBody rows) (Descent.here id) Descent.seen
    ⟨[root], [], []⟩ (collectBranchIds rows root)
  reachable : ∀ root, (MediaService.collectBranchIds rows root).Nodup ∧
    ∀ j, j ∈ MediaService.collectBranchIds rows root ↔ OnBranch rows root j
  categoryPath : ∀ i row, rowOf rows i = some row → ∃ segments,
    categoryPath rows i = some ("/".intercalate segments.reverse) ∧
      Walks (categoryPathBody rows) Climb.current Climb.seen ⟨[i], row.parentId, [row.slug]⟩
        segments

/-- On every table the category walks end, visit no id twice, and are exact. -/
theorem categoryWalks_safe (db : Database) (rows : List Category) : WalksSafe db rows where
  rejectCycle := walks_cycle
  rejects := rejectCycle_ne_ok_iff
  parentDepth := walks_parentDepth
  branchHeight := walks_branchHeight
  collectBranchIds := walks_collectBranchIds
  reachable root := ⟨nodup_branchWalk rows root 0, fun _ => mem_collectBranchIds_onBranch⟩
  categoryPath _ _ := walks_categoryPath

end MediaService
