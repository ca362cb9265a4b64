import MediaService.Controllers.ManifestDocument
import MediaService.Foundation.Loop

/-! The ceilings of a manifest. The walk over the category tree keeps a stack and stops at
the first node in the way; what it accepts is described by recursion on the tree: every node
is an object with an array of children, and the nodes and the levels are counted. -/

namespace MediaService

open Foundation

variable {settings : Settings} {lib : ModelLibrary}

/-! ### The tree, by recursion -/

/-- What counts as the items of a member: none where it is absent or falsy. -/
inductive HasItems (lib : ModelLibrary) (key : String) (value : Json) : List Json → Prop
  | absent : value.member key = none → HasItems lib key value []
  | falsy {v : Json} : value.member key = some v → isFalsy lib v = true →
      HasItems lib key value []
  | array {items : List Json} : value.member key = some (.arr items) →
      HasItems lib key value items

theorem arrayMember_eq_some {key : String} {value : Json} {items : List Json} :
    arrayMember lib key value = some items ↔ HasItems lib key value items := by
  unfold arrayMember
  constructor
  · intro h
    split at h
    · rename_i hm
      cases h
      exact .absent hm
    · rename_i hm
      cases h
      exact .array hm
    · rename_i v _ hm
      split at h
      · rename_i hfalsy
        cases h
        exact .falsy hm hfalsy
      · cases h
  · rintro (hm | @⟨v, hm, hfalsy⟩ | hm)
    · rw [hm]
    · rw [hm]
      cases v with
      | arr items => rw [List.isEmpty_iff.mp hfalsy]
      | _ => exact if_pos hfalsy
    · rw [hm]

/-- The children of a node; `none` where the node or its children are malformed. -/
def childNodes (lib : ModelLibrary) (node : Json) : Option (List Json) :=
  match node with
  | .obj members => arrayMember lib "children" (.obj members)
  | _ => none

theorem sizeOf_childNodes {node child : Json} {children : List Json}
    (h : childNodes lib node = some children) (hchild : child ∈ children) :
    sizeOf child < sizeOf node := by
  cases node with
  | obj members =>
    rcases arrayMember_eq_some.mp h with _ | _ | hm
    · cases hchild
    · cases hchild
    · obtain ⟨m, hfind, hvalue⟩ := Option.map_eq_some_iff.mp hm
      have hmem := List.sizeOf_lt_of_mem (List.mem_of_find?_eq_some hfind)
      have hitem := List.sizeOf_lt_of_mem hchild
      obtain ⟨key, value⟩ := m
      simp only at hvalue
      subst hvalue
      simp only [Prod.mk.sizeOf_spec, Json.arr.sizeOf_spec, Json.obj.sizeOf_spec] at hmem ⊢
      omega
  | _ => cases h

/-- The children a node shows, none where it is malformed. -/
def childrenShown (lib : ModelLibrary) (node : Json) : List Json := (childNodes lib node).getD []

theorem sizeOf_childrenShown {node child : Json} (h : child ∈ childrenShown lib node) :
    sizeOf child < sizeOf node := by
  cases hc : childNodes lib node with
  | none =>
    rw [childrenShown, hc] at h
    cases h
  | some children =>
    rw [childrenShown, hc] at h
    exact sizeOf_childNodes hc h

/-- Every node of the branch is an object with children that are absent, falsy or an array. -/
def branchWellFormed (lib : ModelLibrary) (node : Json) : Bool :=
  (childNodes lib node).isSome && (childrenShown lib node).attach.all fun child =>
    branchWellFormed lib child.1
termination_by sizeOf node
decreasing_by exact sizeOf_childrenShown child.2

/-- The nodes of the branch. -/
def branchNodes (lib : ModelLibrary) (node : Json) : ℕ :=
  1 + ((childrenShown lib node).attach.map fun child => branchNodes lib child.1).sum
termination_by sizeOf node
decreasing_by exact sizeOf_childrenShown child.2

/-- The levels of the branch. -/
def branchLevels (lib : ModelLibrary) (node : Json) : ℕ :=
  1 + ((childrenShown lib node).attach.map fun child => branchLevels lib child.1).foldr max 0
termination_by sizeOf node
decreasing_by exact sizeOf_childrenShown child.2

theorem branchWellFormed_iff {node : Json} : branchWellFormed lib node = true ↔
    ∃ children, childNodes lib node = some children ∧
      ∀ child ∈ children, branchWellFormed lib child = true := by
  rw [branchWellFormed, Bool.and_eq_true, List.all_eq_true, Option.isSome_iff_exists]
  constructor
  · rintro ⟨⟨children, hc⟩, hall⟩
    have hshown : childrenShown lib node = children := by rw [childrenShown, hc, Option.getD_some]
    refine ⟨children, hc, fun child hchild => ?_⟩
    exact hall ⟨child, hshown ▸ hchild⟩ (List.mem_attach _ _)
  · rintro ⟨children, hc, hall⟩
    have hshown : childrenShown lib node = children := by rw [childrenShown, hc, Option.getD_some]
    exact ⟨⟨children, hc⟩, fun child _ => hall child.1 (hshown ▸ child.2)⟩

theorem branchNodes_eq (node : Json) :
    branchNodes lib node = 1 + ((childrenShown lib node).map (branchNodes lib)).sum := by
  rw [branchNodes, List.attach_map_val]

theorem foldr_max_le {l : List ℕ} {n : ℕ} : l.foldr max 0 ≤ n ↔ ∀ k ∈ l, k ≤ n := by
  induction l with
  | nil => simp
  | cons k l ih => rw [List.foldr_cons, max_le_iff, ih, List.forall_mem_cons]

theorem branchLevels_le_iff {node : Json} {n : ℕ} : branchLevels lib node ≤ n + 1 ↔
    ∀ child ∈ childrenShown lib node, branchLevels lib child ≤ n := by
  rw [branchLevels, Nat.add_comm, Nat.add_le_add_iff_right, foldr_max_le]
  simp

/-! ### The walk -/

/-- The pending branches are well formed, end above the cap on levels, and have no more nodes
together than there is room for. -/
def PendingFits (settings : Settings) (lib : ModelLibrary) (room : ℕ)
    (pending : List (Json × ℕ)) : Prop :=
  (∀ p ∈ pending, branchWellFormed lib p.1 = true ∧
    p.2 + branchLevels lib p.1 ≤ settings.mediaImportMaxCategoryDepth + 1) ∧
  (pending.map fun p => branchNodes lib p.1).sum ≤ room

/-- A node fits at a depth if its children fit one level below. -/
theorem levels_fit_iff {node : Json} {depth cap : ℕ} :
    depth + branchLevels lib node ≤ cap + 1 ↔ depth ≤ cap ∧
      ∀ child ∈ childrenShown lib node, depth + 1 + branchLevels lib child ≤ cap + 1 := by
  have hpos : 1 ≤ branchLevels lib node := by
    rw [branchLevels]
    omega
  by_cases hdepth : depth ≤ cap
  · obtain ⟨n, rfl⟩ := Nat.exists_eq_add_of_le hdepth
    rw [show depth + branchLevels lib node ≤ depth + n + 1 ↔ branchLevels lib node ≤ n + 1 by omega,
      branchLevels_le_iff]
    constructor
    · intro h
      refine ⟨hdepth, fun child hchild => ?_⟩
      have := h child hchild
      omega
    · rintro ⟨-, h⟩ child hchild
      have := h child hchild
      omega
  · refine iff_of_false (by omega) fun h => hdepth h.1

/-- Taking a node off the stack and pushing its children. -/
theorem pendingFits_cons {room depth : ℕ} {node : Json} {children : List Json}
    {pending : List (Json × ℕ)} (hchildren : childNodes lib node = some children) :
    PendingFits settings lib (room + 1) ((node, depth) :: pending) ↔
      depth ≤ settings.mediaImportMaxCategoryDepth ∧ PendingFits settings lib room
        (children.reverse.map (fun child => (child, depth + 1)) ++ pending) := by
  have hshown : childrenShown lib node = children := by
    rw [childrenShown, hchildren, Option.getD_some]
  have hwell : branchWellFormed lib node = true ↔
      ∀ child ∈ children, branchWellFormed lib child = true := by
    rw [branchWellFormed_iff, hchildren]
    simp
  have hnodes : (((children.reverse.map fun child => (child, depth + 1)) ++ pending).map
      fun p => branchNodes lib p.1).sum + 1 =
        (((node, depth) :: pending).map fun p => branchNodes lib p.1).sum := by
    have hsame : (fun p : Json × ℕ => branchNodes lib p.1) ∘ (fun child => (child, depth + 1)) =
        branchNodes lib := rfl
    rw [List.map_append, List.sum_append, List.map_map, hsame, List.map_reverse, List.sum_reverse,
      List.map_cons, List.sum_cons, branchNodes_eq, hshown]
    omega
  rw [PendingFits, PendingFits, List.forall_mem_cons, List.forall_mem_append,
    List.forall_mem_map, hwell, levels_fit_iff, hshown]
  simp only [List.mem_reverse]
  constructor
  · rintro ⟨⟨⟨hw, hdepth, hl⟩, hrest⟩, hsum⟩
    exact ⟨hdepth, ⟨fun child hchild => ⟨hw child hchild, hl child hchild⟩, hrest⟩, by omega⟩
  · rintro ⟨hdepth, ⟨hc, hrest⟩, hsum⟩
    exact ⟨⟨⟨fun child hchild => (hc child hchild).1, hdepth, fun child hchild =>
      (hc child hchild).2⟩, hrest⟩, by omega⟩

/-- A malformed node on the stack does not fit. -/
theorem not_pendingFits {room depth : ℕ} {node : Json} {pending : List (Json × ℕ)}
    (hnode : childNodes lib node = none) :
    ¬ PendingFits settings lib room ((node, depth) :: pending) := by
  rintro ⟨hall, -⟩
  obtain ⟨children, hchildren, -⟩ := branchWellFormed_iff.mp (hall _ List.mem_cons_self).1
  rw [hnode] at hchildren
  cases hchildren

/-- The walk accepts exactly what fits. -/
theorem assertNodesWithinCeilings_eq_ok {room : ℕ} {pending : List (Json × ℕ)} :
    assertNodesWithinCeilings settings lib room pending = .ok () ↔
      PendingFits settings lib room pending := by
  fun_induction assertNodesWithinCeilings settings lib room pending with
  | case1 room => simp [PendingFits]
  | case2 members depth pending =>
    refine iff_of_false (fun h => by cases h) fun h => ?_
    have hsum := h.2
    rw [List.map_cons, List.sum_cons, branchNodes_eq] at hsum
    omega
  | case3 members depth pending room hdepth =>
    refine iff_of_false (fun h => by cases h) fun h => ?_
    have := (levels_fit_iff.mp (h.1 _ List.mem_cons_self).2).1
    omega
  | case4 members depth pending room hdepth hchildren =>
    exact iff_of_false (fun h => by cases h) (not_pendingFits hchildren)
  | case5 members depth pending room hdepth children hchildren ih =>
    have hnode : childNodes lib (.obj members) = some children := hchildren
    rw [ih, pendingFits_cons hnode]
    exact ⟨fun h => ⟨by omega, h⟩, fun h => h.2⟩
  | case6 room entry pending hnode =>
    obtain ⟨node, depth⟩ := entry
    have hmalformed : childNodes lib node = none := by
      cases node with
      | obj members => exact absurd rfl (hnode members depth)
      | _ => rfl
    exact iff_of_false (fun h => by cases h) (not_pendingFits hmalformed)

/-! ### The loop -/

/-- The variables of the loop. -/
structure CeilingState where
  nodes : ℕ
  pending : List (Json × ℕ)

/-- The body of the `while` loop of `_assert_document_within_ceilings`. -/
def ceilingBody (settings : Settings) (lib : ModelLibrary) (s : CeilingState) :
    CeilingState ⊕ Except Failure Unit :=
  match s.pending with
  | [] => .inr (.ok ())
  | (.obj members, depth) :: pending =>
    if s.nodes + 1 > settings.mediaImportMaxCategories then
      .inr (refuse 422 ("Manifest carries more than " ++
        toString settings.mediaImportMaxCategories ++ " categories."))
    else if depth > settings.mediaImportMaxCategoryDepth then
      .inr (refuse 422 ("Category tree nests deeper than the " ++
        toString settings.mediaImportMaxCategoryDepth ++ "-level import ceiling."))
    else
      match arrayMember lib "children" (.obj members) with
      | none => .inr (refuse 422 "Category tree `children` must be an array.")
      | some children =>
        .inl ⟨s.nodes + 1, children.reverse.map (fun child => (child, depth + 1)) ++ pending⟩
  | _ :: _ => .inr (refuse 422 "Every category tree node must be a JSON object.")

/-- The loop ends, with what the recursion over the room left answers. -/
theorem runs_ceilingBody {room nodes : ℕ} {pending : List (Json × ℕ)}
    (hroom : nodes + room = settings.mediaImportMaxCategories) :
    ∃ ss, Loop.Runs (ceilingBody settings lib) ⟨nodes, pending⟩ ss
      (assertNodesWithinCeilings settings lib room pending) := by
  fun_induction assertNodesWithinCeilings settings lib room pending generalizing nodes with
  | case1 room => exact ⟨_, .stop rfl⟩
  | case2 members depth pending =>
    refine ⟨_, .stop ?_⟩
    simp only [ceilingBody]
    exact if_pos (by omega)
  | case3 members depth pending room hdepth =>
    refine ⟨_, .stop ?_⟩
    simp only [ceilingBody, if_pos hdepth]
    exact if_neg (by omega)
  | case4 members depth pending room hdepth hchildren =>
    refine ⟨_, .stop ?_⟩
    simp only [ceilingBody, if_neg hdepth, hchildren]
    exact if_neg (by omega)
  | case5 members depth pending room hdepth children hchildren ih =>
    obtain ⟨ss, hss⟩ := @ih (nodes + 1) (by omega)
    refine ⟨_, .next ?_ hss⟩
    simp only [ceilingBody, if_neg hdepth, hchildren]
    exact if_neg (by omega)
  | case6 room entry pending hnode =>
    refine ⟨_, .stop ?_⟩
    obtain ⟨node, depth⟩ := entry
    cases node with
    | obj members => exact absurd rfl (hnode members depth)
    | _ => rfl

/-! ### The document -/

/-- An object whose arrays are arrays, with no more objects, categories and levels than the
three ceilings. -/
def DocumentWithinCeilings (settings : Settings) (lib : ModelLibrary) (document : Json) : Prop :=
  (∃ members, document = .obj members) ∧ ∃ objects tree, HasItems lib "objects" document objects ∧
    HasItems lib "category_tree" document tree ∧
    objects.length ≤ settings.mediaImportMaxObjects ∧
    (∀ node ∈ tree, branchWellFormed lib node = true) ∧
    (tree.map (branchNodes lib)).sum ≤ settings.mediaImportMaxCategories ∧
    (tree.map (branchLevels lib)).foldr max 0 ≤ settings.mediaImportMaxCategoryDepth

theorem pendingFits_roots {tree : List Json} :
    PendingFits settings lib settings.mediaImportMaxCategories
      (tree.reverse.map fun node => (node, 1)) ↔
        (∀ node ∈ tree, branchWellFormed lib node = true) ∧
        (tree.map (branchNodes lib)).sum ≤ settings.mediaImportMaxCategories ∧
        (tree.map (branchLevels lib)).foldr max 0 ≤ settings.mediaImportMaxCategoryDepth := by
  have hsame : (fun p : Json × ℕ => branchNodes lib p.1) ∘ (fun node => (node, 1)) =
      branchNodes lib := rfl
  rw [PendingFits, List.forall_mem_map, List.map_map, hsame, List.map_reverse, List.sum_reverse,
    foldr_max_le, List.forall_mem_map]
  simp only [List.mem_reverse, Nat.add_comm 1, Nat.add_le_add_iff_right]
  constructor
  · rintro ⟨hall, hsum⟩
    exact ⟨fun node hnode => (hall node hnode).1, hsum, fun node hnode => (hall node hnode).2⟩
  · rintro ⟨hwell, hsum, hlevels⟩
    exact ⟨fun node hnode => ⟨hwell node hnode, hlevels node hnode⟩, hsum⟩

theorem assertDocumentWithinCeilings_eq_ok {document : Json} :
    assertDocumentWithinCeilings settings lib document = .ok () ↔
      DocumentWithinCeilings settings lib document := by
  cases document with
  | obj members =>
    rw [assertDocumentWithinCeilings, DocumentWithinCeilings]
    simp only [← arrayMember_eq_some]
    cases hobjects : arrayMember lib "objects" (.obj members) with
    | none => simp [refuse]
    | some objects =>
      cases htree : arrayMember lib "category_tree" (.obj members) with
      | none => simp [refuse]
      | some tree =>
        dsimp only
        by_cases hmany : objects.length > settings.mediaImportMaxObjects
        · rw [if_pos hmany]
          simp [refuse, hmany]
        · rw [if_neg hmany, assertNodesWithinCeilings_eq_ok, pendingFits_roots]
          simp [not_lt.mp hmany]
  | _ => exact iff_of_false (fun h => by cases h) fun h => by simpa using h.1

/-- For every document the loop over its category tree ends, and the document is accepted
exactly if it is within the ceilings, which are counted by recursion. -/
theorem assertDocumentWithinCeilings_exact (settings : Settings) (lib : ModelLibrary)
    (document : Json) :
    (assertDocumentWithinCeilings settings lib document = .ok () ↔
      DocumentWithinCeilings settings lib document) ∧
    ∀ tree, HasItems lib "category_tree" document tree →
      ∃ ss, Loop.Runs (ceilingBody settings lib) ⟨0, tree.reverse.map fun node => (node, 1)⟩ ss
        (assertNodesWithinCeilings settings lib settings.mediaImportMaxCategories
          (tree.reverse.map fun node => (node, 1))) :=
  ⟨assertDocumentWithinCeilings_eq_ok, fun _ _ => runs_ceilingBody (Nat.zero_add _)⟩

end MediaService
