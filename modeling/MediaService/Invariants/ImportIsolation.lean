import MediaService.Controllers.ManifestDocument
import MediaService.Invariants.ImportScope

/-! Imports kept apart. Whatever a document says and whoever imports it, the import
stays in the importer's own scope; and it reads of each entry and each node of the
document the members its schema names, so documents that agree on these are imported
alike, whatever they say of verdicts, times, owners or ids of rows. -/

namespace MediaService

open Foundation

variable {settings : Settings} {lib : ModelLibrary} {R : Json → Json → Prop} {d d' : Json}

/-! ### Documents read alike -/

/-- Members with items that are alike one by one, or the same members. -/
inductive SameItems (R : Json → Json → Prop) : Option Json → Option Json → Prop
  | same (value : Option Json) : SameItems R value value
  | items {l l' : List Json} : List.Forall₂ R l l' → SameItems R (some (.arr l)) (some (.arr l'))

/-- What is read of an entry. -/
def entryFields : List String :=
  ["id", "filename", "category", "category_paths", "visibility", "size_bytes", "sha256",
    "mime_type"]

def SameEntry (e e' : Json) : Prop := ∀ field ∈ entryFields, e.member field = e'.member field

/-- Nodes of the same names, slugs and nesting, down to so many levels. -/
def SameNode : ℕ → Json → Json → Prop
  | 0, node, node' => node = node'
  | levels + 1, node, node' => node = node' ∨ ∃ members members', node = .obj members ∧
      node' = .obj members' ∧ node.member "name" = node'.member "name" ∧
      node.member "slug" = node'.member "slug" ∧
      SameItems (SameNode levels) (node.member "children") (node'.member "children")

/-- Documents of the same entries and the same tree, as far as they are read. -/
structure SameDocument (d d' : Json) : Prop where
  isObject : ∃ members members', d = .obj members ∧ d' = .obj members'
  objects : SameItems SameEntry (d.member "objects") (d'.member "objects")
  tree : ∃ levels,
    SameItems (SameNode levels) (d.member "category_tree") (d'.member "category_tree")

theorem SameEntry.refl (e : Json) : SameEntry e e := fun _ _ => rfl

theorem SameNode.refl (levels : ℕ) (node : Json) : SameNode levels node node := by
  cases levels with
  | zero => rfl
  | succ levels => exact .inl rfl

theorem SameItems.readItems {α : Type} {read : Json → Option α} {m m' : Option Json}
    (h : SameItems R m m') (hread : ∀ j j', R j j' → read j = read j') :
    readItems read m = readItems read m' := by
  cases h with
  | same => rfl
  | items hl =>
    unfold MediaService.readItems
    induction hl with
    | nil => rfl
    | cons hj _ ih =>
      dsimp only at ih ⊢
      rw [List.mapM_cons, List.mapM_cons, hread _ _ hj, ih]

/-- Arrays that are alike are arrays for both, or for neither. -/
theorem SameItems.arrayMember (lib : ModelLibrary) (hrefl : ∀ j, R j j) {key : String}
    (h : SameItems R (d.member key) (d'.member key)) :
    Option.Rel (List.Forall₂ R) (arrayMember lib key d) (arrayMember lib key d') := by
  have hsame : ∀ x : Option (List Json), Option.Rel (List.Forall₂ R) x x := by
    intro x
    cases x with
    | none => exact .none
    | some l => exact .some (List.forall₂_same.mpr fun j _ => hrefl j)
  unfold MediaService.arrayMember
  generalize d.member key = m at h ⊢
  generalize d'.member key = m' at h ⊢
  cases h with
  | same => exact hsame _
  | items hl => exact .some hl

/-! ### The schema -/

theorem SameEntry.read {e e' : Json} (h : SameEntry e e') :
    ImportObjectEntry.read lib e = ImportObjectEntry.read lib e' := by
  unfold ImportObjectEntry.read
  simp only [entryFields, SameEntry, List.forall_mem_cons] at h
  obtain ⟨hid, hfilename, hcategory, hpaths, hvisibility, hsize, hsha256, hmime, -⟩ := h
  rw [hid, hfilename, hcategory, hpaths, hvisibility, hsize, hsha256, hmime]

theorem SameNode.read {levels : ℕ} {node node' : Json} (h : SameNode levels node node') (n : ℕ) :
    ImportCategoryNode.read n node = ImportCategoryNode.read n node' := by
  induction levels generalizing n node node' with
  | zero => rw [show node = node' from h]
  | succ levels ih =>
    rcases h with rfl | ⟨members, members', rfl, rfl, hname, hslug, hchildren⟩
    · rfl
    · cases n with
      | zero => rfl
      | succ n =>
        rw [ImportCategoryNode.read, ImportCategoryNode.read, hname, hslug,
          hchildren.readItems fun j j' hj => ih hj n]

theorem SameDocument.read (h : SameDocument d d') :
    ImportManifest.read settings lib d = ImportManifest.read settings lib d' := by
  obtain ⟨levels, htree⟩ := h.tree
  rw [ImportManifest.read, ImportManifest.read, h.objects.readItems fun _ _ => SameEntry.read,
    htree.readItems fun _ _ hj => hj.read _]

/-! ### The ceilings -/

/-- Pending nodes that are alike, each at its depth. -/
def SamePending (p p' : Json × ℕ) : Prop := (∃ levels, SameNode levels p.1 p'.1) ∧ p.2 = p'.2

theorem samePending_map {levels depth : ℕ} {l l' : List Json}
    (h : List.Forall₂ (SameNode levels) l l') :
    List.Forall₂ SamePending (l.reverse.map fun j => (j, depth))
      (l'.reverse.map fun j => (j, depth)) := by
  rw [List.forall₂_map_left_iff, List.forall₂_map_right_iff, List.forall₂_reverse_iff]
  exact h.imp fun _ _ hj => ⟨⟨levels, hj⟩, rfl⟩

/-- Alike nodes are both objects with alike children, or the same and no object. -/
theorem SameNode.cases {levels : ℕ} {node node' : Json} (h : SameNode levels node node') :
    (∃ members members' n, node = .obj members ∧ node' = .obj members' ∧
      SameItems (SameNode n) (node.member "children") (node'.member "children")) ∨
    (node' = node ∧ ∀ members, node ≠ .obj members) := by
  have hself : (∃ members members' n, node = .obj members ∧ node = .obj members' ∧
      SameItems (SameNode n) (node.member "children") (node.member "children")) ∨
      (node = node ∧ ∀ members, node ≠ .obj members) := by
    by_cases hobj : ∃ members, node = .obj members
    · obtain ⟨members, hm⟩ := hobj
      exact .inl ⟨members, members, 0, hm, hm, .same _⟩
    · exact .inr ⟨rfl, fun members hm => hobj ⟨members, hm⟩⟩
  cases levels with
  | zero =>
    obtain rfl := h
    exact hself
  | succ levels =>
    rcases h with rfl | ⟨members, members', hm, hm', -, -, hchildren⟩
    · exact hself
    · exact .inl ⟨members, members', levels, hm, hm', hchildren⟩

theorem assertNodesWithinCeilings_same {room : ℕ} {pending pending' : List (Json × ℕ)}
    (h : List.Forall₂ SamePending pending pending') :
    assertNodesWithinCeilings settings lib room pending =
      assertNodesWithinCeilings settings lib room pending' := by
  induction room generalizing pending pending' with
  | zero =>
    cases h with
    | nil => rfl
    | @cons p p' rest rest' hp _ =>
      obtain ⟨node, depth⟩ := p
      obtain ⟨node', depth'⟩ := p'
      obtain ⟨⟨levels, hnode⟩, rfl : depth = depth'⟩ := hp
      rcases SameNode.cases hnode with ⟨members, members', n, rfl, rfl, -⟩ | ⟨hsame, hne⟩
      · rfl
      · obtain rfl : node' = node := hsame
        cases node' with
        | obj members => exact absurd rfl (hne members)
        | _ => rfl
  | succ room ih =>
    cases h with
    | nil => rfl
    | @cons p p' rest rest' hp hrest =>
      obtain ⟨node, depth⟩ := p
      obtain ⟨node', depth'⟩ := p'
      obtain ⟨⟨levels, hnode⟩, rfl : depth = depth'⟩ := hp
      rcases SameNode.cases hnode with ⟨members, members', n, rfl, rfl, hchildren⟩ | ⟨hsame, hne⟩
      · have hitems := hchildren.arrayMember lib (SameNode.refl n)
        simp only [assertNodesWithinCeilings]
        split_ifs
        · rfl
        · generalize arrayMember lib "children" (.obj members) = m at hitems ⊢
          generalize arrayMember lib "children" (.obj members') = m' at hitems ⊢
          cases hitems with
          | none => rfl
          | some hl => exact ih (List.rel_append (samePending_map hl) hrest)
      · obtain rfl : node' = node := hsame
        cases node' with
        | obj members => exact absurd rfl (hne members)
        | _ => rfl

/-- Documents that agree on what is read are read alike. -/
theorem SameDocument.parse (h : SameDocument d d') :
    parseManifestDocument settings lib d = parseManifestDocument settings lib d' := by
  have hceilings : assertDocumentWithinCeilings settings lib d =
      assertDocumentWithinCeilings settings lib d' := by
    obtain ⟨levels, htree⟩ := h.tree
    have hobjects := h.objects.arrayMember lib SameEntry.refl
    have htree := htree.arrayMember lib (SameNode.refl levels)
    obtain ⟨members, members', rfl, rfl⟩ := h.isObject
    rw [assertDocumentWithinCeilings, assertDocumentWithinCeilings]
    generalize arrayMember lib "objects" (.obj members) = m at hobjects ⊢
    generalize arrayMember lib "objects" (.obj members') = m' at hobjects ⊢
    generalize arrayMember lib "category_tree" (.obj members) = n at htree ⊢
    generalize arrayMember lib "category_tree" (.obj members') = n' at htree ⊢
    cases hobjects with
    | none => rfl
    | some hl =>
      cases htree with
      | none => rfl
      | some ht =>
        dsimp only
        rw [hl.length_eq, assertNodesWithinCeilings_same (samePending_map ht)]
  rw [parseManifestDocument, parseManifestDocument, hceilings, h.read]

/-! ### Isolation -/

/-- Whatever a document says, importing it stays in the importer's scope; and what it
says outside the members of its schema makes no difference. -/
theorem import_isolated (env : Env) (lib : ModelLibrary) (b : Backend) (ctx : ℕ → RowContext)
    (user : UserModel) :
    (∀ source, InOwnScope user b (runImport env b ctx user source).1) ∧
    ∀ d d', SameDocument d d' →
      importManifest env lib b ctx user d = importManifest env lib b ctx user d' ∧
      parseManifestDocument env.settings lib d = parseManifestDocument env.settings lib d' := by
  refine ⟨inOwnScope_runImport env b ctx user, fun d d' h => ?_⟩
  have hparse : parseManifestDocument env.settings lib d =
      parseManifestDocument env.settings lib d' := h.parse
  exact ⟨by rw [importManifest, importManifest, hparse], hparse⟩

/-- A manifest that files an object. -/
def filingManifest : ImportSource :=
  .manifest ⟨[], [{ pngEntry with
    categoryPaths := ["photos"]
    categoryPaths_length := by decide }]⟩

/-- An archive whose one file does not have the digest its row says. -/
def alteredArchive : ImportSource :=
  .archive ⟨[], [{ pngEntry with
      sha256 := some (String.ofList (List.replicate 64 '0'))
      sha256_length := by decide }]⟩
    [⟨"files/00000000-0000-0000-0000-000000000002/a.png", false, 4, some pngSignature⟩]

/-- Who uploads an object and then becomes a member of a tenant changes the object by
importing it; and a file that is rejected leaves an object that is not to be scanned. -/
theorem not_import_isolated :
    let user : UserModel := ⟨⟨1⟩, false, some ⟨5⟩⟩
    let b := (run (serve Env.default) World.initial
      (cleanUploadRequests Env.default 0 ⟨2⟩ (.ordinary 1) .private pngSignature)).backend
    (∃ o, b.db.objects.find ⟨2⟩ = some o ∧ o.scope ≠ ⟨user.id, user.tenantId⟩ ∧
      (runImport Env.default b rowContexts user filingManifest).1.db.objects.find ⟨2⟩ =
        some { o with updatedAt := 10 } ∧ o.updatedAt ≠ 10) ∧
    (runImport Env.default .empty rowContexts user alteredArchive).1.db.objects.rows.map
      MediaObject.status = [.rejected] := by
  intro user b
  refine ⟨⟨(b.db.objects.find ⟨2⟩).get (by decide +kernel), (Option.some_get _).symm, ?_, ?_, ?_⟩,
    ?_⟩
  · decide +kernel
  · decide +kernel
  · decide +kernel
  · decide +kernel

end MediaService
