import MediaService.Invariants.ManifestTree

/-! The categories of a run. A client's slug is made from its name, an import's from
what the document spells, within the bounds its schema put on a node. So in every
reachable world the categories form a forest, and each has a name of bounded length
and a slug that has been spelled. -/

namespace MediaService

open Foundation

variable {env : Env} {db db' : Database} {user : UserModel} {c : Category}
  {segments : List (String × String)}

/-! ### Levels of an import -/

/-- A name within its bounds, and a slug that has been spelled. -/
def FitsLevel (env : Env) (level : String × String) : Prop :=
  (1 ≤ level.1.length ∧ level.1.length ≤ 50) ∧ Spelled env level.2

/-- A chain an import may ask for. -/
def FitsChain (env : Env) (chain : CategoryChain) : Prop :=
  chain.length ≤ env.settings.mediaImportMaxCategoryDepth ∧ ∀ level ∈ chain, FitsLevel env level

theorem FitsChain.take {chain : CategoryChain} (h : FitsChain env chain) (n : ℕ) :
    FitsChain env (chain.take n) :=
  ⟨(List.length_take_le' n chain).trans h.1, fun level hl => h.2 level (List.mem_of_mem_take hl)⟩

theorem spelled_of_slugOf {candidates : List String} {s : String}
    (h : slugOf env candidates = .ok s) : Spelled env s := by
  induction candidates with
  | nil => exact absurd h refuse_ne_ok
  | cons candidate candidates ih =>
    rw [slugOf] at h
    split at h
    · exact ih h
    · rename_i hne
      cases h
      exact ⟨hne, candidate, rfl⟩

/-- A slug that is one spelling of a name, within its bound. -/
theorem spelled_slugify {name slug : String} (hslug : slug = env.slugify name)
    (hlen : 1 ≤ slug.length ∧ slug.length ≤ 50) : Spelled env slug := by
  refine ⟨fun h => by simp [h] at hlen, name, ?_⟩
  rw [respell, ← hslug, List.take_of_length_le, String.ofList_toList]
  rw [String.length_toList]
  exact hlen.2

/-- A node as the schema admits it, with at most so many levels. -/
def ImportCategoryNode.Within : ℕ → ImportCategoryNode → Prop
  | 0, _ => False
  | levels + 1, .mk name _ children =>
    (1 ≤ name.length ∧ name.length ≤ 50) ∧ ∀ child ∈ children, child.Within levels

theorem length_of_readBounded {min max : ℕ} {json : Json} {s : String}
    (h : readBounded min max json = some s) : min ≤ s.length ∧ s.length ≤ max :=
  of_decide_eq_true (Option.filter_eq_some_iff.mp h).2

theorem mem_readItems {α : Type} {read : Json → Option α} {json : Option Json} {items : List α}
    (h : readItems read json = some items) {a : α} (ha : a ∈ items) : ∃ j, read j = some a := by
  unfold readItems at h
  split at h
  · cases h
    cases ha
  · rename_i jsons
    induction jsons generalizing items with
    | nil =>
      cases h
      cases ha
    | cons j jsons ih =>
      rw [List.mapM_cons] at h
      obtain ⟨x, hx, h⟩ := Option.bind_eq_some_iff.mp h
      obtain ⟨xs, hxs, h⟩ := Option.bind_eq_some_iff.mp h
      cases h
      rcases List.mem_cons.mp ha with rfl | ha
      · exact ⟨j, hx⟩
      · exact ih ha hxs
  · cases h

theorem ImportCategoryNode.within_of_read {levels : ℕ} {json : Json} {node : ImportCategoryNode}
    (h : ImportCategoryNode.read levels json = some node) : node.Within levels := by
  induction levels generalizing json node with
  | zero => cases h
  | succ levels ih =>
    obtain ⟨name, hname, h⟩ := Option.bind_eq_some_iff.mp h
    obtain ⟨slug, -, h⟩ := Option.bind_eq_some_iff.mp h
    obtain ⟨children, hchildren, h⟩ := Option.bind_eq_some_iff.mp h
    cases h
    obtain ⟨nameJson, -, hname⟩ := Option.bind_eq_some_iff.mp hname
    refine ⟨length_of_readBounded hname, fun child hchild => ?_⟩
    obtain ⟨j, hj⟩ := mem_readItems hchildren hchild
    exact ih hj

/-- The chains of nodes within the schema's bounds, below some fitting levels. -/
theorem fits_of_forestChains {levels : ℕ} {above : CategoryChain}
    {nodes : List ImportCategoryNode} {chains : List CategoryChain}
    (hnodes : ∀ node ∈ nodes, node.Within levels)
    (hlen : above.length + levels ≤ env.settings.mediaImportMaxCategoryDepth)
    (habove : ∀ level ∈ above, FitsLevel env level)
    (h : forestChains env above nodes = .ok chains) : ∀ chain ∈ chains, FitsChain env chain := by
  induction levels generalizing above nodes chains with
  | zero =>
    cases nodes with
    | nil =>
      cases h
      simp
    | cons node nodes => exact (hnodes node List.mem_cons_self).elim
  | succ levels ih =>
    induction nodes generalizing chains with
    | nil =>
      cases h
      simp
    | cons node nodes ihnodes =>
      obtain ⟨name, slug, children⟩ := node
      rw [forestChains, nodeChains] at h
      obtain ⟨hname, hchildren⟩ := hnodes _ List.mem_cons_self
      cases hs : slugOf env [slug, name] with
      | error e =>
        rw [hs] at h
        cases h
      | ok s =>
        rw [hs] at h
        dsimp only at h
        have hlevels : ∀ level ∈ above ++ [(name, s)], FitsLevel env level := by
          intro level hlevel
          rcases List.mem_append.mp hlevel with hlevel | hlevel
          · exact habove level hlevel
          · rw [List.mem_singleton.mp hlevel]
            exact ⟨hname, spelled_of_slugOf hs⟩
        have hlength : (above ++ [(name, s)]).length = above.length + 1 := by simp
        cases hc : forestChains env (above ++ [(name, s)]) children with
        | error e =>
          rw [hc] at h
          cases h
        | ok below =>
          rw [hc] at h
          dsimp only at h
          have hbelow := ih hchildren (by omega) hlevels hc
          cases hr : forestChains env above nodes with
          | error e =>
            rw [hr] at h
            cases h
          | ok rest =>
            rw [hr] at h
            cases h
            intro chain hchain
            rcases List.mem_append.mp hchain with hchain | hchain
            · rcases List.mem_cons.mp hchain with rfl | hchain
              · exact ⟨by omega, hlevels⟩
              · exact hbelow chain hchain
            · exact ihnodes (fun node hn => hnodes node (List.mem_cons_of_mem _ hn)) hr chain hchain

theorem fits_of_pathChain {path : String} {chain : CategoryChain}
    (h : pathChain env path = .ok chain) : FitsChain env chain := by
  unfold pathChain at h
  simp only [bind, Except.bind, pure, Except.pure] at h
  split at h
  · cases h
  · split at h
    · cases h
    · rename_i hlen
      refine ⟨?_, fun level hlevel => ?_⟩
      · rw [length_of_mapM_eq_ok h]
        exact Nat.le_of_not_lt hlen
      · obtain ⟨s, -, hs⟩ := mem_of_mapM_eq_ok h hlevel
        cases hslug : slugOf env [s] with
        | error e =>
          rw [hslug] at hs
          cases hs
        | ok slug =>
          rw [hslug] at hs
          cases hs
          have hspelled := spelled_of_slugOf hslug
          exact ⟨hspelled.length, hspelled⟩

/-- Every chain a parsed document names is within the schema's bounds. -/
theorem fits_of_namedChains {lib : ModelLibrary} {document : Json} {manifest : ImportManifest}
    (hparse : parseManifestDocument env.settings lib document = .ok manifest)
    {named : List CategoryChain} (h : namedChains env manifest = .ok named) :
    ∀ chain ∈ named, FitsChain env chain := by
  have hnodes : ∀ node ∈ manifest.categoryTree,
      node.Within env.settings.mediaImportMaxCategoryDepth := by
    unfold parseManifestDocument at hparse
    split at hparse
    · cases hparse
    · split at hparse
      · exact absurd hparse refuse_ne_ok
      · rename_i hread
        cases hparse
        obtain ⟨tree, htree, hread⟩ := Option.bind_eq_some_iff.mp hread
        obtain ⟨objects, -, hread⟩ := Option.bind_eq_some_iff.mp hread
        cases hread
        intro node hnode
        obtain ⟨j, hj⟩ := mem_readItems htree hnode
        exact ImportCategoryNode.within_of_read hj
  obtain ⟨tree, paths, htree, hpaths, rfl⟩ := mem_namedChains h
  intro chain hchain
  rcases List.mem_append.mp hchain with hchain | hchain
  · exact fits_of_forestChains hnodes (by simp) (by simp) htree chain hchain
  · obtain ⟨path, -, hpath⟩ := mem_of_mapM_eq_ok hpaths hchain
    exact fits_of_pathChain hpath

theorem fits_of_manifestChains {lib : ModelLibrary} {document : Json} {manifest : ImportManifest}
    (hparse : parseManifestDocument env.settings lib document = .ok manifest)
    {chains : List (String × CategoryChain)} (h : manifestChains env manifest = .ok chains) :
    ∀ p ∈ chains, FitsChain env p.2 := by
  obtain ⟨named, hnamed, -⟩ := manifestChains_eq_ok.mp h
  intro p hp
  obtain ⟨-, chain, hchain, n, -, htake⟩ := (prefixes_of_manifestChains hnamed h).2 p hp
  rw [htake]
  exact (fits_of_namedChains hparse hnamed chain hchain).take (n + 1)

/-! ### Rows -/

/-- What a category row is. -/
def Category.Fits (env : Env) (c : Category) : Prop := FitsLevel env (c.name, c.slug)

theorem Category.Fits.fitsNode (h : c.Fits env) : c.FitsNode := ⟨h.1, h.2.length⟩

/-- The levels of a path are rows that were there, or have one of its spellings. -/
theorem mem_of_ensureLevels {parent : Option Category} {n : ℕ}
    (hc : c ∈ (ensureLevels user db parent n segments).1.categories) :
    c ∈ db.categories ∨ (c.name, c.slug) ∈ segments := by
  induction segments generalizing db parent n with
  | nil => exact .inl hc
  | cons level segments ih =>
    obtain ⟨name, slug⟩ := level
    rw [ensureLevels] at hc
    split at hc
    · exact .inl hc
    · rename_i db₁ row k hlevel
      rcases ih hc with hmem | hmem
      · obtain ⟨-, rfl, -⟩ | ⟨-, hinsert, -⟩ := ensureLevel_ok hlevel
        · exact .inl hmem
        · obtain ⟨hrow, t, ht, rfl⟩ := insertCategory_ok hinsert
          rcases (Table.mem_insert ht).mp hmem with hmem | rfl
          · exact .inl hmem
          · exact .inr (by rw [hrow]; exact List.mem_cons_self)
      · exact .inr (List.mem_cons_of_mem _ hmem)

theorem mem_of_ensureCategoryPath
    (hc : c ∈ (ensureCategoryPath db user segments).1.categories) :
    c ∈ db.categories ∨ (c.name, c.slug) ∈ segments := by
  have hlevels : c ∈ (ensureLevels user db none 0 segments).1.categories := by
    unfold ensureCategoryPath at hc
    split at hc <;> rename_i heq <;> rw [heq] <;> exact hc
  exact mem_of_ensureLevels hlevels

/-- A forest of categories with bounded names and spelled slugs. -/
structure SpelledForest (env : Env) (db : Database) : Prop where
  forest : ForestInv env.settings db
  fits : ∀ c ∈ db.categories, c.Fits env

theorem spelledForest_empty (env : Env) : SpelledForest env Database.empty :=
  ⟨forestInv_empty, fun c hc => absurd hc (Table.not_mem_empty c)⟩

theorem SpelledForest.same (h : SpelledForest env db) (hs : SameCategories db db') :
    SpelledForest env db' := by
  obtain ⟨⟨hfresh, hgrounded, hparent, hunique⟩, hfits⟩ := h
  obtain ⟨hcategories, hseq⟩ := hs
  rw [← hcategories] at hgrounded hparent hunique hfits
  exact ⟨⟨by rw [hcategories, hseq]; exact hfresh, hgrounded, hparent, hunique⟩, hfits⟩

/-! ### Category requests -/

/-- A client sends the slug its name is made into; paths come with imports only. -/
def CategoryRequest.Spelled (env : Env) : CategoryRequest → Prop
  | .create _ req => req.slug = env.slugify req.name
  | .update _ _ req => req.slug = env.slugify req.name
  | .delete _ _ => True
  | .ensurePath _ _ => False

theorem SpelledForest.step (h : SpelledForest env db) {r : CategoryRequest}
    (hr : r.Spelled env) : SpelledForest env (r.step env.settings db) := by
  have hforest : ForestInv env.settings (r.step env.settings db) := by
    refine h.forest.step ?_
    cases r with
    | ensurePath user segments => exact hr.elim
    | _ => trivial
  refine ⟨hforest, ?_⟩
  cases r with
  | create user req =>
    simp only [CategoryRequest.step]
    split
    · rename_i hcreate
      obtain ⟨-, -, -, hinsert⟩ := createCategory_ok hcreate
      obtain ⟨hrow, t, ht, rfl⟩ := insertCategory_ok hinsert
      intro c hc
      rcases (Table.mem_insert ht).mp hc with hc | rfl
      · exact h.fits c hc
      · rw [hrow]
        exact ⟨req.name_length, spelled_slugify hr req.slug_length⟩
    · exact h.fits
  | update user i req =>
    simp only [CategoryRequest.step]
    split
    · rename_i new hupdate
      obtain ⟨row, hload, hnew, rfl, -, -⟩ := updateCategory_ok hupdate
      obtain ⟨⟨hrow, -⟩, -⟩ := loadCategory_eq_ok.mp hload
      have hid : new.id = row.id := by rw [hnew]
      intro c hc
      rcases (Table.mem_update (by rw [hid, Table.find_of_mem hrow])).mp hc with rfl | ⟨hc, -⟩
      · rw [hnew]
        exact ⟨req.name_length, spelled_slugify hr req.slug_length⟩
      · exact h.fits c hc
    · exact h.fits
  | delete user i =>
    simp only [CategoryRequest.step]
    split
    · rename_i hdelete
      obtain ⟨row, -, -, rfl⟩ := deleteCategory_ok hdelete
      exact fun c hc => h.fits c (Table.mem_erase.mp hc).1
    · exact h.fits
  | ensurePath user segments => exact hr.elim

/-! ### Imports -/

theorem SpelledForest.ensureChains (h : SpelledForest env db) (user : UserModel)
    (tree : RecreatedTree) {chains : List (String × CategoryChain)}
    (hchains : ∀ p ∈ chains, FitsChain env p.2) :
    SpelledForest env (ensureChains user db tree chains).1 := by
  induction chains generalizing db tree with
  | nil => exact h
  | cons p chains ih =>
    obtain ⟨key, chain⟩ := p
    obtain ⟨hlen, hlevels⟩ := hchains _ List.mem_cons_self
    have hpath : SpelledForest env (ensureCategoryPath db user chain).1 := by
      refine ⟨h.forest.ensureCategoryPath hlen, fun c hc => ?_⟩
      rcases mem_of_ensureCategoryPath hc with hc | hc
      · exact h.fits c hc
      · exact hlevels _ hc
    rw [MediaService.ensureChains]
    split <;> rename_i he <;> rw [he] at hpath
    · exact hpath
    · exact ih hpath _ fun q hq => hchains q (List.mem_cons_of_mem _ hq)

theorem SpelledForest.recreateTree (h : SpelledForest env db) (user : UserModel)
    {lib : ModelLibrary} {document : Json} {manifest : ImportManifest}
    (hparse : parseManifestDocument env.settings lib document = .ok manifest) :
    SpelledForest env (recreateTree env db user manifest).1 := by
  unfold MediaService.recreateTree
  split
  · exact h
  · rename_i chains hchains
    split
    · exact h
    · refine h.ensureChains user _ fun p hp => ?_
      exact fits_of_manifestChains hparse hchains p ((List.mem_insertionSort _).mp hp)

/-! ### Runs -/

/-- A request as the service's routes let it through to its controllers: what they
make of a client's category, and a document that was parsed. -/
def Request.Admitted (env : Env) (lib : ModelLibrary) : Request → Prop
  | .category request => request.Spelled env
  | .importCollection _ _ source =>
    ∃ document, parseManifestDocument env.settings lib document = .ok source.document
  | _ => True

theorem SpelledForest.serve {lib : ModelLibrary} {w : World} (h : SpelledForest env w.backend.db)
    {r : Request} (hr : r.Admitted env lib) : SpelledForest env (serve env w r).backend.db := by
  rw [serve_backend]
  by_cases hcat : ∃ q, r = .category q
  · obtain ⟨q, rfl⟩ := hcat
    exact h.step hr
  · by_cases himp : ∃ ctx user source, r = .importCollection ctx user source
    · obtain ⟨ctx, user, source, rfl⟩ := himp
      obtain ⟨document, hparse⟩ := hr
      rcases sameCategories_runImport env w.backend ctx user source with hs | hs
      · exact h.same hs
      · exact (h.recreateTree user hparse).same hs
    · refine h.same (sameCategories_answer (fun q hq => hcat ⟨q, hq⟩) fun ctx user source hs => ?_)
      exact himp ⟨ctx, user, source, hs⟩

/-- In every reachable world the categories are a spelled forest. -/
theorem spelledForest_run {lib : ModelLibrary} {rs : List Request}
    (hrs : ∀ r ∈ rs, r.Admitted env lib) :
    SpelledForest env (run (MediaService.serve env) World.initial rs).backend.db :=
  (always_of_step (I := fun w : World => SpelledForest env w.backend.db)
    (C := fun _ r => r.Admitted env lib) (fun _ _ h hr => h.serve hr) (spelledForest_empty env)
    (guarded_of_forall (fun r hr _ => hrs r hr) _)).last

end MediaService
