import MediaService.Foundation.Fallible
import MediaService.Lifecycle.Categories
import MediaService.Scenario

/-! Rows of an import. Once a document passes its checks, its tree is recreated
and every row finds the categories it names. A row is then linked, skipped,
refused or driven through the upload pipeline, whose refusals are the row's own.
What escapes is one error: the session of a staged row cannot be inserted under
an id that already has a session. So a batch reports every row exactly if no row
that gets that far finds its session there. -/

namespace MediaService

open Foundation

variable {env : Env}

/-! ### The tree -/

theorem mem_keys_setDefault {chains : List (String × CategoryChain)} {chain : CategoryChain}
    {key : String} :
    key ∈ (setDefault chains chain).map Prod.fst ↔
      key ∈ chains.map Prod.fst ∨ key = chainKey chain := by
  unfold setDefault
  split
  · rename_i hsome
    refine ⟨.inl, fun h => h.elim id ?_⟩
    rintro rfl
    rw [Option.isSome_iff_ne_none, ne_eq, List.lookup_eq_none_iff] at hsome
    by_contra hnot
    refine hsome fun p hp => bne_iff_ne.mpr ?_
    rintro he
    exact hnot (List.mem_map.mpr ⟨p, hp, he.symm⟩)
  · simp

/-- Collecting a chain adds it and its ancestors, and drops nothing. -/
theorem mem_keys_collectChain {chains : List (String × CategoryChain)} {chain : CategoryChain}
    {key : String} : key ∈ (collectChain chains chain).map Prod.fst ↔
      key ∈ chains.map Prod.fst ∨ ∃ n < chain.length, key = chainKey (chain.take (n + 1)) := by
  have hfold : ∀ (ns : List ℕ) (chains : List (String × CategoryChain)),
      key ∈ (ns.foldl (fun chains n => setDefault chains (chain.take (n + 1))) chains).map
        Prod.fst ↔ key ∈ chains.map Prod.fst ∨ ∃ n ∈ ns, key = chainKey (chain.take (n + 1)) := by
    intro ns
    induction ns with
    | nil => simp
    | cons n ns ih =>
      intro chains
      rw [List.foldl_cons, ih, mem_keys_setDefault, or_assoc]
      simp only [List.mem_cons, exists_eq_or_imp]
  rw [collectChain, hfold]
  simp only [List.mem_range]

theorem mem_keys_foldl_collectChain {collected : List CategoryChain}
    {chains : List (String × CategoryChain)} {key : String} :
    key ∈ (collected.foldl collectChain chains).map Prod.fst ↔ key ∈ chains.map Prod.fst ∨
      ∃ chain ∈ collected, ∃ n < chain.length, key = chainKey (chain.take (n + 1)) := by
  induction collected generalizing chains with
  | nil => simp
  | cons chain collected ih =>
    rw [List.foldl_cons, ih, mem_keys_collectChain, or_assoc]
    simp only [List.mem_cons, exists_eq_or_imp]

theorem key_mem_foldl_collectChain {collected : List CategoryChain} {chain : CategoryChain}
    (h : chain ∈ collected) (hne : chain ≠ []) :
    chainKey chain ∈ (collected.foldl collectChain []).map Prod.fst := by
  have hpos := List.length_pos_iff.mpr hne
  refine mem_keys_foldl_collectChain.mpr (.inr ⟨chain, h, chain.length - 1, by omega, ?_⟩)
  rw [Nat.sub_add_cancel hpos, List.take_length]

theorem mem_setDefault {chains : List (String × CategoryChain)} {chain : CategoryChain}
    {p : String × CategoryChain} (h : p ∈ setDefault chains chain) :
    p ∈ chains ∨ p = (chainKey chain, chain) := by
  unfold setDefault at h
  split at h
  · exact .inl h
  · exact (List.mem_append.mp h).imp_right List.mem_singleton.mp

theorem nodup_setDefault {chains : List (String × CategoryChain)}
    (h : (chains.map Prod.fst).Nodup) (chain : CategoryChain) :
    ((setDefault chains chain).map Prod.fst).Nodup := by
  unfold setDefault
  split
  · exact h
  · rename_i hnone
    rw [List.map_append, List.nodup_append]
    refine ⟨h, by simp, fun k hk k' hk' he => ?_⟩
    obtain ⟨p, hp, rfl⟩ := List.mem_map.mp hk
    simp only [List.map_cons, List.map_nil, List.mem_singleton] at hk'
    rw [Option.isSome_iff_ne_none, not_not, List.lookup_eq_none_iff] at hnone
    exact bne_iff_ne.mp (hnone p hp) (he.trans hk').symm

/-- A dictionary of chains holds prefixes of what was collected, each under its own
key, and no key twice. -/
theorem foldl_collectChain_prefixes (collected : List CategoryChain)
    {chains : List (String × CategoryChain)} (h : (chains.map Prod.fst).Nodup) :
    ((collected.foldl collectChain chains).map Prod.fst).Nodup ∧
      ∀ p ∈ collected.foldl collectChain chains, p ∈ chains ∨ p.1 = chainKey p.2 ∧
        ∃ chain ∈ collected, ∃ n < chain.length, p.2 = chain.take (n + 1) := by
  have hinner : ∀ (chain : CategoryChain) (ns : List ℕ) {chains : List (String × CategoryChain)},
      (∀ n ∈ ns, n < chain.length) → (chains.map Prod.fst).Nodup →
      ((ns.foldl (fun chains n => setDefault chains (chain.take (n + 1))) chains).map
        Prod.fst).Nodup ∧
      ∀ p ∈ ns.foldl (fun chains n => setDefault chains (chain.take (n + 1))) chains,
        p ∈ chains ∨ p.1 = chainKey p.2 ∧ ∃ n < chain.length, p.2 = chain.take (n + 1) := by
    intro chain ns
    induction ns with
    | nil => exact fun _ h => ⟨h, fun p hp => .inl hp⟩
    | cons n ns ih =>
      intro chains hns h
      obtain ⟨hnodup, hmem⟩ := ih (fun m hm => hns m (List.mem_cons_of_mem n hm))
        (nodup_setDefault h (chain.take (n + 1)))
      refine ⟨hnodup, fun p hp => ?_⟩
      rcases hmem p hp with hp | hp
      · rcases mem_setDefault hp with hp | rfl
        · exact .inl hp
        · exact .inr ⟨rfl, n, hns n List.mem_cons_self, rfl⟩
      · exact .inr hp
  induction collected generalizing chains with
  | nil => exact ⟨h, fun p hp => .inl hp⟩
  | cons chain collected ih =>
    obtain ⟨hnodup₁, hmem₁⟩ := hinner chain (List.range chain.length)
      (fun n hn => List.mem_range.mp hn) h
    obtain ⟨hnodup, hmem⟩ := @ih (collectChain chains chain) hnodup₁
    refine ⟨hnodup, fun p hp => ?_⟩
    rcases hmem p hp with hp | ⟨hkey, chain', hchain', hprefix⟩
    · rcases hmem₁ p hp with hp | ⟨hkey, hprefix⟩
      · exact .inl hp
      · exact .inr ⟨hkey, chain, List.mem_cons_self, hprefix⟩
    · exact .inr ⟨hkey, chain', List.mem_cons_of_mem chain hchain', hprefix⟩

/-- The chains a document names, those of its tree before those of its objects. -/
def namedChains (env : Env) (manifest : ImportManifest) : Except Failure (List CategoryChain) := do
  let tree ← forestChains env [] manifest.categoryTree
  let paths ← (manifest.objects.flatMap ImportObjectEntry.categoryPaths).mapM (pathChain env)
  return tree ++ paths

theorem manifestChains_eq_ok {manifest : ImportManifest} {chains : List (String × CategoryChain)} :
    manifestChains env manifest = .ok chains ↔
      ∃ named, namedChains env manifest = .ok named ∧ chains = named.foldl collectChain [] := by
  unfold manifestChains namedChains
  cases forestChains env [] manifest.categoryTree with
  | error e => simp [bind, Except.bind]
  | ok tree =>
    cases (manifest.objects.flatMap ImportObjectEntry.categoryPaths).mapM (pathChain env) with
    | error e => simp [bind, Except.bind]
    | ok paths => simp [bind, Except.bind, pure, Except.pure, eq_comm]

/-- A chain a document names is one of its tree, or that of a path of an object. -/
theorem mem_namedChains {manifest : ImportManifest} {named : List CategoryChain}
    (h : namedChains env manifest = .ok named) : ∃ tree paths,
      forestChains env [] manifest.categoryTree = .ok tree ∧
      (manifest.objects.flatMap ImportObjectEntry.categoryPaths).mapM (pathChain env) =
        .ok paths ∧ named = tree ++ paths := by
  unfold namedChains at h
  simp only [bind, Except.bind, pure, Except.pure] at h
  split at h
  · cases h
  · rename_i tree htree
    split at h
    · cases h
    · rename_i paths hpaths
      cases h
      exact ⟨tree, paths, htree, hpaths, rfl⟩

/-- What is looked up of a document are the prefixes of what it names, each under its own
key, and no key twice. -/
theorem prefixes_of_manifestChains {manifest : ImportManifest} {named : List CategoryChain}
    {chains : List (String × CategoryChain)} (h : namedChains env manifest = .ok named)
    (hchains : manifestChains env manifest = .ok chains) :
    (chains.map Prod.fst).Nodup ∧ ∀ p ∈ chains, p.1 = chainKey p.2 ∧
      ∃ chain ∈ named, ∃ n < chain.length, p.2 = chain.take (n + 1) := by
  obtain ⟨named', hnamed, rfl⟩ := manifestChains_eq_ok.mp hchains
  cases h.symm.trans hnamed
  obtain ⟨hnodup, hmem⟩ := foldl_collectChain_prefixes named
    (show (([] : List (String × CategoryChain)).map Prod.fst).Nodup from List.nodup_nil)
  exact ⟨hnodup, fun p hp => (hmem p hp).resolve_left List.not_mem_nil⟩

theorem pathChain_ne_nil {path : String} {chain : CategoryChain}
    (h : pathChain env path = .ok chain) : chain ≠ [] := by
  unfold pathChain at h
  simp only [bind, Except.bind, pure, Except.pure] at h
  split at h
  · cases h
  · rename_i hne
    obtain ⟨segment, hsegment⟩ := List.exists_mem_of_ne_nil _ hne
    split at h
    · cases h
    · obtain ⟨level, hlevel, -⟩ := exists_of_mapM_eq_ok h hsegment
      exact List.ne_nil_of_mem hlevel

/-- What a document's chains are good for: none is empty, and every path an
object names is among them. -/
theorem manifestChains_ok {manifest : ImportManifest} {chains : List (String × CategoryChain)}
    (h : manifestChains env manifest = .ok chains) :
    (∀ p ∈ chains, p.2 ≠ []) ∧ ∀ entry ∈ manifest.objects, ∀ path ∈ entry.categoryPaths,
      ∃ chain, pathChain env path = .ok chain ∧ chainKey chain ∈ chains.map Prod.fst := by
  obtain ⟨named, hnamed, hchains⟩ := manifestChains_eq_ok.mp h
  refine ⟨fun p hp => ?_, fun entry hentry path hpath => ?_⟩
  · obtain ⟨-, chain, -, n, hn, htake⟩ := (prefixes_of_manifestChains hnamed h).2 p hp
    rw [htake, ne_eq, List.take_eq_nil_iff]
    rintro (hzero | rfl)
    · cases hzero
    · cases hn
  · obtain ⟨tree, paths, -, hpaths, rfl⟩ := mem_namedChains hnamed
    obtain ⟨chain, hchain, hc⟩ := exists_of_mapM_eq_ok hpaths
      (List.mem_flatMap.mpr ⟨entry, hentry, hpath⟩)
    refine ⟨chain, hc, ?_⟩
    rw [hchains]
    exact key_mem_foldl_collectChain (List.mem_append_right _ hchain) (pathChain_ne_nil hc)

theorem ensureChains_ok (user : UserModel) (chains : List (String × CategoryChain))
    (hne : ∀ p ∈ chains, p.2 ≠ []) {db : Database} (hf : CategoriesFresh db)
    (tree : RecreatedTree) :
    ∃ db' tree', ensureChains user db tree chains = (db', .ok tree') := by
  induction chains generalizing db tree with
  | nil => exact ⟨db, tree, rfl⟩
  | cons p chains ih =>
    obtain ⟨key, chain⟩ := p
    have hnext := hf.after_path user chain
    obtain ⟨db₁, row, n, he⟩ := hf.ensureCategoryPath_ok user (hne (key, chain) List.mem_cons_self)
    rw [he] at hnext
    rw [ensureChains, he]
    exact ih (fun q hq => hne q (List.mem_cons_of_mem _ hq)) hnext _

/-- The tree has a row for every chain it was made from. -/
theorem keys_ensureChains {user : UserModel} {chains : List (String × CategoryChain)}
    {db db' : Database} {tree tree' : RecreatedTree}
    (h : ensureChains user db tree chains = (db', .ok tree')) :
    tree'.byPath.map Prod.fst = tree.byPath.map Prod.fst ++ chains.map Prod.fst := by
  induction chains generalizing db tree with
  | nil =>
    cases h
    simp
  | cons p chains ih =>
    obtain ⟨key, chain⟩ := p
    rw [ensureChains] at h
    split at h
    · cases h
    · rw [ih h]
      simp

/-- The category checks of a document: its paths are usable, and not too many. -/
def CategoriesPass (env : Env) (manifest : ImportManifest) : Prop :=
  ∃ chains, manifestChains env manifest = .ok chains ∧
    chains.length ≤ env.settings.mediaImportMaxCategories

/-- A tree that was recreated came from chains that passed. -/
theorem recreateTree_eq_ok {manifest : ImportManifest} {user : UserModel} {db db' : Database}
    {tree : RecreatedTree} (h : recreateTree env db user manifest = (db', .ok tree)) :
    ∃ chains, manifestChains env manifest = .ok chains ∧
      chains.length ≤ env.settings.mediaImportMaxCategories ∧
      ensureChains user db ⟨[], 0, 0⟩
        (chains.insertionSort fun a b => shallowestFirst a b = true) = (db', .ok tree) := by
  unfold recreateTree at h
  split at h
  · cases h
  · rename_i chains hchains
    split at h
    · cases h
    · exact ⟨chains, hchains, by omega, h⟩

/-- In a tree that was recreated every entry finds its categories. -/
theorem entry_of_recreateTree {manifest : ImportManifest} {user : UserModel} {db db' : Database}
    {tree : RecreatedTree} (h : recreateTree env db user manifest = (db', .ok tree)) :
    ∀ entry ∈ manifest.objects, (∃ categories, categoriesFor env tree entry = .ok categories) ∧
      ∃ paths, entryPaths env entry = .ok paths := by
  intro entry hentry
  obtain ⟨chains, hchains, -, hensure⟩ := recreateTree_eq_ok h
  obtain ⟨-, hnamed⟩ := manifestChains_ok hchains
  have hkeys := keys_ensureChains hensure
  have hperm := List.perm_insertionSort (fun a b => shallowestFirst a b = true) chains
  have hpaths : ∃ paths, entryPaths env entry = .ok paths := by
    refine exists_mapM_eq_ok fun path hpath => ?_
    obtain ⟨chain, hc, -⟩ := hnamed entry hentry path hpath
    exact ⟨chainKey chain, by simp [hc, bind, Except.bind, pure, Except.pure]⟩
  refine ⟨?_, hpaths⟩
  obtain ⟨paths, hpaths⟩ := hpaths
  have hlookup : ∀ key ∈ paths, tree.byPath.lookup key ≠ none := by
    intro key hkey hl
    obtain ⟨path, hpath, hkey⟩ := mem_of_mapM_eq_ok hpaths hkey
    obtain ⟨chain, hc, hmem⟩ := hnamed entry hentry path hpath
    simp only [hc, bind, Except.bind, pure, Except.pure] at hkey
    cases hkey
    have hin : chainKey chain ∈ tree.byPath.map Prod.fst := by
      rw [hkeys]
      simpa using (hperm.map Prod.fst).mem_iff.mpr hmem
    obtain ⟨p, hp, he⟩ := List.mem_map.mp hin
    exact bne_iff_ne.mp (List.lookup_eq_none_iff.mp hl p hp) he.symm
  unfold categoriesFor
  simp only [hpaths, bind, Except.bind, pure, Except.pure]
  split
  · rename_i e herr
    obtain ⟨key, hkey, he⟩ := exists_of_mapM_eq_error herr
    split at he
    · cases he
    · rename_i hl
      exact absurd hl (hlookup key hkey)
  · exact ⟨_, rfl⟩

/-- A document that passes gets its tree, in which every entry finds its
categories. -/
theorem recreateTree_ok {manifest : ImportManifest} (hpass : CategoriesPass env manifest)
    {db : Database} (hf : CategoriesFresh db) (user : UserModel) :
    ∃ db' tree, recreateTree env db user manifest = (db', .ok tree) ∧
      ∀ entry ∈ manifest.objects, (∃ categories, categoriesFor env tree entry = .ok categories) ∧
        ∃ paths, entryPaths env entry = .ok paths := by
  obtain ⟨chains, hchains, hcap⟩ := hpass
  obtain ⟨hne, -⟩ := manifestChains_ok hchains
  have hperm := List.perm_insertionSort (fun a b => shallowestFirst a b = true) chains
  obtain ⟨db', tree, hok⟩ := ensureChains_ok user _ (fun p hp => hne p (hperm.mem_iff.mp hp)) hf
    ⟨[], 0, 0⟩
  have htree : recreateTree env db user manifest = (db', .ok tree) := by
    unfold recreateTree
    rw [hchains]
    exact (if_neg (by omega)).trans hok
  exact ⟨db', tree, htree, entry_of_recreateTree htree⟩

/-! ### The categories of a row -/

theorem mem_of_mem_eraseDupsBy {α : Type} {r : α → α → Bool} {l : List α} {a : α}
    (h : a ∈ l.eraseDupsBy r) : a ∈ l := by
  induction hn : l.length using Nat.strong_induction_on generalizing l with
  | _ n ih =>
    cases l with
    | nil => exact h
    | cons b l =>
      rw [List.eraseDupsBy_cons] at h
      rcases List.mem_cons.mp h with rfl | h
      · exact List.mem_cons_self
      · have hle := List.length_filter_le (fun c => r c b = false) l
        rw [List.length_cons] at hn
        exact List.mem_cons_of_mem b (List.mem_filter.mp (ih _ (by omega) h rfl)).1

/-- Of every item, one that counts as the same is kept. -/
theorem exists_mem_eraseDupsBy {α : Type} {r : α → α → Bool} (hrefl : ∀ a, r a a = true)
    {l : List α} {a : α} (h : a ∈ l) : ∃ b ∈ l.eraseDupsBy r, r a b = true := by
  induction hn : l.length using Nat.strong_induction_on generalizing l with
  | _ n ih =>
    cases l with
    | nil => cases h
    | cons b l =>
      rw [List.eraseDupsBy_cons]
      by_cases hab : r a b = true
      · exact ⟨b, List.mem_cons_self, hab⟩
      · have hmem : a ∈ l.filter fun c => r c b = false := by
          rcases List.mem_cons.mp h with rfl | h
          · exact absurd (hrefl a) hab
          · exact List.mem_filter.mpr ⟨h, decide_eq_true (Bool.not_eq_true _ ▸ hab)⟩
        have hle := List.length_filter_le (fun c => r c b = false) l
        rw [List.length_cons] at hn
        obtain ⟨c, hc, hac⟩ := ih _ (by omega) hmem rfl
        exact ⟨c, List.mem_cons_of_mem b hc, hac⟩

theorem length_eraseDupsBy_le {α : Type} (r : α → α → Bool) (l : List α) :
    (l.eraseDupsBy r).length ≤ l.length := by
  induction hn : l.length using Nat.strong_induction_on generalizing l with
  | _ n ih =>
    cases l with
    | nil => exact Nat.zero_le _
    | cons b l =>
      have hle := List.length_filter_le (fun c => r c b = false) l
      rw [List.length_cons] at hn
      have hrest := ih _ (by omega) (l.filter fun c => r c b = false) rfl
      rw [List.eraseDupsBy_cons, List.length_cons]
      omega

theorem entryPaths_ok {entry : ImportObjectEntry} {keys : List String}
    (h : entryPaths env entry = .ok keys) {key : String} :
    key ∈ keys ↔ ∃ path ∈ entry.categoryPaths, ∃ chain, pathChain env path = .ok chain ∧
      key = chainKey chain := by
  have hkey : ∀ path, (do let chain ← pathChain env path; return chainKey chain :
      Except Failure String) = .ok key ↔
        ∃ chain, pathChain env path = .ok chain ∧ key = chainKey chain := by
    intro path
    cases pathChain env path with
    | error e => simp [bind, Except.bind]
    | ok chain => simp [bind, Except.bind, pure, Except.pure, eq_comm]
  constructor
  · intro hmem
    obtain ⟨path, hpath, hok⟩ := mem_of_mapM_eq_ok h hmem
    exact ⟨path, hpath, (hkey path).mp hok⟩
  · rintro ⟨path, hpath, hchain⟩
    obtain ⟨key', hkey', hok⟩ := exists_of_mapM_eq_ok h hpath
    rw [(hkey path).mpr hchain] at hok
    cases hok
    exact hkey'

/-- The categories of a row are those the tree has under its paths. -/
theorem lookup_of_found {tree : RecreatedTree} {key : String} {d : Category}
    (h : (match tree.byPath.lookup key with
      | some row => .ok row
      | none => .error (.keyError key) : Except Failure Category) = .ok d) :
    (key, d) ∈ tree.byPath := by
  split at h
  · rename_i hl
    cases h
    obtain ⟨l₁, l₂, hl, -⟩ := List.lookup_eq_some_iff.mp hl
    rw [hl]
    simp
  · cases h

theorem mem_categoriesFor {tree : RecreatedTree} {entry : ImportObjectEntry}
    {categories : List Category} (h : categoriesFor env tree entry = .ok categories) :
    (∀ d ∈ categories, ∃ path ∈ entry.categoryPaths, ∃ chain, pathChain env path = .ok chain ∧
      (chainKey chain, d) ∈ tree.byPath) ∧
    ∀ path ∈ entry.categoryPaths, ∃ chain d, pathChain env path = .ok chain ∧
      (chainKey chain, d) ∈ tree.byPath ∧ ∃ d' ∈ categories, d'.id = d.id := by
  unfold categoriesFor at h
  simp only [bind, Except.bind, pure, Except.pure] at h
  split at h
  · cases h
  · rename_i keys hkeys
    split at h
    · cases h
    · rename_i rows hrows
      cases h
      refine ⟨fun d hd => ?_, fun path hpath => ?_⟩
      · obtain ⟨key, hkey, hd⟩ := mem_of_mapM_eq_ok hrows (mem_of_mem_eraseDupsBy hd)
        obtain ⟨path, hpath, chain, hchain, rfl⟩ := (entryPaths_ok hkeys).mp hkey
        exact ⟨path, hpath, chain, hchain, lookup_of_found hd⟩
      · obtain ⟨key, hkey, hok⟩ := exists_of_mapM_eq_ok hkeys hpath
        cases hchain : pathChain env path with
        | error e =>
          rw [hchain] at hok
          cases hok
        | ok chain =>
          rw [hchain] at hok
          cases hok
          obtain ⟨d, hd, hrow⟩ := exists_of_mapM_eq_ok hrows hkey
          have hrefl : ∀ c : Category, decide (c.id = c.id) = true := fun c => by simp
          obtain ⟨d', hd', hsame⟩ := exists_mem_eraseDupsBy
            (r := fun c d : Category => decide (c.id = d.id)) hrefl hd
          exact ⟨chain, d, rfl, lookup_of_found hrow, d', hd', (of_decide_eq_true hsame).symm⟩

/-- A row has no more categories than its entry may name. -/
theorem length_categoriesFor {tree : RecreatedTree} {entry : ImportObjectEntry}
    {categories : List Category} (h : categoriesFor env tree entry = .ok categories) :
    categories.length ≤ maxCategoryAssignments := by
  unfold categoriesFor at h
  simp only [bind, Except.bind, pure, Except.pure] at h
  split at h
  · cases h
  · rename_i keys hkeys
    split at h
    · cases h
    · rename_i rows hrows
      cases h
      calc (rows.eraseDupsBy _).length ≤ rows.length := length_eraseDupsBy_le _ _
        _ = entry.categoryPaths.length :=
          (length_of_mapM_eq_ok hrows).trans (length_of_mapM_eq_ok hkeys)
        _ ≤ maxCategoryAssignments := entry.categoryPaths_length

/-! ### Refusals -/

/-- The only errors are HTTP errors, which a row can report as its own. -/
def OnlyRefuses {α : Type} (x : Except Failure α) : Prop :=
  ∀ e, x = .error e → ∃ refusal, e = .http refusal

theorem onlyRefuses_ok {α : Type} (a : α) : OnlyRefuses (.ok a) := fun _ h => by cases h

theorem onlyRefuses_refuse {α : Type} (code : ℕ) (message : String) :
    OnlyRefuses (refuse code message : Except Failure α) := by
  intro e h
  cases h
  exact ⟨_, rfl⟩

theorem onlyRefuses_loadCategory (db : Database) (user : UserModel) (i : ℤ) :
    OnlyRefuses (loadCategory db user i) := by
  unfold loadCategory
  split
  · exact onlyRefuses_refuse _ _
  · split
    · exact onlyRefuses_ok _
    · exact onlyRefuses_refuse _ _

theorem onlyRefuses_resolveCategoryIds (db : Database) (user : UserModel) (ids : List ℤ) :
    OnlyRefuses (resolveCategoryIds db user ids) := by
  intro e h
  obtain ⟨i, -, he⟩ := exists_of_mapM_eq_error h
  split at he
  · cases he
  · exact onlyRefuses_loadCategory db user i e he

theorem onlyRefuses_checkQuota (settings : Settings) (usage : UsageTable) (scope : Scope) (n : ℕ) :
    OnlyRefuses (checkQuota settings usage scope n) := by
  unfold checkQuota
  dsimp only
  split
  · exact onlyRefuses_refuse _ _
  · split
    · exact onlyRefuses_refuse _ _
    · exact onlyRefuses_ok _

theorem onlyRefuses_stageUpload (db : Database) (user : UserModel) (req : UploadInitiateRequest)
    (id : UUID) : OnlyRefuses (stageUpload env db user req id) := by
  intro e h
  unfold stageUpload at h
  by_cases hm : isAllowedDeclaredMime req.mimeType = true
  · cases hq : checkQuota env.settings db.usage ⟨user.id, user.tenantId⟩ req.expectedSizeBytes with
    | error e' =>
      simp [hm, hq, bind, Except.bind] at h
      exact onlyRefuses_checkQuota _ _ _ _ e (h ▸ hq)
    | ok u =>
      cases hr : resolveCategoryIds db user req.categoryIds with
      | error e' =>
        simp [hm, hq, hr, bind, Except.bind] at h
        exact onlyRefuses_resolveCategoryIds _ _ _ e (h ▸ hr)
      | ok cs => simp [hm, hq, hr, bind, Except.bind, pure, Except.pure] at h
  · simp [hm, refuse, bind, Except.bind] at h
    exact ⟨_, h.symm⟩

theorem onlyRefuses_rejectUpload {b : Backend} (hk : WellKept env b.holdings) {s : UploadSession}
    (hs : b.db.sessions.find s.id = some s) (hi : s.status = .initiated) (usage : UsageTable)
    (faults : Faults) (now : Timestamp) (reason : UploadRejectReason) (size : ℕ) :
    OnlyRefuses (rejectUpload b usage faults now s reason size).2 := by
  obtain ⟨db', h⟩ := insertObject_eq_ok hk hs hi
    (o := sessionObject s s.expectedMimeType size none .rejected now) rfl rfl usage
  unfold rejectUpload
  rw [h]
  exact fun e he => ⟨_, (Except.error.inj he).symm⟩

theorem onlyRefuses_completeSession {b : Backend} (hk : WellKept env b.holdings)
    {s : UploadSession} (hs : b.db.sessions.find s.id = some s) (hi : s.status = .initiated)
    (faults : Faults) (now : Timestamp) {sha256 : Option String} (hfits : s.FitsAnswer sha256)
    (categories : List Category) :
    OnlyRefuses (completeSession env b faults now s sha256 categories).2 := by
  have hreject := onlyRefuses_rejectUpload hk hs hi
  unfold completeSession
  split
  · exact onlyRefuses_refuse _ _
  · rename_i size _
    split
    · exact hreject _ _ _ _ _
    · dsimp only
      split
      · exact hreject _ _ _ _ _
      · split
        · exact onlyRefuses_refuse _ _
        · exact hreject _ _ _ _ _
        · split
          · exact onlyRefuses_refuse _ _
          · rename_i storage hct
            have hh := holdings_setObjectContentType hct
            rw [← hh] at hk
            split
            · exact onlyRefuses_rejectUpload hk hs hi _ _ _ _ _
            · rename_i usage _
              unfold promoteUpload
              dsimp only
              split
              · rename_i e herr
                obtain ⟨db', h⟩ := insertObject_eq_ok hk hs hi
                  (o := sessionObject s s.expectedMimeType size sha256 .uploaded now) rfl rfl usage
                cases h.symm.trans herr
              · dsimp only [MediaObject.validated]
                rw [if_pos (validFields_sessionObject.mpr hfits)]
                exact onlyRefuses_ok _

/-- A completion of which the answer fits fails only by refusing. -/
theorem onlyRefuses_completeUpload {b : Backend} (hk : WellKept env b.holdings) (faults : Faults)
    (now : Timestamp) (user : UserModel) (sessionId : UUID) (req : UploadCompleteRequest)
    (hfits : ∀ s, loadOwnedSession b.db user sessionId = .ok s → s.FitsAnswer req.sha256) :
    OnlyRefuses (completeUpload env b faults now user sessionId req).2 := by
  rcases completeUpload_cases env b faults now user sessionId req with
    ⟨_, _, he⟩ | ⟨_, -, -, -, _, _, he⟩ | ⟨s, e, hcat, he⟩ | ⟨s, categories, hload, hi, -, -, he⟩
  · rw [he]
    exact onlyRefuses_refuse _ _
  · rw [he]
    exact onlyRefuses_refuse _ _
  · rw [he]
    intro e' he'
    cases he'
    unfold completionCategories at hcat
    split at hcat
    · exact onlyRefuses_resolveCategoryIds _ _ _ _ hcat
    · cases hcat
  · rw [he]
    obtain ⟨hs, -, -⟩ := loadOwnedSession_ok hload
    exact onlyRefuses_completeSession hk hs hi faults now (hfits s hload) _

/-! ### One row -/

section Row

variable {b : Backend} {ctx : RowContext} {user : UserModel} {entry : ImportObjectEntry}
  {categories : List Category} {paths : List String}

/-- A staged upload's session can be inserted unless its id has one. -/
theorem recordUploadSession_error_iff (hk : WellKept env b.holdings) {db : Database}
    {req : UploadInitiateRequest} {id : UUID} {staged : StagedUpload}
    (hs : stageUpload env db user req id = .ok staged) (now expiresAt : Timestamp) :
    (∃ e, recordUploadSession b.db staged req now expiresAt = .error e) ↔
      (b.db.sessions.find id).isSome := by
  obtain ⟨hid, -, -, hkey⟩ := stageUpload_ok hs
  have hnone : (b.db.sessions.insert (stagedSession staged req now expiresAt)).isSome ↔
      b.db.sessions.find id = none := by
    rw [Table.insert_isSome, ← hid]
    rfl
  unfold recordUploadSession Database.insertSession
  split
  · rename_i htaken
    refine iff_of_true ⟨_, rfl⟩ ?_
    obtain ⟨s, hmem, hloc⟩ := htaken
    have hown : IsOriginalKey env ⟨user.id, user.tenantId⟩ id s.objectKey :=
      ⟨req.category, req.originalFilename, (congrArg Location.objectKey hloc).trans hkey⟩
    rw [← (hk.session_key s hmem).id_eq hown, Table.find_of_mem hmem]
    rfl
  · split
    · rename_i hins
      refine iff_of_true ⟨_, rfl⟩ ?_
      rw [Option.isSome_iff_ne_none, ne_eq, ← hnone, hins]
      simp
    · rename_i t hins
      refine iff_of_false (by rintro ⟨e, he⟩; cases he) ?_
      rw [hnone.mp (by rw [hins]; rfl)]
      simp

theorem recordAndComplete_error_iff (hk : WellKept env b.holdings) {db : Database}
    {body req : UploadInitiateRequest} {staged : StagedUpload}
    (hreq : body.validated env = some req)
    (hs : stageUpload env db user req entry.id = .ok staged) :
    (∃ e, (recordAndComplete env b ctx user entry staged req categories paths).2 = .error e) ↔
      (b.db.sessions.find entry.id).isSome := by
  have hrecord := recordUploadSession_error_iff hk hs ctx.recordedAt
    (ctx.recordedAt + seconds env.settings.s3PresignedUrlExpireSeconds)
  rw [← hrecord]
  unfold recordAndComplete
  dsimp only
  split
  · rename_i e he
    exact iff_of_true ⟨e, rfl⟩ ⟨e, he⟩
  · rename_i db' hrec
    refine iff_of_false ?_ (by rintro ⟨e, he⟩; cases hrec.symm.trans he)
    have hfits : ∀ s, loadOwnedSession db' user staged.mediaId = .ok s →
        s.FitsAnswer entry.sha256 := by
      intro s hload
      obtain ⟨hfind, hid, -⟩ := loadOwnedSession_ok hload
      obtain ⟨-, t, ht, rfl⟩ := Database.insertSession_ok hrec
      rw [Table.find_insert ht, if_pos (by exact hid)] at hfind
      cases hfind
      exact fitsAnswer_stagedSession hreq hs _ _ entry.sha256_length
    have hrefuses := onlyRefuses_completeUpload ((movesTo_recordUploadSession hs hrec).wellKept hk)
      ctx.faults ctx.completedAt user staged.mediaId
      ⟨entry.sha256, some (categories.map Category.id)⟩ hfits
    rintro ⟨e, he⟩
    split at he
    · cases he
    · cases he
    · rename_i e' hne hc
      rw [hc] at hrefuses
      obtain ⟨refusal, rfl⟩ := hrefuses e' rfl
      exact hne _ rfl

/-- The row comes to record its session: no object has its id, its bytes are in
the archive, pass the checks before staging and are stored. -/
def ReachesSession (env : Env) (b : Backend) (ctx : RowContext) (user : UserModel)
    (info : Option ZipInfo) (entry : ImportObjectEntry) (categories : List Category) : Prop :=
  b.db.objects.find entry.id = none ∧ ∃ zip req staged data, info = some zip ∧
    isAllowedDeclaredMime entry.mimeType = true ∧
    zip.fileSize ≤ maxSizeForCategory env.settings entry.category.str ∧
    (entryRequest env entry zip.fileSize categories).validated env = some req ∧
    stageUpload env b.db user req entry.id = .ok staged ∧ zip.read = some data ∧
    ctx.faults .put staged.location = false

theorem importNewFile_error_iff (hk : WellKept env b.holdings)
    (hnone : b.db.objects.find entry.id = none) (zip : ZipInfo) :
    (∃ e, (importNewFile env b ctx user zip entry categories paths).2 = .error e) ↔
      ReachesSession env b ctx user (some zip) entry categories ∧
        (b.db.sessions.find entry.id).isSome := by
  have hrefused : ∀ {res : ImportObjectResult × Option MediaObject} {P : Prop}, ¬ P →
      ((∃ e, (Except.ok res : Except Failure _) = .error e) ↔ P) :=
    fun hP => iff_of_false (by rintro ⟨e, he⟩; cases he) hP
  unfold importNewFile
  split
  · rename_i hmime
    refine hrefused ?_
    rintro ⟨⟨-, _, _, _, _, -, hallowed, -⟩, -⟩
    simp [hallowed] at hmime
  · rename_i hmime
    split
    · rename_i hbig
      refine hrefused ?_
      rintro ⟨⟨-, _, _, _, _, hzip, -, hle, -⟩, -⟩
      cases hzip
      omega
    · rename_i hsize
      split
      · rename_i hinvalid
        refine hrefused ?_
        rintro ⟨⟨-, _, _, _, _, hzip, -, -, hvalid, -⟩, -⟩
        cases hzip
        cases hinvalid.symm.trans hvalid
      · rename_i req hreq
        split
        · rename_i refusal hstage
          refine hrefused ?_
          rintro ⟨⟨-, _, _, _, _, hzip, -, -, hvalid, hok, -⟩, -⟩
          cases hzip
          cases hreq.symm.trans hvalid
          cases hstage.symm.trans hok
        · rename_i e hne hstage
          obtain ⟨refusal, rfl⟩ := onlyRefuses_stageUpload _ _ _ _ _ hstage
          exact absurd rfl (hne refusal)
        · rename_i staged hstage
          split
          · rename_i hput
            refine hrefused ?_
            rintro ⟨⟨-, _, _, _, data, hzip, -, -, hvalid, hok, hread, hfault⟩, -⟩
            cases hzip
            cases hreq.symm.trans hvalid
            cases hstage.symm.trans hok
            rw [hread] at hput
            simp [Storage.putObjectStream, hfault] at hput
          · rename_i st hput
            obtain ⟨data, hread, hstored⟩ := Option.bind_eq_some_iff.mp hput
            have hfault : ctx.faults .put staged.location = false := by
              unfold Storage.putObjectStream at hstored
              split at hstored
              · cases hstored
              · rename_i hf
                simpa using hf
            have hreach : ReachesSession env b ctx user (some zip) entry categories :=
              ⟨hnone, zip, req, staged, data, rfl, by simpa using hmime, by omega, hreq, hstage,
                hread, hfault⟩
            unfold Storage.putObjectStream at hstored
            rw [if_neg (by simp [hfault])] at hstored
            cases hstored
            have hmove := @movesTo_put env b _ data entry.mimeType
              (location_ne_staged hk hstage hnone)
            rw [recordAndComplete_error_iff (hmove.wellKept hk) hreq hstage]
            exact (and_iff_right hreach).symm

/-- The one error that escapes a row. -/
theorem importOneFile_error_iff (hk : WellKept env b.holdings) (info : Option ZipInfo) :
    (∃ e, (importOneFile env b ctx user info entry categories paths).2 = .error e) ↔
      ReachesSession env b ctx user info entry categories ∧
        (b.db.sessions.find entry.id).isSome := by
  have hmatched : ∀ {m}, importableMatch b.db user entry.id = some m →
      ¬ (ReachesSession env b ctx user info entry categories ∧
        (b.db.sessions.find entry.id).isSome) := by
    rintro m hm ⟨⟨hnone, -⟩, -⟩
    rw [importableMatch_eq_none.mpr hnone] at hm
    cases hm
  unfold importOneFile
  split
  · rename_i hm
    exact iff_of_false (by rintro ⟨e, he⟩; cases he) (hmatched hm)
  · rename_i hm
    exact iff_of_false (by rintro ⟨e, he⟩; cases he) (hmatched hm)
  · rename_i hm
    cases info with
    | none =>
      refine iff_of_false (by rintro ⟨e, he⟩; cases he) ?_
      rintro ⟨⟨-, _, _, _, _, hzip, -⟩, -⟩
      cases hzip
    | some zip => exact importNewFile_error_iff hk (importableMatch_eq_none.mp hm) zip

theorem importOneFile_ok_iff (hk : WellKept env b.holdings) (info : Option ZipInfo) :
    (∃ res, (importOneFile env b ctx user info entry categories paths).2 = .ok res) ↔
      (ReachesSession env b ctx user info entry categories →
        b.db.sessions.find entry.id = none) := by
  have hiff : (ReachesSession env b ctx user info entry categories →
      b.db.sessions.find entry.id = none) ↔ ¬ (ReachesSession env b ctx user info entry categories ∧
        (b.db.sessions.find entry.id).isSome) := by
    rw [not_and, Bool.not_eq_true, Option.isSome_eq_false_iff, Option.isNone_iff_eq_none]
  rw [hiff, ← @importOneFile_error_iff env b ctx user entry categories paths hk info]
  cases (importOneFile env b ctx user info entry categories paths).2 with
  | error e => simp
  | ok res => simp

end Row

/-! ### The batch -/

/-- What a report row says it is about. -/
def ImportObjectResult.about (r : ImportObjectResult) : UUID × Option String :=
  (r.sourceId, r.filename)

def ImportObjectEntry.about (entry : ImportObjectEntry) : UUID × Option String :=
  (entry.id, entry.filename)

theorem about_importOneFile {b : Backend} {ctx : RowContext} {user : UserModel}
    {info : Option ZipInfo} {entry : ImportObjectEntry} {categories : List Category}
    {paths : List String} {res : ImportObjectResult × Option MediaObject}
    (h : (importOneFile env b ctx user info entry categories paths).2 = .ok res) :
    res.1.about = entry.about := by
  rcases importOneFile_cases env b ctx user info entry categories paths with
    ⟨_, _, _, he⟩ | ⟨_, -, he⟩ | ⟨o, -, he⟩ |
      ⟨_, req, staged, -, -, -, ⟨_, _, _, he⟩ | ⟨_, st, -, he⟩⟩
  · rw [he] at h
    cases h
    rfl
  · rw [he] at h
    cases h
  · rw [he] at h
    cases h
    rfl
  · rw [he] at h
    cases h
    rfl
  · rw [he] at h
    unfold recordAndComplete at h
    dsimp only at h
    split at h
    · cases h
    · split at h <;> cases h <;> rfl

theorem importManifestEntry_ok (b : Backend) (ctx : RowContext) (user : UserModel)
    (entry : ImportObjectEntry) (categories : List Category) (paths : List String) :
    ∃ res, (importManifestEntry b ctx user entry categories paths).2 = .ok res ∧
      res.1.about = entry.about := by
  unfold importManifestEntry
  split <;> exact ⟨_, rfl, rfl⟩

/-- `C` holds of every row, in the state the rows before it leave. -/
def EachRow (env : Env) (tree : RecreatedTree) (ctx : ℕ → RowContext) (row : ImportRow)
    (C : Backend → RowContext → ImportObjectEntry → List Category → Prop) :
    ℕ → Backend → List ImportObjectEntry → Prop
  | _, _, [] => True
  | i, b, entry :: entries => ∀ categories paths, categoriesFor env tree entry = .ok categories →
      entryPaths env entry = .ok paths → C b (ctx i) entry categories ∧
        EachRow env tree ctx row C (i + 1) (row b (ctx i) entry categories paths).1 entries

theorem eachRow_of_forall {tree : RecreatedTree} {ctx : ℕ → RowContext} {row : ImportRow}
    {C : Backend → RowContext → ImportObjectEntry → List Category → Prop}
    (h : ∀ b ctx entry categories, C b ctx entry categories) (i : ℕ) (b : Backend)
    (entries : List ImportObjectEntry) : EachRow env tree ctx row C i b entries := by
  induction entries generalizing i b with
  | nil => trivial
  | cons entry entries ih => exact fun categories paths _ _ => ⟨h _ _ _ _, ih _ _⟩

/-- Rows that answer exactly under `C` are all reported, in order, exactly if each
of them meets it. -/
theorem importRows_ok_iff {tree : RecreatedTree} {ctx : ℕ → RowContext} {row : ImportRow}
    {C : Backend → RowContext → ImportObjectEntry → List Category → Prop}
    (hkept : ∀ b ctx entry categories paths, WellKept env b.holdings →
      WellKept env (row b ctx entry categories paths).1.holdings)
    (hok : ∀ b ctx entry categories paths, WellKept env b.holdings →
      ((∃ res, (row b ctx entry categories paths).2 = .ok res) ↔ C b ctx entry categories))
    (habout : ∀ b ctx entry categories paths res,
      (row b ctx entry categories paths).2 = .ok res → res.1.about = entry.about)
    (i : ℕ) {b : Backend} (hk : WellKept env b.holdings) {entries : List ImportObjectEntry}
    (hfound : ∀ entry ∈ entries, (∃ categories, categoriesFor env tree entry = .ok categories) ∧
      ∃ paths, entryPaths env entry = .ok paths) :
    (∃ results, (importRows env tree ctx row i b entries).2 = .ok results ∧
      results.map (fun res => res.1.about) = entries.map ImportObjectEntry.about) ↔
      EachRow env tree ctx row C i b entries := by
  induction entries generalizing i b with
  | nil => exact iff_of_true ⟨[], rfl, rfl⟩ trivial
  | cons entry entries ih =>
    obtain ⟨⟨categories, hcat⟩, paths, hpaths⟩ := hfound entry List.mem_cons_self
    have hnext := hkept b (ctx i) entry categories paths hk
    have hthis := hok b (ctx i) entry categories paths hk
    have hname := habout b (ctx i) entry categories paths
    have heach : EachRow env tree ctx row C i b (entry :: entries) ↔
        C b (ctx i) entry categories ∧
          EachRow env tree ctx row C (i + 1) (row b (ctx i) entry categories paths).1 entries := by
      refine ⟨fun h => h categories paths hcat hpaths, fun h categories' paths' hcat' hpaths' => ?_⟩
      cases hcat.symm.trans hcat'
      cases hpaths.symm.trans hpaths'
      exact h
    rw [heach, ← hthis,
      ← ih (i + 1) hnext fun q hq => hfound q (List.mem_cons_of_mem entry hq)]
    rw [importRows, hcat, hpaths]
    dsimp only
    cases hrow : row b (ctx i) entry categories paths with
    | mk b' res =>
      rw [hrow] at hname
      cases res with
      | error e =>
        refine iff_of_false ?_ ?_
        · rintro ⟨results, h, -⟩
          cases h
        · rintro ⟨⟨res, h⟩, -⟩
          cases h
      | ok res =>
        have hres := hname res rfl
        dsimp only
        cases hrest : importRows env tree ctx row (i + 1) b' entries with
        | mk b'' rest =>
          cases rest with
          | error e =>
            refine iff_of_false ?_ ?_
            · rintro ⟨results, h, -⟩
              cases h
            · rintro ⟨-, results, h, -⟩
              cases h
          | ok results =>
            constructor
            · rintro ⟨all, h, hall⟩
              cases h
              rw [List.map_cons, List.map_cons, List.cons.injEq] at hall
              exact ⟨⟨res, rfl⟩, results, rfl, hall.2⟩
            · rintro ⟨-, results', h, hall⟩
              cases h
              exact ⟨res :: results, rfl, by rw [List.map_cons, List.map_cons, hres, hall]⟩

/-! ### The document -/

/-- The checks on the document as a whole. -/
def DocumentPasses (env : Env) : ImportSource → Prop
  | .manifest manifest => CategoriesPass env manifest
  | .archive manifest infolist =>
    assertArchiveWithinCeilings env manifest infolist = .ok () ∧ CategoriesPass env manifest

/-- A row of an archive whose session is to be recorded has none under its id. -/
def SessionFree (env : Env) (user : UserModel) (infolist : List ZipInfo) (b : Backend)
    (ctx : RowContext) (entry : ImportObjectEntry) (categories : List Category) : Prop :=
  ReachesSession env b ctx user (fileEntry env infolist entry.id) entry categories →
    b.db.sessions.find entry.id = none

/-- Every row of the document finds its session id free, once the tree stands. -/
def RowsClear (env : Env) (b : Backend) (ctx : ℕ → RowContext) (user : UserModel) :
    ImportSource → Prop
  | .manifest _ => True
  | .archive manifest infolist => ∀ db tree, recreateTree env b.db user manifest = (db, .ok tree) →
      EachRow env tree ctx (fun b ctx entry categories paths =>
          importOneFile env b ctx user (fileEntry env infolist entry.id) entry categories paths)
        (SessionFree env user infolist) 0 { b with db := db } manifest.objects

theorem importDocument_ok_iff {b : Backend} {user : UserModel} {manifest : ImportManifest}
    {ctx : ℕ → RowContext} {row : ImportRow} {db : Database} {tree : RecreatedTree}
    (htree : recreateTree env b.db user manifest = (db, .ok tree)) (format : ImportFormat) :
    (∃ outcome, (importDocument env b ctx user format manifest row).2 = .ok outcome ∧
      outcome.report.objects.map ImportObjectResult.about =
        manifest.objects.map ImportObjectEntry.about) ↔
      ∃ results, (importRows env tree ctx row 0 { b with db := db } manifest.objects).2 =
          .ok results ∧
        results.map (fun res => res.1.about) = manifest.objects.map ImportObjectEntry.about := by
  unfold importDocument
  rw [htree]
  dsimp only
  cases hr : importRows env tree ctx row 0 ⟨db, b.storage⟩ manifest.objects with
  | mk b' res =>
    cases res with
    | error e =>
      refine iff_of_false ?_ ?_
      · rintro ⟨outcome, h, -⟩
        cases h
      · rintro ⟨results, h, -⟩
        cases h
    | ok results =>
      constructor
      · rintro ⟨outcome, h, hall⟩
        cases h
        simp only [tallied, List.map_map] at hall
        exact ⟨results, rfl, hall⟩
      · rintro ⟨results', h, hall⟩
        cases h
        refine ⟨_, rfl, ?_⟩
        simp only [tallied, List.map_map]
        exact hall

/-- From any reachable state, a document that passes its checks gets a report of
one row for each of its objects, in order, if and only if no row that comes to
record its session finds one under its id. -/
theorem runImport_reports_iff (env : Env) (rs : List Request) (ctx : ℕ → RowContext)
    (user : UserModel) (source : ImportSource) (hpass : DocumentPasses env source) :
    let b := (run (serve env) World.initial rs).backend
    (∃ outcome, (runImport env b ctx user source).2 = .ok outcome ∧
      outcome.report.objects.map ImportObjectResult.about =
        source.document.objects.map ImportObjectEntry.about) ↔
      RowsClear env b ctx user source := by
  intro b
  have hf : CategoriesFresh b.db := categoriesFresh_run env rs
  have hk : WellKept env b.holdings := (worldInv_run env rs).kept
  have hafter : ∀ {manifest : ImportManifest} {db : Database} {tree : RecreatedTree},
      recreateTree env b.db user manifest = (db, .ok tree) →
      WellKept env (Backend.mk db b.storage).holdings := by
    intro manifest db tree htree
    have hsame := (onlyCategories_recreateTree env b.db user manifest).holdings b.storage
    rw [htree] at hsame
    rw [hsame]
    exact hk
  cases source with
  | manifest manifest =>
    obtain ⟨db, tree, htree, hfound⟩ := recreateTree_ok hpass hf user
    simp only [runImport, ImportSource.document, RowsClear, iff_true]
    rw [importDocument_ok_iff htree]
    refine (importRows_ok_iff (C := fun _ _ _ _ => True) ?_ ?_ ?_ 0 (hafter htree) hfound).mpr ?_
    · exact fun b ctx entry categories paths hk =>
        (movesTo_importManifestEntry b ctx user entry categories paths).wellKept hk
    · intro b ctx entry categories paths _
      obtain ⟨res, hres, -⟩ := importManifestEntry_ok b ctx user entry categories paths
      exact iff_of_true ⟨res, hres⟩ trivial
    · intro b ctx entry categories paths res h
      obtain ⟨res', hres, habout⟩ := importManifestEntry_ok b ctx user entry categories paths
      cases hres.symm.trans h
      exact habout
    · exact eachRow_of_forall (fun _ _ _ _ => trivial) _ _ _
  | archive manifest infolist =>
    obtain ⟨hceilings, hcategories⟩ := hpass
    obtain ⟨db, tree, htree, hfound⟩ := recreateTree_ok hcategories hf user
    have hclear : RowsClear env b ctx user (.archive manifest infolist) ↔
        EachRow env tree ctx (fun b ctx entry categories paths =>
            importOneFile env b ctx user (fileEntry env infolist entry.id) entry categories paths)
          (SessionFree env user infolist) 0 { b with db := db } manifest.objects := by
      refine ⟨fun h => h db tree htree, fun h db' tree' htree' => ?_⟩
      cases htree.symm.trans htree'
      exact h
    rw [hclear]
    simp only [runImport, hceilings, ImportSource.document]
    rw [importDocument_ok_iff htree]
    refine importRows_ok_iff ?_ ?_ ?_ 0 (hafter htree) hfound
    · exact fun b ctx entry categories paths hk =>
        (movesTo_importOneFile hk ctx user _ entry categories paths).wellKept hk
    · exact fun b ctx entry categories paths hk => importOneFile_ok_iff hk _
    · exact fun b ctx entry categories paths res h => about_importOneFile h

/-- A manifest row for the upload of id 2, and the archive that carries it. -/
def pngEntry : ImportObjectEntry where
  id := ⟨2⟩
  filename := some "a.png"
  category := .asset
  categoryPaths := []
  visibility := .private
  sizeBytes := 4
  sha256 := none
  mimeType := "image/png"
  filename_length := by
    rintro f ⟨⟩
    decide
  categoryPaths_length := by simp
  sha256_length := by simp
  mimeType_length := by decide

def pngArchive : ImportSource :=
  .archive ⟨[], [pngEntry]⟩
    [⟨"files/00000000-0000-0000-0000-000000000002/a.png", false, 4, some pngSignature⟩]

theorem pngArchive_passes : DocumentPasses Env.default pngArchive :=
  ⟨by decide +kernel, [], rfl, by decide⟩

/-- Rows run one after another, with nothing failing. -/
def rowContexts : ℕ → RowContext := fun i => ⟨Faults.none, 10 + i, 10 + i⟩

/-- What a report says of its rows. -/
def reportedRows (x : Except Failure ImportOutcome) : Option (List (UUID × Option String)) :=
  x.toOption.map fun outcome => outcome.report.objects.map ImportObjectResult.about

/-- Imported afresh, the archive finds its session id free. -/
theorem rowsClear_pngArchive :
    RowsClear Env.default World.initial.backend rowContexts (.ordinary 1) pngArchive := by
  refine (runImport_reports_iff Env.default [] rowContexts (.ordinary 1) pngArchive
    pngArchive_passes).mp ?_
  have hrows : reportedRows (runImport Env.default World.initial.backend rowContexts (.ordinary 1)
      pngArchive).2 = some [(⟨2⟩, some "a.png")] := by decide +kernel
  cases hres : (runImport Env.default World.initial.backend rowContexts (.ordinary 1)
      pngArchive).2 with
  | error e =>
    rw [hres] at hrows
    cases hrows
  | ok outcome =>
    rw [hres] at hrows
    exact ⟨outcome, hres, Option.some.inj hrows⟩

/-- An upload, deleted and then purged for good; its session stays behind. -/
def purgedUpload : List Request :=
  uploadRequests Env.default 0 ⟨2⟩ (.ordinary 1) .private pngSignature ++
    [.delete Faults.none false 1 (.ordinary 1) ⟨2⟩, .hardPurge Faults.none 9 0 10]

/-- The document passes its checks, and importing it raises instead of reporting. -/
theorem not_runImport_reports :
    let b := (run (serve Env.default) World.initial purgedUpload).backend
    DocumentPasses Env.default pngArchive ∧
      ¬ ∃ outcome, (runImport Env.default b rowContexts (.ordinary 1) pngArchive).2 = .ok outcome ∧
        outcome.report.objects.map ImportObjectResult.about =
          pngArchive.document.objects.map ImportObjectEntry.about := by
  intro b
  refine ⟨pngArchive_passes, ?_⟩
  rintro ⟨outcome, hok, -⟩
  have hnone : reportedRows (runImport Env.default b rowContexts (.ordinary 1) pngArchive).2 =
      none := by decide +kernel
  rw [hok] at hnone
  cases hnone

end MediaService
