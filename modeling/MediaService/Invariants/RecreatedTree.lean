import MediaService.Invariants.ManifestRoundTrip

/-! The tree an import recreates. The chains are resolved shallowest first, so each finds
the line of its parent and adds at most the one level it names. What is new is a category
for each prefix that had none, and under the slug path of a prefix is the category that
ends its line. -/

namespace MediaService

open Foundation

variable {env : Env} {settings : Settings} {user : UserModel} {db db' db₀ : Database}
  {c row : Category} {cs : List Category} {chain : CategoryChain} {n : ℕ}

/-! ### Lines of slugs -/

/-- A line of categories from a root has these slugs. -/
def HasLine (t : Table Category.id) (slugs : List String) : Prop :=
  ∃ cs, Line t none cs ∧ cs.map Category.slug = slugs

theorem Line.mono {t t' : Table Category.id} {above : Option ℤ} (hsub : ∀ c ∈ t, c ∈ t')
    (h : Line t above cs) : Line t' above cs := by
  induction cs generalizing above with
  | nil => trivial
  | cons c cs ih => exact ⟨hsub c h.1, h.2.1, ih h.2.2⟩

theorem HasLine.mono {t t' : Table Category.id} {slugs : List String} (hsub : ∀ c ∈ t, c ∈ t')
    (h : HasLine t slugs) : HasLine t' slugs := by
  obtain ⟨cs, hline, hslugs⟩ := h
  exact ⟨cs, hline.mono hsub, hslugs⟩

theorem foot_eq_getLast? (above : Option ℤ) (cs : List Category) :
    foot above cs = (cs.getLast?.map Category.id).or above := by
  rcases List.eq_nil_or_concat' cs with rfl | ⟨cs, c, rfl⟩
  · rfl
  · rw [foot_append, List.getLast?_concat]
    rfl

/-! ### One call -/

theorem ensureLevels_append {parent last : Option Category} {m : ℕ}
    {segments : List (String × String)}
    (h : ensureLevels user db parent n segments = (db', .ok (last, m)))
    (rest : List (String × String)) :
    ensureLevels user db parent n (segments ++ rest) = ensureLevels user db' last m rest := by
  induction segments generalizing db parent n with
  | nil =>
    cases h
    rfl
  | cons level segments ih =>
    obtain ⟨name, slug⟩ := level
    rw [ensureLevels] at h
    rw [List.cons_append, ensureLevels]
    split at h
    · cases h
    · exact ih h

/-- Every level of the chain is there. -/
def Found (user : UserModel) (db : Database) (chain : CategoryChain) : Prop :=
  ∃ last, ensureLevels user db none 0 chain = (db, .ok (last, 0))

theorem found_nil (user : UserModel) (db : Database) : Found user db [] := ⟨none, rfl⟩

/-- What a chain is called does not matter to finding it. -/
theorem ensureLevels_congr {parent last : Option Category} {segments segments' : CategoryChain}
    (hslugs : segments'.map Prod.snd = segments.map Prod.snd)
    (h : ensureLevels user db parent n segments = (db, .ok (last, n))) :
    ensureLevels user db parent n segments' = (db, .ok (last, n)) := by
  induction segments generalizing parent segments' with
  | nil =>
    obtain rfl : segments' = [] := List.map_eq_nil_iff.mp hslugs
    exact h
  | cons level segments ih =>
    obtain ⟨name, slug⟩ := level
    cases segments' with
    | nil => cases hslugs
    | cons level' segments' =>
      obtain ⟨name', slug'⟩ := level'
      rw [List.map_cons, List.map_cons, List.cons.injEq] at hslugs
      obtain ⟨hslug, hrest⟩ := hslugs
      dsimp only at hslug
      subst hslug
      rw [ensureLevels] at h ⊢
      split at h
      · cases h
      · rename_i db₁ row k hlevel
        obtain rfl : k = 0 := by
          have := ensureLevels_le h
          omega
        obtain ⟨hsibling, rfl, -⟩ | ⟨-, -, hone⟩ := ensureLevel_ok hlevel
        · rw [ensureLevel, hsibling]
          exact ih hrest h
        · cases hone

theorem Found.congr {chain' : CategoryChain} (h : Found user db chain)
    (hslugs : chain'.map Prod.snd = chain.map Prod.snd) : Found user db chain' := by
  obtain ⟨last, h⟩ := h
  exact ⟨last, ensureLevels_congr hslugs h⟩

theorem Found.mono (h : Found user db chain) (hcont : Continues db db') :
    Found user db' chain := by
  obtain ⟨last, h⟩ := h
  exact ⟨last, (ensureLevels_again h).2 db' hcont 0⟩

/-- What was ensured is found, and stays found while categories are only added. -/
theorem found_of_ensureCategoryPath
    (h : ensureCategoryPath db user chain = (db', .ok (row, n))) :
    Continues db db' ∧ Found user db' chain := by
  unfold ensureCategoryPath at h
  split at h
  · cases h
  · cases h
  · rename_i hlevels
    cases h
    obtain ⟨hcont, hagain⟩ := ensureLevels_again hlevels
    exact ⟨hcont, _, hagain _ (.refl _) 0⟩

/-- What a call does where the parent of its chain is found: it finds the last level
too, or creates it where none has its slug. -/
inductive EndsLine (user : UserModel) (db db' : Database) (slugs : List String) (row : Category) :
    ℕ → Prop
  | found (cs : List Category) : db' = db →
      Line (writeScope db user.tenantId user.id) none (cs ++ [row]) →
      (cs ++ [row]).map Category.slug = slugs → EndsLine user db db' slugs row 0
  | created (cs : List Category) : db'.categories.rows = db.categories.rows ++ [row] →
      Line (writeScope db user.tenantId user.id) none cs →
      row ∈ writeScope db' user.tenantId user.id → row.parentId = foot none cs →
      (cs ++ [row]).map Category.slug = slugs →
      siblingWithSlug db row.slug row.parentId user.tenantId user.id none = none →
      EndsLine user db db' slugs row 1

/-- Where the parent of a chain is found, a call creates at most the last level. -/
theorem endsLine_of_found {init : CategoryChain} (hfound : Found user db init)
    (name slug : String) :
    (∃ e, ensureCategoryPath db user (init ++ [(name, slug)]) = (db, .error e)) ∨
      ∃ db' row n, ensureCategoryPath db user (init ++ [(name, slug)]) = (db', .ok (row, n)) ∧
        EndsLine user db db' ((init ++ [(name, slug)]).map Prod.snd) row n := by
  obtain ⟨last, hinit⟩ := hfound
  obtain ⟨-, cs, hline, hslugs, hlast⟩ := line_of_ensureLevels hinit
  have hfoot : last.map Category.id = foot none cs := by
    rw [hlast, foot_eq_getLast?, Option.or_none, Option.or_none]
  have hslug : ∀ {row : Category}, row.slug = slug →
      (cs ++ [row]).map Category.slug = (init ++ [(name, slug)]).map Prod.snd := by
    rintro row rfl
    rw [List.map_append, hslugs, List.map_append]
    rfl
  unfold ensureCategoryPath
  rw [ensureLevels_append hinit, ensureLevels, hfoot]
  cases hlevel : ensureLevel db user (foot none cs) name slug with
  | error e => exact .inl ⟨e, rfl⟩
  | ok res =>
    obtain ⟨db', row, n⟩ := res
    dsimp only
    rw [ensureLevels, Nat.zero_add]
    refine .inr ⟨db', row, n, rfl, ?_⟩
    obtain ⟨hsibling, rfl, rfl⟩ | ⟨hfree, hinsert, rfl⟩ := ensureLevel_ok hlevel
    · obtain ⟨hrow, hrowSlug, hparent⟩ := siblingWithSlug_mem hsibling
      exact .found cs rfl (line_snoc.mpr ⟨hline, hrow, hparent⟩) (hslug hrowSlug)
    · obtain ⟨hrow, t, ht, rfl⟩ := insertCategory_ok hinsert
      have hmem : row ∈ t := (Table.mem_insert ht).mpr (.inr rfl)
      exact .created cs (Table.rows_of_insert ht) hline
        (mem_writeScope.mpr ⟨hmem, by rw [hrow]; rfl⟩) (by rw [hrow]) (hslug (by rw [hrow]))
        (by rw [hrow]; exact hfree)

theorem EndsLine.length {slugs : List String} (h : EndsLine user db db' slugs row n) :
    n ≤ 1 ∧ db'.categories.rows.length = db.categories.rows.length + n := by
  cases h with
  | found _ hdb _ _ => exact ⟨Nat.zero_le _, by rw [hdb]; rfl⟩
  | created _ hrows _ _ _ _ _ => exact ⟨Nat.le_refl _, by rw [hrows, List.length_append]; rfl⟩

theorem mem_writeScope_of_rows {new : List Category}
    (h : db'.categories.rows = db.categories.rows ++ new) :
    ∀ c ∈ writeScope db user.tenantId user.id, c ∈ writeScope db' user.tenantId user.id := by
  intro c hc
  obtain ⟨hc, hscope⟩ := mem_writeScope.mp hc
  refine mem_writeScope.mpr ⟨?_, hscope⟩
  show c ∈ db'.categories.rows
  rw [h]
  exact List.mem_append_left _ hc

theorem EndsLine.mono {slugs : List String} (h : EndsLine user db db' slugs row n) :
    ∀ c ∈ writeScope db user.tenantId user.id, c ∈ writeScope db' user.tenantId user.id := by
  cases h with
  | found _ hdb _ _ => exact fun c hc => hdb ▸ hc
  | created _ hrows _ _ _ _ _ => exact mem_writeScope_of_rows hrows

/-- The row ends a line. -/
theorem EndsLine.line {slugs : List String} (h : EndsLine user db db' slugs row n) :
    ∃ cs, Line (writeScope db' user.tenantId user.id) none (cs ++ [row]) ∧
      (cs ++ [row]).map Category.slug = slugs := by
  have hmono := h.mono
  cases h with
  | found cs hdb hline hslugs => exact ⟨cs, hdb ▸ hline, hslugs⟩
  | created cs _ hline hrow hparent hslugs _ =>
    exact ⟨cs, line_snoc.mpr ⟨hline.mono hmono, hrow, hparent⟩, hslugs⟩

/-- In a forest, what has no sibling with its slug ends a line that was not there. -/
theorem ForestInv.not_hasLine (h : ForestInv settings db)
    (hline : Line (writeScope db user.tenantId user.id) none cs) {slug : String}
    (hfree : siblingWithSlug db slug (foot none cs) user.tenantId user.id none = none) :
    ¬ HasLine (writeScope db user.tenantId user.id) (cs.map Category.slug ++ [slug]) := by
  rintro ⟨ds, hds, hdslugs⟩
  obtain ⟨ds, ds', rfl, hinit, hlast⟩ := List.map_eq_append_iff.mp hdslugs
  obtain ⟨d, rfl, hd⟩ := List.map_eq_singleton_iff.mp hlast
  obtain ⟨hds, hmem, hbelow⟩ := line_snoc.mp hds
  -- Lines with the same slugs are found the same way, and so end in the same category.
  have hsame : cs.getLast? = ds.getLast? := by
    let chain : CategoryChain := cs.map fun c => (c.slug, c.slug)
    have hchain : chain.map Prod.snd = cs.map Category.slug := by
      rw [List.map_map]
      rfl
    have hcs : MediaService.ensureLevels user db none 0 chain =
        (db, .ok (cs.getLast?.or none, 0)) := h.ensureLevels_line hline hchain 0
    have hds' : MediaService.ensureLevels user db none 0 chain =
        (db, .ok (ds.getLast?.or none, 0)) := h.ensureLevels_line hds (hchain.trans hinit.symm) 0
    simpa using hcs.symm.trans hds'
  rw [foot_eq_getLast?, ← hsame, ← foot_eq_getLast?] at hbelow
  exact absurd (siblingWithSlug_eq_none.mp hfree d hmem hd hbelow) (by simp)

/-- What the calls for some chains have made of a database: the rows there were stay, and
each new one ends a line that had none of its slugs before. -/
structure Recreating (user : UserModel) (db₀ db : Database)
    (done : List (String × CategoryChain)) (tree : RecreatedTree) : Prop where
  rows : ∃ new, db.categories.rows = db₀.categories.rows ++ new ∧ new.length = tree.created ∧
    ∀ c ∈ new, ∃ cs, Line (writeScope db user.tenantId user.id) none (cs ++ [c]) ∧
      ¬ HasLine (writeScope db₀ user.tenantId user.id) ((cs ++ [c]).map Category.slug) ∧
      ∃ p ∈ done, p.2.map Prod.snd = (cs ++ [c]).map Category.slug
  tally : tree.created + tree.reused = done.length
  paths : ∀ q ∈ tree.byPath, ∃ cs, Line (writeScope db user.tenantId user.id) none (cs ++ [q.2]) ∧
    q.1 = "/".intercalate ((cs ++ [q.2]).map Category.slug)
  found : ∀ p ∈ done, HasLine (writeScope db user.tenantId user.id) (p.2.map Prod.snd)

/-- One more call. -/
theorem Recreating.call {done : List (String × CategoryChain)} {tree : RecreatedTree}
    (h : Recreating user db₀ db done tree) (hforest : ForestInv settings db)
    (hcall : EndsLine user db db' (chain.map Prod.snd) row n) :
    Recreating user db₀ db' (done ++ [(chainKey chain, chain)])
      ⟨tree.byPath ++ [(chainKey chain, row)], tree.created + n, tree.reused + (1 - n)⟩ := by
  obtain ⟨new, hrows, hlength, hnew⟩ := h.rows
  have hmono := hcall.mono
  have hkept : ∀ c ∈ new, ∃ cs, Line (writeScope db' user.tenantId user.id) none (cs ++ [c]) ∧
      ¬ HasLine (writeScope db₀ user.tenantId user.id) ((cs ++ [c]).map Category.slug) ∧
      ∃ p ∈ done ++ [(chainKey chain, chain)],
        p.2.map Prod.snd = (cs ++ [c]).map Category.slug := by
    intro c hc
    obtain ⟨cs, hline, hnone, p, hp, hslugs⟩ := hnew c hc
    exact ⟨cs, hline.mono hmono, hnone, p, List.mem_append_left _ hp, hslugs⟩
  obtain ⟨cs, hline, hslugs⟩ := hcall.line
  have hlast : (chainKey chain, chain) ∈ done ++ [(chainKey chain, chain)] :=
    List.mem_append_right _ (List.mem_singleton_self _)
  refine ⟨?_, ?_, fun q hq => ?_, fun p hp => ?_⟩
  · cases hcall with
    | found _ hdb _ _ => exact ⟨new, hdb ▸ hrows, hlength, hkept⟩
    | created ds hadded hds _ hparent hdslugs hfree =>
      refine ⟨new ++ [row], by rw [hadded, hrows, List.append_assoc], ?_, fun c hc => ?_⟩
      · rw [List.length_append, hlength]
        rfl
      · rcases List.mem_append.mp hc with hc | hc
        · exact hkept c hc
        · obtain rfl := List.mem_singleton.mp hc
          refine ⟨cs, hline, fun hbefore => ?_, _, hlast, hslugs.symm⟩
          rw [hparent] at hfree
          refine hforest.not_hasLine hds hfree ?_
          rw [hslugs, ← hdslugs, List.map_append] at hbefore
          exact hbefore.mono (mem_writeScope_of_rows hrows)
  · have htally := h.tally
    have hle := hcall.length.1
    rw [List.length_append, List.length_singleton]
    dsimp only
    omega
  · rcases List.mem_append.mp hq with hq | hq
    · obtain ⟨ds, hds, hkey⟩ := h.paths q hq
      exact ⟨ds, hds.mono hmono, hkey⟩
    · obtain rfl := List.mem_singleton.mp hq
      exact ⟨cs, hline, congrArg ("/".intercalate ·) hslugs.symm⟩
  · rcases List.mem_append.mp hp with hp | hp
    · exact (h.found p hp).mono hmono
    · obtain rfl := List.mem_singleton.mp hp
      exact ⟨_, hline, hslugs⟩

/-- Each chain comes after one for its parent. -/
def Resolvable (chains : List (String × CategoryChain)) : Prop :=
  ∀ done p rest, chains = done ++ p :: rest → ∃ init level, p.2 = init ++ [level] ∧
    (init = [] ∨ ∃ q ∈ done, q.2.map Prod.snd = init.map Prod.snd)

theorem Resolvable.init {chains rest : List (String × CategoryChain)}
    (h : Resolvable (chains ++ rest)) : Resolvable chains := by
  rintro done p tail rfl
  exact h done p (tail ++ rest) (by simp)

theorem count_slash {slugs : List String} (hne : slugs ≠ [])
    (hslash : ∀ s ∈ slugs, '/' ∉ s.toList) :
    ("/".intercalate slugs).toList.count '/' + 1 = slugs.length := by
  rw [String.toList_intercalate]
  induction slugs with
  | nil => exact absurd rfl hne
  | cons s slugs ih =>
    have hs := List.count_eq_zero.mpr (hslash s List.mem_cons_self)
    cases slugs with
    | nil => simpa using hs
    | cons s' slugs =>
      have hrest := ih (by simp) fun s hs => hslash s (List.mem_cons_of_mem _ hs)
      rw [List.map_cons, List.map_cons, List.intercalate_cons_cons, List.count_append,
        List.count_append, hs, ← List.map_cons, List.length_cons, ← hrest]
      rw [show "/".toList = ['/'] from rfl, List.count_singleton_self]
      omega

instance : Std.Total fun a b => shallowestFirst a b = true where
  total a b := by
    simp only [shallowestFirst, decide_eq_true_eq]
    rcases lt_trichotomy (a.1.toList.count '/') (b.1.toList.count '/') with h | h | h
    · exact .inl (.inl h)
    · exact (String.le_total a.1 b.1).imp (fun hle => .inr ⟨h, hle⟩) fun hle => .inr ⟨h.symm, hle⟩
    · exact .inr (.inl h)

instance : IsTrans _ fun a b => shallowestFirst a b = true where
  trans a b c := by
    simp only [shallowestFirst, decide_eq_true_eq]
    rintro (h | ⟨h, hle⟩) (h' | ⟨h', hle'⟩)
    · exact .inl (h.trans h')
    · exact .inl (h' ▸ h)
    · exact .inl (h ▸ h')
    · exact .inr ⟨h.trans h', String.le_trans hle hle'⟩

theorem count_le_of_shallowestFirst {a b : String × CategoryChain}
    (h : shallowestFirst a b = true) : a.1.toList.count '/' ≤ b.1.toList.count '/' := by
  rcases of_decide_eq_true h with h | ⟨h, -⟩
  · exact h.le
  · exact h.le

/-- The slug paths a document names, and every one above them. -/
def slugPrefixes (named : List CategoryChain) : Finset (List String) :=
  (named.flatMap fun chain => (chain.map Prod.snd).inits).toFinset.erase []

theorem mem_slugPrefixes {named : List CategoryChain} {slugs : List String} :
    slugs ∈ slugPrefixes named ↔ ∃ chain ∈ named, ∃ n < chain.length,
      slugs = (chain.take (n + 1)).map Prod.snd := by
  rw [slugPrefixes, Finset.mem_erase, List.mem_toFinset, List.mem_flatMap]
  constructor
  · rintro ⟨hne, chain, hchain, hinit⟩
    have hslugs := List.prefix_iff_eq_take.mp ((List.mem_inits _ _).mp hinit)
    have hle := ((List.mem_inits _ _).mp hinit).length_le
    have hpos := List.length_pos_iff.mpr hne
    rw [List.length_map] at hle
    refine ⟨chain, hchain, slugs.length - 1, by omega, ?_⟩
    rw [Nat.sub_add_cancel hpos, List.map_take]
    exact hslugs
  · rintro ⟨chain, hchain, n, hn, rfl⟩
    refine ⟨?_, chain, hchain, (List.mem_inits _ _).mpr ?_⟩
    · rw [ne_eq, List.map_eq_nil_iff, List.take_eq_nil_iff]
      rintro (hzero | rfl)
      · cases hzero
      · cases hn
    · rw [List.map_take]
      exact List.take_prefix _ _

section Document

variable {lib : ModelLibrary} {json : Json} {manifest : ImportManifest}
  {named : List CategoryChain} {chains : List (String × CategoryChain)}

theorem slash_of_fits (hslug : SlugifyLaws env) (h : FitsChain env chain) :
    ∀ s ∈ chain.map Prod.snd, '/' ∉ s.toList := by
  intro s hs
  obtain ⟨level, hlevel, rfl⟩ := List.mem_map.mp hs
  exact (h.2 level hlevel).2.slash hslug

/-- Each slug path a parsed document names is looked up once. -/
theorem slugs_of_manifestChains (hslug : SlugifyLaws env)
    (hparse : parseManifestDocument env.settings lib json = .ok manifest)
    (hnamed : namedChains env manifest = .ok named)
    (hchains : manifestChains env manifest = .ok chains) :
    (chains.map fun p => p.2.map Prod.snd).Nodup ∧
      ∀ slugs, slugs ∈ chains.map (fun p => p.2.map Prod.snd) ↔ slugs ∈ slugPrefixes named := by
  obtain ⟨hnodup, hprefixes⟩ := prefixes_of_manifestChains hnamed hchains
  have hkeys : chains.map Prod.fst =
      (chains.map fun p => p.2.map Prod.snd).map fun slugs => "/".intercalate slugs := by
    rw [List.map_map]
    exact List.map_congr_left fun p hp => (hprefixes p hp).1
  refine ⟨List.Nodup.of_map _ (hkeys ▸ hnodup), fun slugs => ?_⟩
  rw [mem_slugPrefixes, List.mem_map]
  constructor
  · rintro ⟨p, hp, rfl⟩
    obtain ⟨-, chain, hchain, n, hn, htake⟩ := hprefixes p hp
    exact ⟨chain, hchain, n, hn, by rw [htake]⟩
  · rintro ⟨chain, hchain, n, hn, rfl⟩
    have hkey : chainKey (chain.take (n + 1)) ∈ chains.map Prod.fst := by
      obtain ⟨named', hnamed', rfl⟩ := manifestChains_eq_ok.mp hchains
      cases hnamed.symm.trans hnamed'
      exact mem_keys_foldl_collectChain.mpr (.inr ⟨chain, hchain, n, hn, rfl⟩)
    obtain ⟨p, hp, hpkey⟩ := List.mem_map.mp hkey
    have hfits := fits_of_namedChains hparse hnamed
    obtain ⟨hkey', chain', hchain', m, hm, htake⟩ := hprefixes p hp
    refine ⟨p, hp, slugs_of_chainKey ?_ ?_ ?_ ?_ (hkey'.symm.trans hpkey)⟩
    · rw [htake, ne_eq, List.take_eq_nil_iff]
      rintro (hzero | rfl)
      · cases hzero
      · cases hm
    · rw [ne_eq, List.take_eq_nil_iff]
      rintro (hzero | rfl)
      · cases hzero
      · cases hn
    · rw [htake]
      exact slash_of_fits hslug ((hfits chain' hchain').take _)
    · exact slash_of_fits hslug ((hfits chain hchain).take _)

/-- Shallowest first, each chain comes after its parent's. -/
theorem resolvable_of_manifestChains (hslug : SlugifyLaws env)
    (hparse : parseManifestDocument env.settings lib json = .ok manifest)
    (hchains : manifestChains env manifest = .ok chains) :
    Resolvable (chains.insertionSort fun a b => shallowestFirst a b = true) := by
  obtain ⟨named, hnamed, -⟩ := manifestChains_eq_ok.mp hchains
  obtain ⟨-, hprefixes⟩ := prefixes_of_manifestChains hnamed hchains
  obtain ⟨-, hslugs⟩ := slugs_of_manifestChains hslug hparse hnamed hchains
  have hfits := fits_of_manifestChains hparse hchains
  have hmem : ∀ p, p ∈ chains.insertionSort (fun a b => shallowestFirst a b = true) ↔ p ∈ chains :=
    fun p => List.mem_insertionSort _
  have hcount : ∀ p ∈ chains, p.2 ≠ [] → p.1.toList.count '/' + 1 = p.2.length := by
    intro p hp hne
    rw [(hprefixes p hp).1, chainKey, count_slash (by simpa using hne)
      (slash_of_fits hslug (hfits p hp)), List.length_map]
  intro done p rest hsplit
  have hp : p ∈ chains := (hmem p).mp (hsplit ▸ by simp)
  obtain ⟨-, chain, hchain, n, hn, htake⟩ := hprefixes p hp
  have hlength : p.2.length = n + 1 := by
    rw [htake, List.length_take]
    omega
  have hne : p.2 ≠ [] := List.ne_nil_of_length_eq_add_one hlength
  obtain ⟨init, level, hinit⟩ := (List.eq_nil_or_concat' p.2).resolve_left hne
  refine ⟨init, level, hinit, or_iff_not_imp_left.mpr fun hinitNe => ?_⟩
  have hinitLength : init.length = n := by
    rw [hinit, List.length_append, List.length_singleton] at hlength
    omega
  have hpos := List.length_pos_iff.mpr hinitNe
  have hparent : init.map Prod.snd ∈ slugPrefixes named := by
    refine mem_slugPrefixes.mpr ⟨chain, hchain, n - 1, by omega, ?_⟩
    have hinitTake : init = chain.take n := by
      have := congrArg (List.take n) (hinit.symm.trans htake)
      rwa [List.take_append_of_le_length hinitLength.ge, ← hinitLength, List.take_length,
        List.take_take, hinitLength, min_eq_left (Nat.le_succ n)] at this
    rw [Nat.sub_add_cancel (by omega), hinitTake]
  obtain ⟨q, hq, hqslugs⟩ := List.mem_map.mp ((hslugs _).mpr hparent)
  refine ⟨q, ?_, hqslugs⟩
  have hqlength : q.2.length = init.length := by
    simpa using congrArg List.length hqslugs
  have hqcount := hcount q hq (List.ne_nil_of_length_pos (by omega))
  have hpcount := hcount p hp hne
  have hqmem : q ∈ done ++ p :: rest := hsplit ▸ (hmem q).mpr hq
  have hsorted := List.pairwise_insertionSort (fun a b => shallowestFirst a b = true) chains
  rw [hsplit] at hsorted
  rcases List.mem_append.mp hqmem with hq | hq
  · exact hq
  · rcases List.mem_cons.mp hq with rfl | hq
    · omega
    · have hle := count_le_of_shallowestFirst
        (List.rel_of_pairwise_cons (List.pairwise_append.mp hsorted).2.1 hq)
      omega

end Document

end MediaService
