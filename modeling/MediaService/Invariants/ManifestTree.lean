import MediaService.Controllers.ManifestDocument
import MediaService.Invariants.CategoryPaths
import MediaService.Invariants.ImportRows

/-! The tree of an exported manifest, read by an import. The import spells every slug
again, so a category of the export leads back to itself only if its path survives
that; where every path leads to some category, nothing is created. -/

namespace MediaService

open Foundation ParentMap

variable {env : Env} {s : String}

/-! ### Slugs -/

def isSlugChar (c : Char) : Bool := 'a' ≤ c ∧ c ≤ 'z' ∨ '0' ≤ c ∧ c ≤ '9' ∨ c = '-'

/-- What is documented of `slugify`: words of lowercase letters and digits with
hyphens between them, and something for text that begins with a letter or a digit. -/
structure SlugifyLaws (env : Env) : Prop where
  alphabet : ∀ s, ∀ c ∈ (env.slugify s).toList, isSlugChar c = true
  head : ∀ s, (env.slugify s).toList.head? ≠ some '-'
  nonempty : ∀ s c, s.toList.head? = some c → isSlugChar c = true → c ≠ '-' → env.slugify s ≠ ""

/-- A slug as an import spells it. -/
def respell (env : Env) (s : String) : String := String.ofList ((env.slugify s).toList.take 50)

/-- A slug as categories have them. -/
def Spelled (env : Env) (s : String) : Prop := s ≠ "" ∧ ∃ x, s = respell env x

theorem Spelled.head (hslug : SlugifyLaws env) (hs : Spelled env s) :
    ∃ c cs, s.toList = c :: cs ∧ isSlugChar c = true ∧ c ≠ '-' := by
  obtain ⟨hne, x, rfl⟩ := hs
  cases hx : (env.slugify x).toList with
  | nil => exact absurd (by rw [respell, hx]; rfl) hne
  | cons c cs =>
    refine ⟨c, cs.take 49, by rw [respell, hx, String.toList_ofList]; rfl, ?_, ?_⟩
    · exact hslug.alphabet x c (by rw [hx]; exact List.mem_cons_self)
    · rintro rfl
      exact hslug.head x (by rw [hx]; rfl)

theorem Spelled.alphabet (hslug : SlugifyLaws env) (hs : Spelled env s) :
    ∀ c ∈ s.toList, isSlugChar c = true := by
  obtain ⟨-, x, rfl⟩ := hs
  intro c hc
  rw [respell, String.toList_ofList] at hc
  exact hslug.alphabet x c (List.mem_of_mem_take hc)

theorem Spelled.length (hs : Spelled env s) : 1 ≤ s.length ∧ s.length ≤ 50 := by
  obtain ⟨hne, x, rfl⟩ := hs
  constructor
  · exact Nat.one_le_iff_ne_zero.mpr fun h => hne (String.length_eq_zero_iff.mp h)
  · rw [respell, String.length_ofList, List.length_take]
    exact Nat.min_le_left _ _

/-- A slug can be spelled again. -/
theorem Spelled.again (hslug : SlugifyLaws env) (hs : Spelled env s) :
    Spelled env (respell env s) := by
  obtain ⟨c, cs, hcs, hc, hhyphen⟩ := hs.head hslug
  have hne := hslug.nonempty s c (by rw [hcs]; rfl) hc hhyphen
  refine ⟨fun h => hne ?_, s, rfl⟩
  have htake : (env.slugify s).toList.take 50 = [] := by
    rw [← String.toList_ofList (l := (env.slugify s).toList.take 50), ← respell, h]
    rfl
  rcases List.take_eq_nil_iff.mp htake with h | h
  · cases h
  · exact String.toList_eq_nil_iff.mp h

theorem slugOf_spelled (hslug : SlugifyLaws env) (hs : Spelled env s) (rest : List String) :
    slugOf env (s :: rest) = .ok (respell env s) := by
  rw [slugOf]
  exact if_neg (hs.again hslug).1

theorem Spelled.slash (hslug : SlugifyLaws env) (hs : Spelled env s) : '/' ∉ s.toList :=
  fun h => absurd (hs.alphabet hslug _ h) (by decide)

theorem isSpace_of_isSlugChar {c : Char} (h : isSlugChar c = true) : isSpace c = false := by
  have hn : (97 ≤ c.toNat ∧ c.toNat ≤ 122) ∨ (48 ≤ c.toNat ∧ c.toNat ≤ 57) ∨ c.toNat = 45 := by
    rcases of_decide_eq_true h with h | h | rfl
    · exact .inl h
    · exact .inr (.inl h)
    · exact .inr (.inr rfl)
  simp only [isSpace, decide_eq_false_iff_not]
  omega

theorem Spelled.strip (hslug : SlugifyLaws env) (hs : Spelled env s) :
    MediaService.strip s ≠ "" := by
  have hspace : ∀ c ∈ s.toList, isSpace c = false := fun c hc =>
    isSpace_of_isSlugChar (hs.alphabet hslug c hc)
  have hstrip : MediaService.strip s = s := by
    rw [← String.toList_inj, toList_strip, trim_eq_self hspace]
  rw [hstrip]
  exact hs.1

/-! ### Paths -/

/-- The chain of an object path, whose slugs double as names. -/
def respelledPath (env : Env) (slugs : List String) : CategoryChain :=
  slugs.map fun s => (respell env s, respell env s)

/-- A path of slugs is split where it was joined. -/
theorem splitOn_path {slugs : List String} (hne : slugs ≠ [])
    (hslash : ∀ s ∈ slugs, '/' ∉ s.toList) :
    (("/".intercalate slugs).toList.splitOn '/').map String.ofList = slugs := by
  have hslash' : ∀ l ∈ slugs.map String.toList, '/' ∉ l := by
    intro l hl
    obtain ⟨s, hs, rfl⟩ := List.mem_map.mp hl
    exact hslash s hs
  have hne' : slugs.map String.toList ≠ [] := by simpa using hne
  rw [String.toList_intercalate]
  refine (congrArg (List.map String.ofList) (List.splitOn_intercalate '/' hslash' hne')).trans ?_
  rw [List.map_map]
  exact (List.map_congr_left fun s _ => String.ofList_toList).trans (List.map_id slugs)

theorem pathChain_path (hslug : SlugifyLaws env) {slugs : List String} (hne : slugs ≠ [])
    (hspelled : ∀ s ∈ slugs, Spelled env s)
    (hlen : slugs.length ≤ env.settings.mediaImportMaxCategoryDepth) :
    pathChain env ("/".intercalate slugs) = .ok (respelledPath env slugs) := by
  have hsegments : ((("/".intercalate slugs).toList.splitOn '/').map String.ofList).filter
      (fun s => strip s ≠ "") = slugs := by
    rw [splitOn_path hne fun s hs => (hspelled s hs).slash hslug]
    exact List.filter_eq_self.mpr fun s hs => decide_eq_true ((hspelled s hs).strip hslug)
  have hmap : ∀ l : List String, (∀ s ∈ l, Spelled env s) → (l.mapM fun s => do
      let slug ← slugOf env [s]
      return (slug, slug)) = (.ok (respelledPath env l) : Except Failure CategoryChain) := by
    intro l hl
    induction l with
    | nil => rfl
    | cons s l ih =>
      rw [List.mapM_cons, slugOf_spelled hslug (hl s List.mem_cons_self),
        ih fun s' hs' => hl s' (List.mem_cons_of_mem s hs')]
      rfl
  unfold pathChain
  rw [hsegments]
  dsimp only
  rw [if_neg hne, if_neg (Nat.not_lt.mpr hlen), hmap slugs hspelled]

/-- Chains with the same key have the same slugs. -/
theorem slugs_of_chainKey {chain chain' : CategoryChain} (hne : chain ≠ []) (hne' : chain' ≠ [])
    (hslash : ∀ s ∈ chain.map Prod.snd, '/' ∉ s.toList)
    (hslash' : ∀ s ∈ chain'.map Prod.snd, '/' ∉ s.toList) (h : chainKey chain = chainKey chain') :
    chain.map Prod.snd = chain'.map Prod.snd := by
  rw [← splitOn_path (by simpa using hne) hslash, ← splitOn_path (by simpa using hne') hslash']
  exact congrArg (fun s : String => (s.toList.splitOn '/').map String.ofList) h

/-! ### The chains of the tree -/

section Tree

variable {t : Table Category.id} {rows : List Category} {counts : ℤ → ℕ} {c : Category}
  {cs : List Category}

/-- The chain of a line: each category's name with its slug spelled again. -/
def chainOf (env : Env) (cs : List Category) : CategoryChain :=
  cs.map fun c => (c.name, respell env c.slug)

theorem chainOf_snoc (env : Env) (cs : List Category) (c : Category) :
    chainOf env cs ++ [(c.name, respell env c.slug)] = chainOf env (cs ++ [c]) := by
  rw [chainOf, chainOf, List.map_append]
  rfl

/-- The chains of the lines from `cs` through one of `kids`, at least of those that go
down no further than `levels` below it. -/
structure ChainsOf (env : Env) (t : Table Category.id) (cs kids : List Category) (levels : ℕ)
    (chains : List CategoryChain) : Prop where
  line : ∀ chain ∈ chains, ∃ k ∈ kids, ∃ ds, Line t none (cs ++ k :: ds) ∧
    chain = chainOf env (cs ++ k :: ds)
  chain : ∀ k ∈ kids, ∀ ds, Line t none (cs ++ k :: ds) → ds.length ≤ levels →
    chainOf env (cs ++ k :: ds) ∈ chains

/-- A node of the tree gives the chains of the lines through its category, one for each
row of its branch. -/
def NodeGives (env : Env) (t : Table Category.id) (rows : List Category) (counts : ℤ → ℕ)
    (levels : ℕ) (cs : List Category) (c : Category) : Prop :=
  ∃ chains, nodeChains env (chainOf env cs) (categoryNode rows counts levels c).imported =
      .ok chains ∧
    ChainsOf env t cs [c] levels chains ∧
    chains.length = (categoryNode rows counts levels c).rows.length

theorem forestChains_siblings {levels : ℕ} {kids : List Category}
    (h : ∀ k ∈ kids, NodeGives env t rows counts levels cs k) :
    ∃ chains, forestChains env (chainOf env cs)
        (CategoryNode.importedList (kids.map (categoryNode rows counts levels))) = .ok chains ∧
      ChainsOf env t cs kids levels chains ∧
      chains.length =
        (CategoryNode.rowsList (kids.map (categoryNode rows counts levels))).length := by
  induction kids with
  | nil => exact ⟨[], rfl, ⟨by simp, by simp⟩, rfl⟩
  | cons k kids ih =>
    obtain ⟨chains, hnode, hof, hlen⟩ := h k List.mem_cons_self
    obtain ⟨chains', hforest, hof', hlen'⟩ := ih fun k' hk' => h k' (List.mem_cons_of_mem k hk')
    refine ⟨chains ++ chains', ?_, ⟨fun chain hchain => ?_, fun k' hk' ds hline hle => ?_⟩, ?_⟩
    · rw [List.map_cons, CategoryNode.importedList, forestChains, hnode]
      dsimp only
      rw [hforest]
    · rcases List.mem_append.mp hchain with hchain | hchain
      · obtain ⟨k', hk', hds⟩ := hof.line chain hchain
        exact ⟨k', List.mem_cons.mpr (.inl (List.mem_singleton.mp hk')), hds⟩
      · obtain ⟨k', hk', hds⟩ := hof'.line chain hchain
        exact ⟨k', List.mem_cons_of_mem k hk', hds⟩
    · rcases List.mem_cons.mp hk' with rfl | hk'
      · exact List.mem_append_left _ (hof.chain k' List.mem_cons_self ds hline hle)
      · exact List.mem_append_right _ (hof'.chain k' hk' ds hline hle)
    · rw [List.length_append, hlen, hlen', List.map_cons, CategoryNode.rowsList, List.length_append]

theorem nodeGives (hslug : SlugifyLaws env) (hspelled : ∀ c ∈ t, Spelled env c.slug)
    (hrows : ∀ c, c ∈ rows ↔ c ∈ t) (counts : ℤ → ℕ) {levels : ℕ}
    (hline : Line t none (cs ++ [c])) : NodeGives env t rows counts levels cs c := by
  have hslugOf : ∀ c ∈ t, slugOf env [c.slug, c.name] = .ok (respell env c.slug) := fun c hc =>
    slugOf_spelled hslug (hspelled c hc) _
  induction levels generalizing c cs with
  | zero =>
    refine ⟨[chainOf env (cs ++ [c])], ?_, ⟨fun chain hchain => ?_, fun k hk ds _ hle => ?_⟩, rfl⟩
    · rw [categoryNode, CategoryNode.imported, CategoryNode.importedList, nodeChains,
        hslugOf c (hline.mem (by simp))]
      dsimp only
      rw [forestChains, chainOf_snoc]
    · exact ⟨c, List.mem_cons_self, [], hline, List.mem_singleton.mp hchain⟩
    · obtain rfl := List.mem_singleton.mp hk
      obtain rfl := List.length_eq_zero_iff.mp (Nat.le_zero.mp hle)
      exact List.mem_cons_self
  | succ levels ih =>
    have hkids : ∀ k, k ∈ rows.filter (fun d => d.parentId = some c.id) ↔
        Line t none (cs ++ [c] ++ [k]) := by
      intro k
      rw [List.mem_filter, hrows, decide_eq_true_eq, line_snoc, foot_append]
      exact (and_iff_right hline).symm
    have hgives : ∀ k ∈ rows.filter (fun d => d.parentId = some c.id),
        NodeGives env t rows counts levels (cs ++ [c]) k := fun k hk => ih ((hkids k).mp hk)
    obtain ⟨chains, hforest, hof, hlen⟩ := forestChains_siblings hgives
    refine ⟨chainOf env (cs ++ [c]) :: chains, ?_, ⟨fun chain hchain => ?_, ?_⟩, ?_⟩
    · rw [categoryNode, CategoryNode.imported, nodeChains, hslugOf c (hline.mem (by simp))]
      dsimp only
      rw [chainOf_snoc, hforest]
    · rcases List.mem_cons.mp hchain with rfl | hchain
      · exact ⟨c, List.mem_cons_self, [], hline, rfl⟩
      · obtain ⟨k, -, ds, hds, rfl⟩ := hof.line chain hchain
        rw [List.append_assoc] at hds ⊢
        exact ⟨c, List.mem_cons_self, k :: ds, hds, rfl⟩
    · intro d hd ds hds hle
      obtain rfl := List.mem_singleton.mp hd
      cases ds with
      | nil => exact List.mem_cons_self
      | cons k ds =>
        refine List.mem_cons_of_mem _ ?_
        have hds' : Line t none (cs ++ [d] ++ k :: ds) := by rwa [List.append_assoc]
        have hk : Line t none (cs ++ [d] ++ [k]) := by
          rw [List.append_cons, line_append] at hds'
          exact hds'.1
        have hmem := hof.chain k ((hkids k).mpr hk) ds hds' (Nat.le_of_succ_le_succ hle)
        rwa [List.append_assoc] at hmem
    · rw [categoryNode, CategoryNode.rows, List.length_cons, List.length_cons, hlen]

theorem mem_of_mem_rows (hrows : ∀ c, c ∈ rows ↔ c ∈ t) {levels : ℕ} (hc : c ∈ t) :
    ∀ d ∈ (categoryNode rows counts levels c).rows, d ∈ t := by
  induction levels generalizing c with
  | zero =>
    intro d hd
    rw [categoryNode, CategoryNode.rows, CategoryNode.rowsList, List.mem_singleton] at hd
    exact hd ▸ hc
  | succ levels ih =>
    intro d hd
    rw [categoryNode, CategoryNode.rows, CategoryNode.rowsList_eq_flatMap] at hd
    rcases List.mem_cons.mp hd with rfl | hd
    · exact hc
    · obtain ⟨node, hnode, hd⟩ := List.mem_flatMap.mp hd
      obtain ⟨k, hk, rfl⟩ := List.mem_map.mp hnode
      exact ih ((hrows k).mp (List.mem_filter.mp hk).1) d hd

/-- The tree of a table gives the chains of all its lines. -/
theorem forestChains_tree (hslug : SlugifyLaws env) (hspelled : ∀ c ∈ t, Spelled env c.slug)
    (hlines : ∀ c ∈ t, ∃ cs, Line t none (cs ++ [c])) (counts : ℤ → ℕ) :
    (∀ c ∈ CategoryNode.rowsList (buildCategoryTree env t.rows counts), c ∈ t) ∧
    ∃ chains, forestChains env [] ((buildCategoryTree env t.rows counts).map
        CategoryNode.imported) = .ok chains ∧
      (∀ chain ∈ chains, ∃ cs, cs ≠ [] ∧ Line t none cs ∧ chain = chainOf env cs) ∧
      (∀ cs, cs ≠ [] → Line t none cs → chainOf env cs ∈ chains) ∧
      chains.length = (CategoryNode.rowsList (buildCategoryTree env t.rows counts)).length := by
  unfold buildCategoryTree
  dsimp only
  set rows := t.rows.insertionSort
    (fun c c' => (env.lower c.name).toList ≤ (env.lower c'.name).toList) with hdef
  have hrows : ∀ c, c ∈ rows ↔ c ∈ t := fun c => List.mem_insertionSort _
  have hroots : ∀ k, k ∈ rows.filter (fun c => c.parentId.all fun p =>
      !rows.any fun c' => c'.id = p) ↔ Line t none ([] ++ [k]) := by
    intro k
    rw [List.mem_filter, hrows, line_snoc]
    refine ⟨fun ⟨hk, hroot⟩ => ⟨trivial, hk, ?_⟩, fun ⟨_, hk, hroot⟩ => ⟨hk, ?_⟩⟩
    · cases hp : k.parentId with
      | none => rfl
      | some p =>
        obtain ⟨cs, hline⟩ := hlines k hk
        obtain ⟨hline, -, hparent⟩ := line_snoc.mp hline
        rcases List.eq_nil_or_concat cs with rfl | ⟨cs, q, rfl⟩
        · rw [hp] at hparent
          cases hparent
        · rw [List.concat_eq_append] at hline hparent
          rw [foot_append, hp] at hparent
          have hq : q ∈ rows := (hrows q).mpr (hline.mem (by simp))
          rw [hp, Option.all_some, Bool.not_eq_true', List.any_eq_false] at hroot
          exact absurd (Option.some.inj hparent).symm (by simpa using hroot q hq)
    · rw [hroot]
      rfl
  have hgives : ∀ k ∈ rows.filter (fun c => c.parentId.all fun p =>
      !rows.any fun c' => c'.id = p), NodeGives env t rows counts rows.length [] k :=
    fun k hk => nodeGives hslug hspelled hrows counts ((hroots k).mp hk)
  obtain ⟨chains, hforest, hof, hlen⟩ := forestChains_siblings hgives
  refine ⟨fun c hc => ?_, chains, ?_, fun chain hchain => ?_, fun cs hne hline => ?_, hlen⟩
  · rw [CategoryNode.rowsList_eq_flatMap] at hc
    obtain ⟨node, hnode, hc⟩ := List.mem_flatMap.mp hc
    obtain ⟨k, hk, rfl⟩ := List.mem_map.mp hnode
    exact mem_of_mem_rows hrows ((hrows k).mp (List.mem_filter.mp hk).1) c hc
  · rw [← CategoryNode.importedList_eq_map]
    exact hforest
  · obtain ⟨k, -, ds, hline, rfl⟩ := hof.line chain hchain
    exact ⟨_, List.cons_ne_nil k ds, hline, rfl⟩
  · obtain ⟨k, ds, rfl⟩ := List.exists_cons_of_ne_nil hne
    have hk : Line t none ([] ++ [k]) := ⟨hline.1, hline.2.1, trivial⟩
    refine hof.chain k ((hroots k).mpr hk) ds hline ?_
    have hle := hline.length_le
    rw [hdef, List.length_insertionSort]
    exact Nat.le_of_succ_le hle

end Tree

/-! ### The paths a document names -/

section Chains

variable {t : Table Category.id} {counts : ℤ → ℕ} {cs : List Category} {chain : CategoryChain}
  {objects : List ImportObjectEntry}

/-- The chain has the slugs of a line, spelled again. -/
def SpellsLine (env : Env) (t : Table Category.id) (chain : CategoryChain) : Prop :=
  ∃ cs, cs ≠ [] ∧ Line t none cs ∧ chain.map Prod.snd = (chainOf env cs).map Prod.snd

theorem chainKey_congr {chain chain' : CategoryChain}
    (h : chain.map Prod.snd = chain'.map Prod.snd) : chainKey chain = chainKey chain' :=
  congrArg ("/".intercalate ·) h

theorem SpellsLine.take (h : SpellsLine env t chain) {n : ℕ} (hn : n < chain.length) :
    SpellsLine env t (chain.take (n + 1)) := by
  obtain ⟨cs, -, hline, hslugs⟩ := h
  have hlen : chain.length = cs.length := by
    simpa [chainOf] using congrArg List.length hslugs
  refine ⟨cs.take (n + 1), fun hnil => ?_, ?_, ?_⟩
  · rcases List.take_eq_nil_iff.mp hnil with h | h
    · cases h
    · rw [h, List.length_nil] at hlen
      omega
  · rw [← List.take_append_drop (n + 1) cs, line_append] at hline
    exact hline.1
  · rw [List.map_take, hslugs, chainOf, chainOf, List.map_take, List.map_take]

theorem slash_of_mem_chainOf (hslug : SlugifyLaws env) (hspelled : ∀ c ∈ t, Spelled env c.slug)
    (hline : Line t none cs) : ∀ s ∈ (chainOf env cs).map Prod.snd, '/' ∉ s.toList := by
  intro s hs
  simp only [chainOf, List.map_map, List.mem_map] at hs
  obtain ⟨c, hc, rfl⟩ := hs
  exact ((hspelled c (hline.mem hc)).again hslug).slash hslug

/-- A chain has the slugs of the line whose key it has. -/
theorem SpellsLine.slugs (h : SpellsLine env t chain) (hslug : SlugifyLaws env)
    (hspelled : ∀ c ∈ t, Spelled env c.slug) (hline : Line t none cs) (hne : cs ≠ [])
    (hkey : chainKey chain = chainKey (chainOf env cs)) :
    chain.map Prod.snd = (chainOf env cs).map Prod.snd := by
  obtain ⟨cs', hne', hline', hslugs⟩ := h
  rw [hslugs]
  rw [chainKey_congr hslugs] at hkey
  exact slugs_of_chainKey (by simpa [chainOf] using hne') (by simpa [chainOf] using hne)
    (slash_of_mem_chainOf hslug hspelled hline') (slash_of_mem_chainOf hslug hspelled hline) hkey

/-- The paths of the categories of a table. -/
def IsPath (t : Table Category.id) (path : String) : Prop :=
  ∃ cs, cs ≠ [] ∧ Line t none cs ∧ path = "/".intercalate (cs.map Category.slug)

theorem pathChain_line (hslug : SlugifyLaws env) (hspelled : ∀ c ∈ t, Spelled env c.slug)
    (hcap : ∀ cs, Line t none cs → cs.length ≤ env.settings.mediaImportMaxCategoryDepth)
    (hne : cs ≠ []) (hline : Line t none cs) :
    ∃ chain, pathChain env ("/".intercalate (cs.map Category.slug)) = .ok chain ∧
      chain.map Prod.snd = (chainOf env cs).map Prod.snd := by
  refine ⟨_, pathChain_path hslug (by simpa using hne) (fun s hs => ?_) ?_, ?_⟩
  · obtain ⟨c, hc, rfl⟩ := List.mem_map.mp hs
    exact hspelled c (hline.mem hc)
  · rw [List.length_map]
    exact hcap cs hline
  · simp only [respelledPath, chainOf, List.map_map]
    rfl

/-- The chains of a document that carries the tree of a table and paths of its
categories: those of its lines, no more than the tree has nodes. -/
theorem manifestChains_tree (hslug : SlugifyLaws env) (hspelled : ∀ c ∈ t, Spelled env c.slug)
    (hlines : ∀ c ∈ t, ∃ cs, Line t none (cs ++ [c]))
    (hcap : ∀ cs, Line t none cs → cs.length ≤ env.settings.mediaImportMaxCategoryDepth)
    (hpaths : ∀ entry ∈ objects, ∀ path ∈ entry.categoryPaths, IsPath t path) :
    ∃ chains, manifestChains env ⟨(buildCategoryTree env t.rows counts).map
        CategoryNode.imported, objects⟩ = .ok chains ∧
      (∀ p ∈ chains, p.1 = chainKey p.2 ∧ SpellsLine env t p.2) ∧
      (∀ cs, cs ≠ [] → Line t none cs → chainKey (chainOf env cs) ∈ chains.map Prod.fst) ∧
      chains.length ≤ (CategoryNode.rowsList (buildCategoryTree env t.rows counts)).length := by
  obtain ⟨-, tree, htree, hof, hall, hlen⟩ := forestChains_tree hslug hspelled hlines counts
  have hpath : ∀ path ∈ objects.flatMap ImportObjectEntry.categoryPaths, IsPath t path := by
    intro path hpath
    obtain ⟨entry, hentry, hpath⟩ := List.mem_flatMap.mp hpath
    exact hpaths entry hentry path hpath
  have hchain : ∀ path ∈ objects.flatMap ImportObjectEntry.categoryPaths,
      ∃ chain, pathChain env path = .ok chain ∧ SpellsLine env t chain := by
    intro path hmem
    obtain ⟨cs, hne, hline, rfl⟩ := hpath path hmem
    obtain ⟨chain, hok, hslugs⟩ := pathChain_line hslug hspelled hcap hne hline
    exact ⟨chain, hok, cs, hne, hline, hslugs⟩
  obtain ⟨paths, hok⟩ := exists_mapM_eq_ok fun path hmem =>
    (hchain path hmem).imp fun _ h => h.1
  have hspells : ∀ chain ∈ tree ++ paths, SpellsLine env t chain := by
    intro chain hmem
    rcases List.mem_append.mp hmem with hmem | hmem
    · obtain ⟨cs, hne, hline, rfl⟩ := hof chain hmem
      exact ⟨cs, hne, hline, rfl⟩
    · obtain ⟨path, hpath, hpathChain⟩ := mem_of_mapM_eq_ok hok hmem
      obtain ⟨chain', hchain', hspells⟩ := hchain path hpath
      cases hpathChain.symm.trans hchain'
      exact hspells
  obtain ⟨hnodup, hprefixes⟩ := foldl_collectChain_prefixes (tree ++ paths)
    (show (([] : List (String × CategoryChain)).map Prod.fst).Nodup from List.nodup_nil)
  have hkept : ∀ p ∈ (tree ++ paths).foldl collectChain [],
      p.1 = chainKey p.2 ∧ SpellsLine env t p.2 := by
    intro p hp
    rcases hprefixes p hp with hp | ⟨hkey, chain, hchain, n, hn, htake⟩
    · cases hp
    · exact ⟨hkey, htake ▸ (hspells chain hchain).take hn⟩
  refine ⟨(tree ++ paths).foldl collectChain [], ?_, hkept, fun cs hne hline => ?_, ?_⟩
  · simp only [manifestChains, htree, hok, bind, Except.bind, pure, Except.pure]
  · exact key_mem_foldl_collectChain (List.mem_append_left _ (hall cs hne hline))
      (by simpa [chainOf] using hne)
  · have hsub : ((tree ++ paths).foldl collectChain []).map Prod.fst ⊆ tree.map chainKey := by
      intro key hkey
      obtain ⟨p, hp, rfl⟩ := List.mem_map.mp hkey
      obtain ⟨hpkey, cs, hne, hline, hslugs⟩ := hkept p hp
      rw [hpkey, chainKey_congr hslugs]
      exact List.mem_map_of_mem (hall cs hne hline)
    have hle := (List.subperm_of_subset hnodup hsub).length_le
    rwa [List.length_map, List.length_map, hlen] at hle

end Chains

/-! ### The tree found again -/

section Found

variable {settings : Settings} {db db' : Database} {user : UserModel} {c d d' : Category}
  {cs : List Category} {chain : CategoryChain} {tree : RecreatedTree} {counts : ℤ → ℕ}
  {objects : List ImportObjectEntry}

/-- Spelling the slugs on the way to a category again leads to `d`. -/
def RespelledAs (env : Env) (t : Table Category.id) (c d : Category) : Prop :=
  ∃ cs ds, Line t none (cs ++ [c]) ∧ Line t none (ds ++ [d]) ∧
    (ds ++ [d]).map Category.slug = (chainOf env (cs ++ [c])).map Prod.snd

theorem RespelledAs.mem {t : Table Category.id} (h : RespelledAs env t c d) : c ∈ t ∧ d ∈ t := by
  obtain ⟨cs, ds, hc, hd, -⟩ := h
  exact ⟨hc.mem (by simp), hd.mem (by simp)⟩

/-- A chain finds the category that the respelled path leads to. -/
theorem ForestInv.ensureCategoryPath_iff (h : ForestInv settings db)
    (hline : Line (writeScope db user.tenantId user.id) none (cs ++ [c]))
    (hslugs : chain.map Prod.snd = (chainOf env (cs ++ [c])).map Prod.snd) :
    MediaService.ensureCategoryPath db user chain = (db, .ok (d, 0)) ↔
      RespelledAs env (writeScope db user.tenantId user.id) c d := by
  constructor
  · intro hpath
    obtain ⟨-, ds, hd, hds⟩ := line_of_ensureCategoryPath hpath
    exact ⟨cs, ds, hline, hd, hds.trans hslugs⟩
  · rintro ⟨cs', ds, hline', hd, hds⟩
    obtain rfl := hline.unique hline'
    exact h.ensureCategoryPath_line hd (hslugs.trans hds.symm)

theorem ForestInv.respelledAs_unique (h : ForestInv settings db)
    (hd : RespelledAs env (writeScope db user.tenantId user.id) c d)
    (hd' : RespelledAs env (writeScope db user.tenantId user.id) c d') : d = d' := by
  obtain ⟨cs, -, hline, -⟩ := id hd
  have hfound := (h.ensureCategoryPath_iff hline rfl).mpr hd
  rw [(h.ensureCategoryPath_iff hline rfl).mpr hd'] at hfound
  cases hfound
  rfl

/-- Under the path of a category, a recreated tree has what the respelled path of the
category leads to. -/
def FindsRespelled (env : Env) (t : Table Category.id) (tree : RecreatedTree) : Prop :=
  ∀ q ∈ tree.byPath, ∀ cs c, Line t none (cs ++ [c]) →
    q.1 = chainKey (chainOf env (cs ++ [c])) → RespelledAs env t c q.2

/-- The tree of an exported document is recreated; none of it is new exactly if every
respelled path leads to a category, and then nothing is written. -/
theorem ForestInv.recreateTree_exported (h : ForestInv env.settings db)
    (hslug : SlugifyLaws env)
    (hspelled : ∀ c ∈ writeScope db user.tenantId user.id, Spelled env c.slug)
    (hmax : (CategoryNode.rowsList (buildCategoryTree env
      (writeScope db user.tenantId user.id).rows counts)).length ≤
        env.settings.mediaImportMaxCategories)
    (hpaths : ∀ entry ∈ objects, ∀ path ∈ entry.categoryPaths,
      IsPath (writeScope db user.tenantId user.id) path) :
    ∃ db' tree, MediaService.recreateTree env db user ⟨(buildCategoryTree env
        (writeScope db user.tenantId user.id).rows counts).map CategoryNode.imported, objects⟩ =
          (db', .ok tree) ∧
      (∀ entry ∈ objects, (∃ categories, categoriesFor env tree entry = .ok categories) ∧
        ∃ paths, entryPaths env entry = .ok paths) ∧
      (tree.created = 0 ↔ ∀ c ∈ writeScope db user.tenantId user.id,
        ∃ d, RespelledAs env (writeScope db user.tenantId user.id) c d) ∧
      (tree.created = 0 →
        db' = db ∧ FindsRespelled env (writeScope db user.tenantId user.id) tree) := by
  have hlines : ∀ c ∈ writeScope db user.tenantId user.id,
      ∃ cs, Line (writeScope db user.tenantId user.id) none (cs ++ [c]) :=
    fun c hc => h.exists_line hc
  obtain ⟨chains, hchains, hspells, hkeys, hlen⟩ :=
    manifestChains_tree hslug hspelled hlines (fun cs hline => h.length_line_le hline) hpaths
  have hpass : CategoriesPass env ⟨(buildCategoryTree env
      (writeScope db user.tenantId user.id).rows counts).map CategoryNode.imported, objects⟩ :=
    ⟨chains, hchains, hlen.trans hmax⟩
  obtain ⟨db', tree, htree, hentries⟩ := recreateTree_ok hpass h.seq_fresh user
  refine ⟨db', tree, htree, hentries, ?_⟩
  unfold MediaService.recreateTree at htree
  rw [hchains] at htree
  dsimp only at htree
  rw [if_neg (Nat.not_lt.mpr (hlen.trans hmax))] at htree
  have hmem : ∀ p, p ∈ chains.insertionSort (fun a b => shallowestFirst a b = true) ↔ p ∈ chains :=
    fun p => List.mem_insertionSort _
  have hfound : ∀ p ∈ chains, ∀ cs c, Line (writeScope db user.tenantId user.id) none (cs ++ [c]) →
      p.1 = chainKey (chainOf env (cs ++ [c])) →
      ∀ d, MediaService.ensureCategoryPath db user p.2 = (db, .ok (d, 0)) ↔
        RespelledAs env (writeScope db user.tenantId user.id) c d := by
    intro p hp cs c hline hkey d
    obtain ⟨hpkey, hspells⟩ := hspells p hp
    exact h.ensureCategoryPath_iff hline
      (hspells.slugs hslug hspelled hline (by simp) (hpkey.symm.trans hkey))
  have hreused := fun hzero : tree.created = 0 => reused_of_ensureChains htree hzero
  refine ⟨⟨fun hzero c hc => ?_, fun hall => ?_⟩, fun hzero => ⟨(hreused hzero).1, ?_⟩⟩
  · obtain ⟨-, hrows, -⟩ := hreused hzero
    obtain ⟨cs, hline⟩ := hlines c hc
    obtain ⟨p, hp, hkey⟩ := List.mem_map.mp (hkeys _ (by simp) hline)
    obtain ⟨row, hrow⟩ := hrows p ((hmem p).mpr hp)
    exact ⟨row, (hfound p hp cs c hline hkey row).mp hrow⟩
  · have hrows : ∀ p ∈ chains.insertionSort fun a b => shallowestFirst a b = true,
        ∃ row, MediaService.ensureCategoryPath db user p.2 = (db, .ok (row, 0)) := by
      intro p hp
      obtain ⟨hkey, cs, hne, hline, hslugs⟩ := hspells p ((hmem p).mp hp)
      obtain ⟨cs, c, rfl⟩ := (List.eq_nil_or_concat' cs).resolve_left hne
      obtain ⟨d, hd⟩ := hall c (hline.mem (by simp))
      exact ⟨d, (h.ensureCategoryPath_iff hline hslugs).mpr hd⟩
    obtain ⟨tree', htree', hcreated⟩ := ensureChains_reuses hrows ⟨[], 0, 0⟩
    cases htree.symm.trans htree'
    exact hcreated
  · obtain ⟨-, -, hbyPath⟩ := hreused hzero
    intro q hq cs c hline hkey
    rcases hbyPath q hq with hq | ⟨chain, hchain, hrow⟩
    · cases hq
    · exact (hfound _ ((hmem _).mp hchain) cs c hline hkey q.2).mp hrow

end Found

end MediaService
