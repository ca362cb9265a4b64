import MediaService.Invariants.ImportTwice
import MediaService.Invariants.SpelledCategories
import MediaService.ReadSurface.Export

/-! A manifest exported and imported where it came from. The import reads the
document back, finds the tree under its respelled paths, and visits each listed
object: nothing is created and nothing filed anew exactly if every row fits the
import's schema, every respelled path leads to a category, and the objects it leads
to are filed there already. -/

namespace MediaService

open Foundation

variable {env : Env} {lib : ModelLibrary} {db : Database} {user : UserModel} {b : Backend}
  {ctx : ℕ → RowContext} {manifest : ExportManifest} {o : MediaObject} {c d : Category}

/-! ### The rows of a manifest -/

theorem scopedCategories_eq (db : Database) (hs : user.isSuperuser = false) :
    scopedCategories db user = (writeScope db user.tenantId user.id).rows := by
  refine List.filter_congr fun c _ => ?_
  unfold inScope inWriteScope
  rw [hs]
  cases user.tenantId <;> rfl

/-- The categories an object is filed into, as its caller sees them. -/
def filings (db : Database) (user : UserModel) (id : UUID) : List Category :=
  (scopedCategories db user).filter fun c => (id, c.id) ∈ db.links

/-- The paths an entry of the manifest carries. -/
def filingPaths (db : Database) (user : UserModel) (id : UUID) : List String :=
  (categoryRefsByObject db (some user) [id] id).map MediaObjectCategoryRef.path

theorem filingPaths_eq (db : Database) (user : UserModel) (id : UUID) :
    filingPaths db user id = ((filings db user id).insertionSort fun c c' => c.id ≤ c'.id).map
      fun c => (categoryPath (scopedCategories db user) c.id).getD c.slug := by
  unfold filingPaths categoryRefsByObject
  dsimp only
  rw [if_pos (List.mem_singleton_self id), categoryRefs, List.map_map]
  rfl

theorem length_filingPaths (db : Database) (user : UserModel) (id : UUID) :
    (filingPaths db user id).length = (filings db user id).length := by
  rw [filingPaths_eq, List.length_map, List.length_insertionSort]

/-- The paths are those of the categories filed under. -/
theorem mem_filingPaths (h : ForestInv env.settings db)
    (hscope : scopedCategories db user = (writeScope db user.tenantId user.id).rows) {id : UUID}
    {path : String} : path ∈ filingPaths db user id ↔
      ∃ cs c, Line (writeScope db user.tenantId user.id) none (cs ++ [c]) ∧
        (id, c.id) ∈ db.links ∧ path = "/".intercalate ((cs ++ [c]).map Category.slug) := by
  rw [filingPaths_eq, List.mem_map]
  simp only [List.mem_insertionSort, filings, List.mem_filter, decide_eq_true_eq, hscope]
  constructor
  · rintro ⟨c, ⟨hc, hlink⟩, rfl⟩
    obtain ⟨cs, hline⟩ := h.exists_line hc
    exact ⟨cs, c, hline, hlink, by rw [categoryPath_line hline]; rfl⟩
  · rintro ⟨cs, c, hline, hlink, rfl⟩
    exact ⟨c, ⟨hline.mem (by simp), hlink⟩, by rw [categoryPath_line hline]; rfl⟩

/-- What the schema of an import asks of an exported object. -/
def RowFits (db : Database) (user : UserModel) (o : MediaObject) : Prop :=
  (∀ f, o.originalFilename = some f → f.length ≤ 255) ∧
    (filings db user o.id).length ≤ maxCategoryAssignments ∧
    (∀ s, o.sha256 = some s → s.length = 64) ∧ 1 ≤ o.mimeType.length ∧ o.mimeType.length ≤ 255

/-- The entry that describes an object. -/
def objectEntry (db : Database) (user : UserModel) (o : MediaObject) : ManifestObjectEntry :=
  manifestEntry o (filingPaths db user o.id)

theorem imported_objectEntry :
    (∃ entry, (objectEntry db user o).imported = some entry) ↔ RowFits db user o := by
  unfold ManifestObjectEntry.imported RowFits
  rw [← length_filingPaths]
  constructor
  · rintro ⟨entry, hentry⟩
    split at hentry
    · rename_i hfits
      exact hfits
    · cases hentry
  · intro hfits
    exact ⟨_, dif_pos hfits⟩

theorem of_imported_objectEntry {entry : ImportObjectEntry}
    (h : (objectEntry db user o).imported = some entry) :
    entry.id = o.id ∧ entry.categoryPaths = filingPaths db user o.id := by
  unfold ManifestObjectEntry.imported at h
  split at h
  · cases h
    exact ⟨rfl, rfl⟩
  · cases h

/-- The objects of an unfiltered list. -/
def Listed (user : UserModel) (o : MediaObject) : Prop :=
  inListScope (some user) .default o = true

theorem Usable.listed (h : Usable user o) (hs : user.isSuperuser = false) : Listed user o := by
  unfold Listed inListScope
  simp [hs, h.1, h.2.1]

theorem manifest_objects (h : buildManifest env db user .default = .ok manifest) :
    ∃ os : List MediaObject, manifest.objects = os.map (objectEntry db user) ∧
      (os.map MediaObject.id).Nodup ∧ ∀ o, o ∈ os ↔ o ∈ db.objects ∧ Listed user o := by
  have hquery : queryObjects db (some user) .default =
      .ok (db.objects.rows.filter (inListScope (some user) .default)) :=
    queryObjects_unfiltered .default
  refine ⟨_, buildManifest_ok h hquery, ?_, fun o => ?_⟩
  · rw [((orderById_perm _).map MediaObject.id).nodup_iff]
    exact nodup_ids_queryObjects hquery
  · rw [(orderById_perm _).mem_iff, List.mem_filter, Table.mem_def]
    rfl

theorem manifest_categoryTree (h : buildManifest env db user .default = .ok manifest)
    (hs : user.isSuperuser = false) : manifest.categoryTree = buildCategoryTree env
      (writeScope db user.tenantId user.id).rows fun i => (db.links.filter (·.2 = i)).card := by
  rw [← scopedCategories_eq db hs]
  unfold buildManifest at h
  split at h
  · cases h
  · cases h
    rfl

/-! ### The round trip -/

/-- The import of the caller's manifest is accepted, creates no category, changes no
filing, and reports as linked whatever it may link to. -/
def RoundTrips (env : Env) (lib : ModelLibrary) (b : Backend) (ctx : ℕ → RowContext)
    (user : UserModel) (manifest : ExportManifest) : Prop :=
  ∃ b' outcome, importManifest env lib b ctx user (manifest.json lib) = (b', .ok outcome) ∧
    outcome.report.categoriesCreated = 0 ∧ b'.db.categories = b.db.categories ∧
    b'.db.links = b.db.links ∧ ∀ o ∈ b.db.objects, Usable user o →
      ∃ r ∈ outcome.report.objects, r.sourceId = o.id ∧ r.status = .linked

/-- When a caller's collection can be imported where it is. -/
structure Reimportable (env : Env) (db : Database) (user : UserModel) : Prop where
  rows : ∀ o ∈ db.objects, Listed user o → RowFits db user o
  categories : ∀ c ∈ writeScope db user.tenantId user.id,
    ∃ d, RespelledAs env (writeScope db user.tenantId user.id) c d
  filings : ∀ o ∈ db.objects, Usable user o → ∀ c d, (o.id, c.id) ∈ db.links →
    RespelledAs env (writeScope db user.tenantId user.id) c d → (o.id, d.id) ∈ db.links

/-- The same row times, with nothing failing. -/
def faultless (ctx : ℕ → RowContext) : ℕ → RowContext :=
  fun i => { ctx i with faults := Faults.none }

theorem faults_faultless (ctx : ℕ → RowContext) (i : ℕ) :
    (faultless ctx i).faults = Faults.none := rfl

/-- Manifest rows look at no storage, so faults are nothing to them. -/
theorem importRows_faultless (tree : RecreatedTree) (ctx : ℕ → RowContext) (user : UserModel)
    (i : ℕ) (b : Backend) (entries : List ImportObjectEntry) :
    importRows env tree (faultless ctx)
        (fun b ctx entry categories paths => importManifestEntry b ctx user entry categories paths)
        i b entries =
      importRows env tree ctx
        (fun b ctx entry categories paths => importManifestEntry b ctx user entry categories paths)
        i b entries := by
  induction entries generalizing i b with
  | nil => rfl
  | cons entry entries ih =>
    have hrow : ∀ categories paths,
        importManifestEntry b (faultless ctx i) user entry categories paths =
          importManifestEntry b (ctx i) user entry categories paths := fun _ _ => rfl
    rw [importRows, importRows]
    simp only [hrow, ih]

section RoundTrip

variable {os : List MediaObject} {entries : List ImportObjectEntry} {tree : RecreatedTree}

/-- What a row of the manifest finds in the tree: under the path of a category filed
under, the category its respelled path leads to. -/
theorem mem_categoriesFor_objectEntry (h : ForestInv env.settings db) (hslug : SlugifyLaws env)
    (hspelled : ∀ c ∈ writeScope db user.tenantId user.id, Spelled env c.slug)
    (hs : user.isSuperuser = false)
    (htree : FindsRespelled env (writeScope db user.tenantId user.id) tree)
    {entry : ImportObjectEntry} (hentry : (objectEntry db user o).imported = some entry)
    {categories : List Category} (hcat : categoriesFor env tree entry = .ok categories) {i : ℤ} :
    i ∈ categories.map Category.id ↔ ∃ c d, (o.id, c.id) ∈ db.links ∧
      RespelledAs env (writeScope db user.tenantId user.id) c d ∧ d.id = i := by
  obtain ⟨hid, hpaths⟩ := of_imported_objectEntry hentry
  obtain ⟨hsub, hsup⟩ := mem_categoriesFor hcat
  have hchain : ∀ cs c, Line (writeScope db user.tenantId user.id) none (cs ++ [c]) →
      ∀ chain, pathChain env ("/".intercalate ((cs ++ [c]).map Category.slug)) = .ok chain →
      chainKey chain = chainKey (chainOf env (cs ++ [c])) := by
    intro cs c hline chain hchain
    obtain ⟨chain', hok, hslugs⟩ := pathChain_line hslug hspelled
      (fun cs hline => h.length_line_le hline) (by simp) hline
    cases hchain.symm.trans hok
    exact chainKey_congr hslugs
  rw [List.mem_map]
  constructor
  · rintro ⟨d, hd, rfl⟩
    obtain ⟨path, hpath, chain, hok, hfound⟩ := hsub d hd
    rw [hpaths, mem_filingPaths h (scopedCategories_eq db hs)] at hpath
    obtain ⟨cs, c, hline, hlink, rfl⟩ := hpath
    exact ⟨c, d, hlink, htree _ hfound cs c hline (hchain cs c hline chain hok), rfl⟩
  · rintro ⟨c, d, hlink, hrespelled, rfl⟩
    obtain ⟨cs, -, hline, -⟩ := id hrespelled
    have hpath := (mem_filingPaths h (scopedCategories_eq db hs)).mpr ⟨cs, c, hline, hlink, rfl⟩
    rw [← hpaths] at hpath
    obtain ⟨chain, d', hok, hfound, d'', hd'', hid'⟩ := hsup _ hpath
    obtain rfl : d' = d := h.respelledAs_unique
      (htree _ hfound cs c hline (hchain cs c hline chain hok)) hrespelled
    exact ⟨d'', hd'', hid'⟩

theorem not_stranded {entry : ImportObjectEntry} {categories : List Category} :
    ¬ Stranded env db user none entry categories := by
  rintro ⟨-, -, zip, req, staged, data, hzip, -⟩
  cases hzip

theorem ids_of_imported
    (h : List.Forall₂ (fun o entry => (objectEntry db user o).imported = some entry) os entries) :
    entries.map ImportObjectEntry.id = os.map MediaObject.id :=
  map_eq_of_forall₂ h fun _ _ _ hentry => (of_imported_objectEntry hentry).1

/-- Run on entries that were read, the import round-trips exactly if the categories
lead back and the filings are there. -/
theorem roundTrips_of_read (h : SpelledForest env b.db) (hslug : SlugifyLaws env)
    (hs : user.isSuperuser = false) (hfits : manifest.Fits env.settings)
    (hmanifest : buildManifest env b.db user .default = .ok manifest)
    (hnodup : (os.map MediaObject.id).Nodup) (hmem : ∀ o, o ∈ os ↔ o ∈ b.db.objects ∧ Listed user o)
    (hentries : List.Forall₂ (fun o entry => (objectEntry b.db user o).imported = some entry)
      os entries)
    (hparse : parseManifestDocument env.settings lib (manifest.json lib) =
      .ok ⟨manifest.categoryTree.map CategoryNode.imported, entries⟩) :
    RoundTrips env lib b ctx user manifest ↔
      (∀ c ∈ writeScope b.db user.tenantId user.id,
        ∃ d, RespelledAs env (writeScope b.db user.tenantId user.id) c d) ∧
      ∀ o ∈ b.db.objects, Usable user o → ∀ c d, (o.id, c.id) ∈ b.db.links →
        RespelledAs env (writeScope b.db user.tenantId user.id) c d →
        (o.id, d.id) ∈ b.db.links := by
  have hspelled : ∀ c ∈ writeScope b.db user.tenantId user.id, Spelled env c.slug :=
    fun c hc => (h.fits c (mem_writeScope.mp hc).1).2
  have hids := ids_of_imported hentries
  have hpaths : ∀ entry ∈ entries, ∀ path ∈ entry.categoryPaths,
      IsPath (writeScope b.db user.tenantId user.id) path := by
    intro entry hentry path hpath
    obtain ⟨o, -, ho⟩ := exists_of_forall₂ hentries.flip hentry
    rw [(of_imported_objectEntry ho).2,
      mem_filingPaths h.forest (scopedCategories_eq b.db hs)] at hpath
    obtain ⟨cs, c, hline, -, rfl⟩ := hpath
    exact ⟨cs ++ [c], by simp, hline, rfl⟩
  have himport : importManifest env lib b ctx user (manifest.json lib) =
      importDocument env b ctx user .manifest
        ⟨manifest.categoryTree.map CategoryNode.imported, entries⟩
        fun b ctx entry categories paths =>
          importManifestEntry b ctx user entry categories paths := by
    unfold importManifest
    rw [hparse]
    rfl
  have hmax := hfits.categories
  rw [manifest_categoryTree hmanifest hs] at hmax himport
  obtain ⟨db', tree, htree, hfound, hcreated, hreused⟩ :=
    h.forest.recreateTree_exported hslug hspelled hmax hpaths
  unfold RoundTrips
  rw [himport]
  have hfind : ∀ o ∈ os, ∀ entry : ImportObjectEntry, (objectEntry b.db user o).imported =
      some entry → b.db.objects.find entry.id = some o := by
    intro o ho entry hentry
    rw [(of_imported_objectEntry hentry).1]
    exact Table.find_of_mem ((hmem o).mp ho).1
  unfold importDocument
  rw [htree]
  dsimp only
  rw [← importRows_faultless]
  constructor
  · rintro ⟨b', outcome, hrun, hzero, -, hlinks, hlinked⟩
    split at hrun
    · cases hrun
    · rename_i b₁ results hrows
      cases hrun
      have hzero : tree.created = 0 := hzero
      obtain ⟨rfl, hrespells⟩ := hreused hzero
      refine ⟨hcreated.mp hzero, fun o ho husable c d hlink hrespelled => ?_⟩
      obtain ⟨hvisited, hreports⟩ := importRows_done (rowLaw_manifest env user)
        (faults_faultless ctx) (hids ▸ hnodup) hrows
      obtain ⟨r, hr, hsource, hstatus⟩ := hlinked o ho husable
      obtain ⟨res, hres, rfl⟩ := List.mem_map.mp hr
      obtain ⟨entry, hentry, hreport⟩ := exists_of_forall₂ hreports.flip hres
      obtain ⟨o', hfind', husable'⟩ := hreport.2 (.inr hstatus)
      obtain ⟨o'', ho'', himported⟩ := exists_of_forall₂ hentries.flip hentry
      have hid : entry.id = o.id := hreport.1.symm.trans hsource
      obtain rfl : o'' = o := Table.eq_of_key_eq ((hmem o'').mp ho'').1 ho
        ((of_imported_objectEntry himported).1.symm.trans hid)
      obtain ⟨categories, paths, hcategories, -, hv⟩ := hvisited entry hentry
      obtain ⟨e, he, heid⟩ := List.mem_map.mp ((mem_categoriesFor_objectEntry h.forest hslug
        hspelled hs hrespells himported hcategories).mpr ⟨c, d, hlink, hrespelled, rfl⟩)
      rcases hv with ⟨q, hq, hfiled⟩ | ⟨hnone, -⟩
      · cases hq.symm.trans hfind'
        have := hfiled husable' e he
        rw [hlinks, heid, hid] at this
        exact this
      · cases hnone.symm.trans hfind'
  · rintro ⟨hcategories, hfilings⟩
    have hzero := hcreated.mpr hcategories
    obtain ⟨rfl, hrespells⟩ := hreused hzero
    have hvisited : ∀ entry ∈ entries, ∃ categories paths,
        categoriesFor env tree entry = .ok categories ∧ entryPaths env entry = .ok paths ∧
          Visited env user none entry categories False b.db := by
      intro entry hentry
      obtain ⟨⟨categories, hc⟩, paths, hp⟩ := hfound entry hentry
      obtain ⟨o, ho, himported⟩ := exists_of_forall₂ hentries.flip hentry
      refine ⟨categories, paths, hc, hp,
        .inl ⟨o, hfind o ho entry himported, fun husable e he => ?_⟩⟩
      obtain ⟨c, d, hlink, hrespelled, hid⟩ := (mem_categoriesFor_objectEntry h.forest hslug
        hspelled hs hrespells himported hc).mp (List.mem_map_of_mem he)
      rw [← hid, (of_imported_objectEntry himported).1]
      exact hfilings o ((hmem o).mp ho).1 husable c d hlink hrespelled
    obtain ⟨hiff, hsame⟩ := importRows_again tree (rowLaw_manifest env user)
      (faults_faultless ctx) hvisited 0 b.storage
    obtain ⟨results, hresults⟩ := hiff.mpr fun _ _ _ _ => not_stranded
    cases hrows : importRows env tree (faultless ctx)
        (fun b ctx entry categories paths => importManifestEntry b ctx user entry categories paths)
        0 ⟨b.db, b.storage⟩ entries with
    | mk b' answer =>
      rw [hrows] at hresults
      cases hresults
      obtain ⟨hdb, hreports⟩ := hsame b' results hrows
      refine ⟨b', tallied .manifest tree results, rfl, hzero, by rw [hdb], by rw [hdb], ?_⟩
      intro o ho husable
      obtain ⟨entry, hentry, himported⟩ :=
        exists_of_forall₂ hentries ((hmem o).mpr ⟨ho, husable.listed hs⟩)
      obtain ⟨res, hres, hsource, hlinked⟩ := exists_of_forall₂ hreports hentry
      refine ⟨res.1, List.mem_map_of_mem hres, ?_, hlinked ⟨o, ?_, husable⟩⟩
      · rw [hsource, (of_imported_objectEntry himported).1]
      · exact hfind o ((hmem o).mpr ⟨ho, husable.listed hs⟩) entry himported

end RoundTrip

/-- In every reachable state, the manifest of a caller who is no superuser, within the
ceilings, can be imported back without effect if and only if its rows fit the schema
of an import, every respelled path of its tree leads to a category, and what is filed
under a category is filed under the one its respelled path leads to. -/
theorem manifest_roundTrips_iff (hslug : SlugifyLaws env) {rs : List Request}
    (hrs : ∀ r ∈ rs, r.Admitted env lib) (ctx : ℕ → RowContext) (hs : user.isSuperuser = false)
    (hmanifest : buildManifest env (run (serve env) World.initial rs).backend.db user .default =
      .ok manifest) (hfits : manifest.Fits env.settings) :
    RoundTrips env lib (run (serve env) World.initial rs).backend ctx user manifest ↔
      Reimportable env (run (serve env) World.initial rs).backend.db user := by
  have h : SpelledForest env (run (serve env) World.initial rs).backend.db := spelledForest_run hrs
  generalize (run (serve env) World.initial rs).backend = b at hmanifest h ⊢
  obtain ⟨os, hos, hnodup, hmem⟩ := manifest_objects hmanifest
  have hspelled : ∀ c ∈ writeScope b.db user.tenantId user.id, Spelled env c.slug :=
    fun c hc => (h.fits c (mem_writeScope.mp hc).1).2
  have hnodes : ∀ c ∈ CategoryNode.rowsList manifest.categoryTree, c.FitsNode := by
    intro c hc
    rw [manifest_categoryTree hmanifest hs] at hc
    have hscope := (forestChains_tree hslug hspelled (fun c hc => h.forest.exists_line hc) _).1 c hc
    exact (h.fits c (mem_writeScope.mp hscope).1).fitsNode
  have hparse := parseManifestDocument_json lib hfits hnodes
  have hread : (∃ entries, manifest.objects.mapM ManifestObjectEntry.imported = some entries) ↔
      ∀ o ∈ b.db.objects, Listed user o → RowFits b.db user o := by
    rw [hos, exists_mapM_eq_some, List.forall_mem_map]
    simp only [imported_objectEntry, hmem, and_imp]
  cases hentries : manifest.objects.mapM ManifestObjectEntry.imported with
  | none =>
    rw [hentries] at hparse hread
    refine iff_of_false ?_ fun hre => by simpa using hread.mpr hre.rows
    rintro ⟨b', outcome, hrun, -⟩
    unfold importManifest at hrun
    rw [hparse] at hrun
    cases hrun
  | some entries =>
    rw [hentries] at hparse hread
    rw [hos, mapM_eq_some_iff, List.forall₂_map_left_iff] at hentries
    rw [roundTrips_of_read h hslug hs hfits hmanifest hnodup hmem hentries hparse]
    constructor
    · rintro ⟨hcategories, hfilings⟩
      exact ⟨hread.mp ⟨entries, rfl⟩, hcategories, hfilings⟩
    · rintro ⟨-, hcategories, hfilings⟩
      exact ⟨hcategories, hfilings⟩

/-! ### Sample runs -/

def isWordChar (c : Char) : Bool := isSlugChar c && c ≠ '-'

/-- The words still to come, each after a hyphen if there was a gap before it. -/
def slugTail : Bool → List Char → List Char
  | _, [] => []
  | gap, c :: cs =>
    if isWordChar c.toLower then (if gap then ['-'] else []) ++ c.toLower :: slugTail false cs
    else slugTail true cs

/-- `slugify` on ASCII text without quotes or entities. -/
def asciiSlugify (s : String) : String :=
  String.ofList (slugTail false (s.toList.dropWhile fun c => !isWordChar c.toLower))

/-- Surroundings whose slugs are words. -/
def Env.slugging : Env := { Env.default with slugify := asciiSlugify }

theorem isSlugChar_of_mem_slugTail {gap : Bool} {cs : List Char} {c : Char}
    (hc : c ∈ slugTail gap cs) : isSlugChar c = true := by
  induction cs generalizing gap with
  | nil => cases hc
  | cons d cs ih =>
    rw [slugTail] at hc
    split at hc
    · rename_i hd
      rcases List.mem_append.mp hc with hc | hc
      · split at hc
        · rw [List.mem_singleton.mp hc]
          decide
        · cases hc
      · rcases List.mem_cons.mp hc with rfl | hc
        · exact (Bool.and_eq_true_iff.mp hd).1
        · exact ih hc
    · exact ih hc

theorem toLower_of_isSlugChar {c : Char} (h : isSlugChar c = true) : c.toLower = c := by
  have hn : ¬ (c.val ≥ 'A'.val ∧ c.val ≤ 'Z'.val) := by
    rintro ⟨h₁, h₂⟩
    have h₁ : 65 ≤ c.toNat := h₁
    have h₂ : c.toNat ≤ 90 := h₂
    rcases of_decide_eq_true h with h | h | rfl
    · have : 97 ≤ c.toNat := h.1
      omega
    · have : c.toNat ≤ 57 := h.2
      omega
    · revert h₁
      decide
  exact dif_neg hn

theorem slugTail_word {c : Char} (hc : isWordChar c.toLower = true) (cs : List Char) :
    slugTail false (c :: cs) = c.toLower :: slugTail false cs := by
  rw [slugTail, if_pos hc]
  rfl

theorem slugifyLaws_slugging : SlugifyLaws Env.slugging where
  alphabet s c hc := by
    simp only [Env.slugging, asciiSlugify, String.toList_ofList] at hc
    exact isSlugChar_of_mem_slugTail hc
  head s := by
    simp only [Env.slugging, asciiSlugify, String.toList_ofList]
    have hhead := List.head?_dropWhile_not (fun c => !isWordChar c.toLower) s.toList
    cases hs : s.toList.dropWhile fun c => !isWordChar c.toLower with
    | nil => simp [slugTail]
    | cons c cs =>
      rw [hs] at hhead
      have hc : isWordChar c.toLower = true := by simpa using hhead
      rw [slugTail_word hc, List.head?_cons, ne_eq, Option.some.injEq]
      intro h
      rw [h] at hc
      exact absurd hc (by decide)
  nonempty s c hs hc hne := by
    obtain ⟨cs, hcs⟩ : ∃ cs, s.toList = c :: cs := by
      cases hl : s.toList with
      | nil => simp [hl] at hs
      | cons d cs =>
        rw [hl] at hs
        cases hs
        exact ⟨cs, rfl⟩
    have hword : isWordChar c.toLower = true := by
      rw [toLower_of_isSlugChar hc, isWordChar, hc]
      simpa using hne
    have hslug : (asciiSlugify s).toList = c.toLower :: slugTail false cs := by
      rw [asciiSlugify, String.toList_ofList, hcs, List.dropWhile_cons_of_neg (by simp [hword]),
        slugTail_word hword]
    intro h
    rw [show asciiSlugify s = "" from h] at hslug
    cases hslug

theorem decimalAscii_slugging : DecimalAscii Env.slugging := decimalAscii_ascii Settings.default

/-- Reads UUIDs as the service writes them. -/
def ModelLibrary.plain : ModelLibrary where
  timestamp t := toString t
  uuid s := (textOf s).bind (parseUuid Env.slugging)
  int
    | .int i => some i
    | _ => none
  floatIsZero _ := false
  uuid_str u := by
    rw [Json.textOf_codePoints, Option.bind_some]
    exact parseUuid_str decimalAscii_slugging u
  int_int _ := rfl

/-- A category, and an upload filed into it. -/
def filedUpload (sha256 : Option String) : List Request :=
  let body := pngUpload .private
  [.category (.create (.ordinary 1) ⟨"My Work", "my-work", none, by decide, by decide⟩),
    .initiate Faults.none 0 ⟨2⟩ (.ordinary 1) body,
    .post 0 (signedForm Env.slugging 0 ⟨2⟩ (.ordinary 1) body) pngSignature,
    .complete Faults.none 0 (.ordinary 1) ⟨2⟩ ⟨sha256, some [1]⟩]

def filedBackend (sha256 : Option String) : Backend :=
  (run (serve Env.slugging) World.initial (filedUpload sha256)).backend

theorem admitted_filedUpload (sha256 : Option String) :
    ∀ r ∈ filedUpload sha256, r.Admitted Env.slugging ModelLibrary.plain := by
  intro r hr
  simp only [filedUpload, List.mem_cons, List.not_mem_nil, or_false] at hr
  rcases hr with rfl | rfl | rfl | rfl
  · exact (by decide +kernel : "my-work" = asciiSlugify "My Work")
  · trivial
  · trivial
  · trivial

/-- The caller's manifest of that state. -/
def filedManifest (sha256 : Option String) : ExportManifest :=
  (buildManifest Env.slugging (filedBackend sha256).db (.ordinary 1) .default).toOption.getD
    ⟨[], []⟩

theorem filedManifest_ok (sha256 : Option String) :
    buildManifest Env.slugging (filedBackend sha256).db (.ordinary 1) .default =
      .ok (filedManifest sha256) := by
  have hquery : queryObjects (filedBackend sha256).db (some (.ordinary 1)) .default = .ok
      ((filedBackend sha256).db.objects.rows.filter
        (inListScope (some (.ordinary 1)) ObjectListParams.default.unfiltered)) :=
    queryObjects_unfiltered .default
  have hok : ∃ m, buildManifest Env.slugging (filedBackend sha256).db (.ordinary 1) .default =
      .ok m := by
    unfold buildManifest manifestObjects
    rw [hquery]
    exact ⟨_, rfl⟩
  obtain ⟨m, hm⟩ := hok
  rw [filedManifest, hm]
  rfl

theorem reimportable_of_rows {db : Database} (hobjects : db.objects.rows.map
      (fun o => (o.originalFilename, o.sha256, o.mimeType)) = [(some "a.png", none, "image/png")])
    (hcategories : db.categories.rows = [⟨1, "My Work", "my-work", none, ⟨1⟩, none⟩]) :
    Reimportable Env.slugging db (.ordinary 1) := by
  have hwork : ∀ c ∈ writeScope db (UserModel.ordinary 1).tenantId (UserModel.ordinary 1).id,
      c = ⟨1, "My Work", "my-work", none, ⟨1⟩, none⟩ := by
    intro c hc
    have hmem := (mem_writeScope.mp hc).1
    rw [Table.mem_def, hcategories] at hmem
    exact List.mem_singleton.mp hmem
  refine ⟨fun o ho _ => ?_, fun c hc => ⟨c, [], [], ⟨hc, ?_, trivial⟩, ⟨hc, ?_, trivial⟩, ?_⟩, ?_⟩
  · have hmem : (o.originalFilename, o.sha256, o.mimeType) ∈ db.objects.rows.map
        (fun o => (o.originalFilename, o.sha256, o.mimeType)) := List.mem_map.mpr ⟨o, ho, rfl⟩
    rw [hobjects, List.mem_singleton, Prod.mk.injEq, Prod.mk.injEq] at hmem
    obtain ⟨hname, hsha256, hmime⟩ := hmem
    refine ⟨fun f hf => ?_, ?_, fun s hs => ?_, ?_⟩
    · cases hname.symm.trans hf
      decide
    · have hle : (filings db (.ordinary 1) o.id).length ≤ db.categories.rows.length :=
        (List.length_filter_le _ _).trans (List.length_filter_le _ _)
      rw [hcategories] at hle
      exact hle.trans (by decide)
    · cases hsha256.symm.trans hs
    · rw [hmime]
      decide
  · rw [hwork c hc]
  · rw [hwork c hc]
  · rw [hwork c hc]
    decide +kernel
  · intro o _ _ c d hlink hrespelled
    obtain ⟨hc, hd⟩ := hrespelled.mem
    rw [hwork d hd, ← hwork c hc]
    exact hlink

theorem fits_filedManifest (sha256 : Option String)
    (htree : (filedManifest sha256).categoryTree =
      [.mk ⟨1, "My Work", "my-work", none, ⟨1⟩, none⟩ 1 1 []])
    (hobjects : (filedManifest sha256).objects.length = 1) :
    (filedManifest sha256).Fits Settings.default where
  objects := hobjects ▸ (by decide)
  categories := htree ▸ (by decide)
  depth := by
    rw [htree]
    intro node hnode
    rw [List.mem_singleton.mp hnode]
    simp [CategoryNode.Within, Settings.default]

/-- A filed upload goes out and comes back. -/
theorem manifest_roundTrips_filedUpload :
    RoundTrips Env.slugging ModelLibrary.plain (filedBackend none) rowContexts (.ordinary 1)
      (filedManifest none) :=
  (manifest_roundTrips_iff slugifyLaws_slugging (admitted_filedUpload none) rowContexts rfl
    (filedManifest_ok none) (fits_filedManifest none (by decide +kernel) (by decide +kernel))).mpr
    (reimportable_of_rows (by decide +kernel) (by decide +kernel))

/-- Completed with an empty digest, it is refused when it comes back. -/
theorem not_manifest_roundTrips :
    SlugifyLaws Env.slugging ∧
      (∀ r ∈ filedUpload (some ""), r.Admitted Env.slugging ModelLibrary.plain) ∧
      buildManifest Env.slugging (filedBackend (some "")).db (.ordinary 1) .default =
        .ok (filedManifest (some "")) ∧
      (filedManifest (some "")).Fits Settings.default ∧
      ¬ RoundTrips Env.slugging ModelLibrary.plain (filedBackend (some "")) rowContexts
        (.ordinary 1) (filedManifest (some "")) := by
  refine ⟨slugifyLaws_slugging, admitted_filedUpload _, filedManifest_ok _,
    fits_filedManifest _ (by decide +kernel) (by decide +kernel), ?_⟩
  rintro ⟨b', outcome, hrun, -⟩
  have hrefused : (importManifest Env.slugging ModelLibrary.plain (filedBackend (some ""))
      rowContexts (.ordinary 1)
      ((filedManifest (some "")).json ModelLibrary.plain)).2.toOption.isNone = true := by
    decide +kernel
  rw [hrun] at hrefused
  cases hrefused

end MediaService
