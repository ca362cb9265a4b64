import MediaService.Invariants.ImportedRow
import MediaService.Invariants.PackedArchive
import MediaService.Invariants.SizePolicy

/-! An archive exported and imported into a service without rows. The tree the import
makes has each category under the path it was named by, every packed object runs through
its row, and so what comes back of an object is decided by its own bytes, category,
digest and paths. -/

namespace MediaService

open Foundation

variable {env : Env} {user : UserModel} {db db' : Database} {tree : RecreatedTree}
  {manifest : ImportManifest}

/-! ### The tree -/

/-- In a recreated tree every row ends the line of the slugs it is found under. -/
theorem line_of_byPath (h : recreateTree env db user manifest = (db', .ok tree)) {key : String}
    {row : Category} (hrow : (key, row) ∈ tree.byPath) :
    ∃ cs, Line (writeScope db' user.tenantId user.id) none (cs ++ [row]) ∧
      key = "/".intercalate ((cs ++ [row]).map Category.slug) := by
  obtain ⟨chains, hchains, -, hensure⟩ := recreateTree_eq_ok h
  obtain ⟨-, rows, hrows, hagain⟩ := ensureChains_again hensure
  obtain ⟨tree₂, hok, hbyPath, hcreated⟩ := hagain db' (.refl db') ⟨[], 0, 0⟩
  obtain ⟨-, -, hfound⟩ := reused_of_ensureChains hok hcreated
  have hmem : (key, row) ∈ tree₂.byPath := by
    rw [hbyPath]
    rwa [hrows] at hrow
  rcases hfound (key, row) hmem with hnil | ⟨chain, hchain, hpath⟩
  · cases hnil
  · obtain ⟨-, cs, hline, hslugs⟩ := line_of_ensureCategoryPath hpath
    refine ⟨cs, hline, ?_⟩
    obtain ⟨named, hnamed, -⟩ := manifestChains_eq_ok.mp hchains
    have hkey : key = chainKey chain :=
      ((prefixes_of_manifestChains hnamed hchains).2 _ ((List.mem_insertionSort _).mp hchain)).1
    rw [hkey, hslugs]
    rfl

/-- Ids of the caller's categories resolve. -/
theorem resolves_of_mine {categories : List Category} (h : ∀ c ∈ categories, Mine user db c) :
    ∃ cs, resolveCategoryIds db user (categories.map Category.id) = .ok cs := by
  refine exists_mapM_eq_ok fun i hi => ?_
  obtain ⟨c, hc, rfl⟩ := List.mem_map.mp (List.mem_eraseDups.mp hi)
  obtain ⟨hmem, hmine⟩ := h c hc
  have hscope : c ∈ scopedCategories db user :=
    List.mem_filter.mpr ⟨hmem, inScope_of_inWriteScope hmine⟩
  have hfind : (scopedCategories db user).find? (fun d => d.id = c.id) ≠ none := by
    rw [ne_eq, List.find?_eq_none]
    exact fun hnone => hnone c hscope (by simp)
  cases hfound : (scopedCategories db user).find? fun d => d.id = c.id with
  | none => exact absurd hfound hfind
  | some row => exact ⟨row, rfl⟩

/-- Where all categories are the caller's, so is their scope. -/
theorem scopedCategories_of_mine (h : ∀ c ∈ db.categories, Mine user db c) :
    scopedCategories db user = (writeScope db user.tenantId user.id).rows := by
  refine List.filter_congr fun c hc => ?_
  rw [(h c hc).2, inScope_of_inWriteScope (h c hc).2]

/-- An object filed into the categories of its entry is filed under the paths its entry
names, each as the import spells it. -/
theorem mem_filingPaths_imported (htree : recreateTree env db user manifest = (db', .ok tree))
    {db'' : Database} (hsame : SameCategories db' db'') (hforest : ForestInv env.settings db'')
    (hscope : scopedCategories db'' user = (writeScope db'' user.tenantId user.id).rows)
    {entry : ImportObjectEntry} {categories : List Category}
    (hcat : categoriesFor env tree entry = .ok categories) {id : UUID}
    (hlinks : ∀ i, (id, i) ∈ db''.links ↔ i ∈ categories.map Category.id) {path : String} :
    path ∈ filingPaths db'' user id ↔ ∃ path' ∈ entry.categoryPaths, ∃ chain,
      pathChain env path' = .ok chain ∧ path = chainKey chain := by
  obtain ⟨hsub, hsup⟩ := mem_categoriesFor hcat
  have hline : ∀ {key : String} {row : Category}, (key, row) ∈ tree.byPath →
      ∃ cs, Line (writeScope db'' user.tenantId user.id) none (cs ++ [row]) ∧
        key = "/".intercalate ((cs ++ [row]).map Category.slug) := by
    intro key row hrow
    have hwrite : writeScope db'' user.tenantId user.id =
        writeScope db' user.tenantId user.id := by
      unfold writeScope
      rw [hsame.1]
    rw [hwrite]
    exact line_of_byPath htree hrow
  rw [mem_filingPaths hforest hscope]
  constructor
  · rintro ⟨cs, c, hc, hlink, rfl⟩
    obtain ⟨d, hd, hid⟩ := List.mem_map.mp ((hlinks c.id).mp hlink)
    obtain ⟨path', hpath', chain, hchain, hrow⟩ := hsub d hd
    obtain ⟨ds, hd, hkey⟩ := hline hrow
    obtain rfl : d = c := Table.eq_of_key_eq (hd.mem (by simp)) (hc.mem (by simp)) hid
    obtain rfl := hc.unique hd
    exact ⟨path', hpath', chain, hchain, hkey.symm⟩
  · rintro ⟨path', hpath', chain, hchain, rfl⟩
    obtain ⟨chain', d, hchain', hrow, d', hd', hid⟩ := hsup path' hpath'
    cases hchain.symm.trans hchain'
    obtain ⟨ds, hd, hkey⟩ := hline hrow
    exact ⟨ds, d, hd, (hlinks d.id).mpr (hid ▸ List.mem_map_of_mem hd'), hkey⟩

/-! ### What comes back -/

/-- The object is in service again as it was, under the same paths. -/
structure ComesBack (db : Database) (user : UserModel) (db' : Database) (importer : UserModel)
    (o : MediaObject) : Prop where
  object : ∃ o' ∈ db'.objects, o'.id = o.id ∧ o'.status = .uploaded ∧ o'.category = o.category ∧
    o'.visibility = o.visibility ∧ o'.mimeType = o.mimeType ∧ o'.sizeBytes = o.sizeBytes ∧
    o'.sha256 = o.sha256 ∧ o'.originalFilename = some (importedName o.originalFilename)
  filings : ∀ path, path ∈ filingPaths db' importer o.id ↔ path ∈ filingPaths db user o.id

/-- The object could be uploaded as it is: its bytes are those its row describes, within
the cap of its category, and slugifying the paths it is filed under gives them again. -/
structure Reproducible (env : Env) (db : Database) (user : UserModel) (data : Bytes)
    (o : MediaObject) : Prop where
  size : data.length = o.sizeBytes
  nonempty : 1 ≤ o.sizeBytes
  cap : o.sizeBytes ≤ maxSizeForCategory env.settings o.category.str
  mime : mimeConsistent o.mimeType (env.sniffMime (data.take env.headLength)) = true
  digest : ∀ s, o.sha256 = some s → verifySha256 env data s = true
  paths : ∀ path, path ∈ filingPaths db user o.id ↔ ∃ path' ∈ filingPaths db user o.id, ∃ chain,
    pathChain env path' = .ok chain ∧ path = chainKey chain

section ComesBack

variable {importer : UserModel} {o : MediaObject} {entry : ImportObjectEntry} {data : Bytes}
  {late : Prop}

theorem fields_of_imported (h : (objectEntry db user o).imported = some entry) :
    entry.filename = o.originalFilename ∧ entry.category = o.category ∧
      entry.visibility = o.visibility ∧ entry.mimeType = o.mimeType ∧ entry.sha256 = o.sha256 := by
  unfold ManifestObjectEntry.imported at h
  split at h
  · cases h
    exact ⟨rfl, rfl, rfl, rfl, rfl⟩
  · cases h

/-- What stands of an entry is the object it was exported from exactly if that could be
uploaded as it is, and in time. -/
theorem comesBack_iff (hentry : (objectEntry db user o).imported = some entry) {ids : List ℤ}
    (hstands : Stands (BytesPass env entry data ∧ ¬ late) entry.id (entry.Describes data.length)
      ids db')
    (hpaths : (∀ i, (entry.id, i) ∈ db'.links ↔ i ∈ ids) → ∀ path,
      path ∈ filingPaths db' importer o.id ↔ ∃ path' ∈ entry.categoryPaths, ∃ chain,
        pathChain env path' = .ok chain ∧ path = chainKey chain) :
    ComesBack db user db' importer o ↔ Reproducible env db user data o ∧ ¬ late := by
  obtain ⟨hid, hfilings⟩ := of_imported_objectEntry hentry
  obtain ⟨hfilename, hcategory, hvisibility, hmime, hsha256⟩ := fields_of_imported hentry
  rw [hfilings] at hpaths
  rcases hstands with ⟨⟨hbytes, hlate⟩, ⟨o', hfind, ho'⟩, hlinks⟩ | ⟨hnot, hnone⟩
  · have hpaths := hpaths hlinks
    obtain ⟨hmem', hid'⟩ := Table.find_eq_some.mp hfind
    constructor
    · rintro ⟨⟨q, hq, hqid, -, -, -, -, hqsize, -, -⟩, hsame⟩
      obtain rfl : q = o' := Table.eq_of_key_eq hq hmem' (by rw [hqid, hid', hid])
      have hsize : data.length = o.sizeBytes := ho'.sizeBytes.symm.trans hqsize
      refine ⟨⟨hsize, hsize ▸ hbytes.nonempty, ?_, hmime ▸ hbytes.mime,
        fun s hs => hbytes.digest s (hsha256.trans hs), fun path => ?_⟩, hlate⟩
      · rw [← hsize, ← hcategory]
        exact hbytes.size
      · rw [← hpaths path]
        exact (hsame path).symm
    · rintro ⟨hrep, -⟩
      refine ⟨⟨o', hmem', hid'.trans hid, ho'.status, ho'.category.trans hcategory,
        ho'.visibility.trans hvisibility, ho'.mimeType.trans hmime, ho'.sizeBytes.trans hrep.size,
        ho'.sha256.trans hsha256, by rw [ho'.filename, hfilename]⟩, fun path => ?_⟩
      rw [hpaths path, ← hrep.paths path]
  · refine iff_of_false ?_ fun h => hnot ⟨⟨?_, ?_, ?_, ?_⟩, h.2⟩
    · rintro ⟨⟨q, hq, hqid, hstatus, -⟩, -⟩
      refine hnone q ?_ hstatus
      rw [hid, ← hqid]
      exact Table.find_of_mem hq
    · exact h.1.size ▸ h.1.nonempty
    · rw [h.1.size, hcategory]
      exact h.1.cap
    · rw [hmime]
      exact h.1.mime
    · exact fun s hs => h.1.digest s (hsha256.symm.trans hs)

end ComesBack

/-! ### The import -/

/-- A database without rows, whatever the next category's id. -/
def Database.noRows (categorySeq : ℤ) : Database :=
  { Database.empty with categorySeq := categorySeq }

theorem spelledForest_noRows (env : Env) (categorySeq : ℤ) :
    SpelledForest env (.noRows categorySeq) where
  forest := {
    seq_fresh := fun _ hc => absurd hc (Table.not_mem_empty _)
    grounded := fun _ hx => absurd rfl hx
    parent_scope := fun _ hc => absurd hc (Table.not_mem_empty _)
    slug_unique := fun _ hc => absurd hc (Table.not_mem_empty _) }
  fits _ hc := absurd hc (Table.not_mem_empty _)

/-- Into a database without rows an archive is imported to its end, and each entry whose
bytes it carries stands as its row left it, filed under the paths the entry names. -/
theorem runImport_noRows (hnames : NameLaws env) {lib : ModelLibrary} {json : Json}
    {document : ImportManifest} {infolist : List ZipInfo} {ctx : ℕ → RowContext}
    (hparse : parseManifestDocument env.settings lib json = .ok document)
    (hpass : DocumentPasses env (.archive document infolist))
    (hdeclared : ∀ entry ∈ document.objects, entry.Declared env)
    (hreads : ∀ entry ∈ document.objects, ReadsWhole env infolist entry)
    (hids : (document.objects.map ImportObjectEntry.id).Nodup)
    (hroom : RoomFor env.settings ∅ ⟨user.id, user.tenantId⟩
      (document.objects.map (entryBytes env infolist)).sum
      (document.objects.map (entryCount env infolist)).sum)
    (hfaults : ∀ i, (ctx i).faults = Faults.none) (categorySeq : ℤ) (st : Storage) :
    ∃ tree b' outcome, runImport env ⟨.noRows categorySeq, st⟩ ctx user
        (.archive document infolist) = (b', .ok outcome) ∧
      (∀ n entry, document.objects[n]? = some entry →
        RowStands env tree infolist (ctx n) entry b'.db) ∧
      ∀ entry categories id, categoriesFor env tree entry = .ok categories →
        (∀ i, (id, i) ∈ b'.db.links ↔ i ∈ categories.map Category.id) → ∀ path,
        path ∈ filingPaths b'.db user id ↔ ∃ path' ∈ entry.categoryPaths, ∃ chain,
          pathChain env path' = .ok chain ∧ path = chainKey chain := by
  obtain ⟨hceilings, hcategories⟩ := hpass
  have hempty := spelledForest_noRows env categorySeq
  obtain ⟨db₁, tree, htree, hfound⟩ := recreateTree_ok hcategories hempty.forest.seq_fresh user
  have hforest := hempty.recreateTree user hparse
  obtain ⟨hadds, hmine⟩ := addsCategories_recreateTree env user document (.noRows categorySeq)
  rw [htree] at hforest hadds hmine
  have hmine := hmine tree rfl
  have hall : ∀ c ∈ db₁.categories, Mine user db₁ c := fun c hc =>
    ⟨hc, hadds.added c hc (Table.not_mem_empty c)⟩
  obtain ⟨categories, categorySeq', honly⟩ := hadds.only
  have hready : BatchReady env user tree infolist ⟨db₁, st⟩ document.objects := by
    refine ⟨?_, ?_, ?_, fun entry hentry cs hcs => resolves_of_mine fun c hc => ?_, ?_⟩
    · dsimp only at honly
      rw [honly]
      exact ⟨fun _ hs => absurd hs (Table.not_mem_empty _),
        fun _ ho => absurd ho (Table.not_mem_empty _),
        fun _ hv => absurd hv (Table.not_mem_empty _),
        fun _ hv => absurd hv (Table.not_mem_empty _),
        fun _ hj => absurd hj (Table.not_mem_empty _)⟩
    · dsimp only at honly
      rw [honly]
      exact fun _ _ => rfl
    · dsimp only at honly
      rw [honly]
      exact fun _ _ => rfl
    · obtain ⟨path, -, chain, -, hrow⟩ := (mem_categoriesFor hcs).1 c hc
      exact hmine _ hrow
    · dsimp only at honly
      rw [honly]
      exact hroom
  obtain ⟨b', results, hrows, hsame, hstands⟩ := hready.importRows hnames hdeclared hreads hids
    hfaults hfound 0
  have hscoped : ∀ c ∈ b'.db.categories, Mine user b'.db c := by
    have hcategories : b'.db.categories = db₁.categories := hsame.1
    intro c hc
    exact ⟨hc, (hall c (hcategories ▸ hc)).2⟩
  refine ⟨tree, b', tallied .archive tree results, ?_, ?_, ?_⟩
  · simp only [runImport, hceilings, importDocument, htree, hrows]
  · intro n entry hn
    have := hstands n entry hn
    rwa [Nat.zero_add] at this
  · intro entry cs id hcat hlinks path
    exact mem_filingPaths_imported htree hsame (hforest.same hsame).forest
      (scopedCategories_of_mine hscoped) hcat hlinks

/-! ### The payload -/

section Payload

variable {selected : List MediaObject}

/-- Of the selected objects, those whose bytes go into the archive are found in it. -/
theorem find_carried (hids : (selected.map MediaObject.id).Nodup) {o : MediaObject}
    (ho : o ∈ selected) :
    (orderById (selected.filter carriesBytes)).find? (fun q => q.id = o.id) =
      if carriesBytes o then some o else none := by
  have hmem : ∀ q, q ∈ orderById (selected.filter carriesBytes) ↔
      q ∈ selected ∧ carriesBytes q = true := fun q => by
    rw [(orderById_perm _).mem_iff, List.mem_filter]
  have hsame : ∀ q ∈ selected, q.id = o.id → q = o := fun q hq hid =>
    List.inj_on_of_nodup_map hids hq ho hid
  split
  · rename_i hcarries
    cases hfind : (orderById (selected.filter carriesBytes)).find? fun q => q.id = o.id with
    | none =>
      have := List.find?_eq_none.mp hfind o ((hmem o).mpr ⟨ho, hcarries⟩)
      simp at this
    | some q =>
      have hq := ((hmem q).mp (List.mem_of_find?_eq_some hfind)).1
      rw [hsame q hq (by simpa using List.find?_some hfind)]
  · rename_i hnot
    rw [List.find?_eq_none]
    intro q hq hid
    obtain ⟨hq, hcarries⟩ := (hmem q).mp hq
    rw [hsame q hq (of_decide_eq_true hid)] at hcarries
    exact hnot hcarries

theorem sum_carried (f : MediaObject → ℕ) (selected : List MediaObject) :
    ((orderById selected).map fun o => if carriesBytes o then f o else 0).sum =
      ((orderById (selected.filter carriesBytes)).map f).sum := by
  have hfilter : ∀ os : List MediaObject,
      (os.map fun o => if carriesBytes o then f o else 0).sum =
        ((os.filter carriesBytes).map f).sum := by
    intro os
    induction os with
    | nil => rfl
    | cons o os ih =>
      rw [List.map_cons, List.sum_cons, ih]
      cases hc : carriesBytes o with
      | false => simp [hc]
      | true => simp [hc]
  calc ((orderById selected).map fun o => if carriesBytes o then f o else 0).sum
      = (selected.map fun o => if carriesBytes o then f o else 0).sum :=
        ((orderById_perm selected).map _).sum_eq
    _ = ((selected.filter carriesBytes).map f).sum := hfilter selected
    _ = ((orderById (selected.filter carriesBytes)).map f).sum :=
        ((orderById_perm _).map f).sum_eq.symm

end Payload

/-! ### The round trip -/

/-- Every object of the payload comes back. -/
def ArchiveRoundTrips (db : Database) (user : UserModel) (db' : Database) (importer : UserModel)
    (payload : ExportArchiveJobPayload) : Prop :=
  ∀ e ∈ payload.objects, ∃ o ∈ db.objects, o.id = e.objectId ∧ ComesBack db user db' importer o

/-- A scope that uses nothing has room for the objects of a payload. -/
structure QuotasSuffice (settings : Settings) (st : Storage)
    (payload : ExportArchiveJobPayload) : Prop where
  bytes : ∀ q, settings.mediaDefaultQuotaBytes = some q →
    (payload.objects.map fun e => ((st.content e.source).getD []).length).sum ≤ q
  objects : ∀ q, settings.mediaDefaultQuotaObjects = some q → payload.objects.length ≤ q

theorem QuotasSuffice.roomFor {settings : Settings} {st : Storage}
    {payload : ExportArchiveJobPayload} (h : QuotasSuffice settings st payload) (scope : Scope) :
    RoomFor settings ∅ scope
      (payload.objects.map fun e => ((st.content e.source).getD []).length).sum
      payload.objects.length := by
  constructor
  · rw [Table.find_empty, usageTotals_empty, effectiveQuotaBytes, Option.bind_none]
    cases hq : settings.mediaDefaultQuotaBytes with
    | none => rfl
    | some q =>
      have hle := h.bytes q hq
      simp only [exceeds, Option.map_some, decide_eq_false_iff_not, not_lt]
      omega
  · rw [Table.find_empty, usageTotals_empty, effectiveQuotaObjects, Option.bind_none]
    cases hq : settings.mediaDefaultQuotaObjects with
    | none => rfl
    | some q =>
      have hle := h.objects q hq
      simp only [exceeds, Option.map_some, decide_eq_false_iff_not, not_lt]
      omega

/-- Each object whose bytes are in the archive comes back exactly if it could be uploaded
as it is, and its row is in time. -/
theorem comesBack_importController (hnames : NameLaws env) (hdecimal : DecimalAscii env)
    {b : Backend} (hdeclared : ∀ o ∈ b.db.objects, o.Declared env) {params : ObjectListParams}
    {selected : List MediaObject} (hquery : queryObjects b.db (some user) params = .ok selected)
    {payload : ExportArchiveJobPayload}
    (hobjects : payload.manifest.objects = (orderById selected).map (objectEntry b.db user))
    (hpayload : payload.objects = (orderById (selected.filter carriesBytes)).map archiveEntry)
    {lib : DocumentLibrary} {infolist : List ZipInfo}
    (hpacks : Packs lib b.storage payload infolist)
    {source : List Bytes} {document : ImportManifest}
    (hread : readUpload env.settings lib .archive source = .ok (.archive document infolist))
    (hpass : DocumentPasses env (.archive document infolist))
    (hquota : QuotasSuffice env.settings b.storage payload)
    {ctx : ℕ → RowContext} (hfaults : ∀ i, (ctx i).faults = Faults.none) (importer : UserModel)
    (categorySeq : ℤ) (st : Storage) {i : ℕ} {o : MediaObject} {data : Bytes}
    (hi : (orderById selected)[i]? = some o) (hcarries : carriesBytes o = true)
    (hdata : b.storage.content o.location = some data) :
    ComesBack b.db user
        (importController env lib ⟨.noRows categorySeq, st⟩ ctx importer .archive source).1.db
        importer o ↔
      Reproducible env b.db user data o ∧ ¬ (ctx i).Late env := by
  have hselected : ∀ o ∈ selected, o ∈ b.db.objects := fun o ho =>
    ((mem_queryObjects hquery).mp ho).1
  have hnodup := nodup_ids_queryObjects hquery
  have hparse := hpacks.parses hdecimal hpayload hread
  have hentries := imported_of_parse hparse
  rw [hobjects, List.forall₂_map_left_iff] at hentries
  have hordered : ∀ {o}, o ∈ orderById selected ↔ o ∈ selected := (orderById_perm selected).mem_iff
  have hcarried : ∀ {o}, o ∈ orderById (selected.filter carriesBytes) ↔
      o ∈ selected ∧ carriesBytes o = true := by
    intro o
    rw [(orderById_perm _).mem_iff, List.mem_filter]
  have hids : (document.objects.map ImportObjectEntry.id).Nodup := by
    rw [ids_of_imported hentries, ((orderById_perm selected).map MediaObject.id).nodup_iff]
    exact hnodup
  have hpackedIds : ((orderById (selected.filter carriesBytes)).map MediaObject.id).Nodup := by
    rw [((orderById_perm _).map MediaObject.id).nodup_iff]
    exact hnodup.sublist (List.filter_sublist.map _)
  have hfile : ∀ o ∈ orderById selected, ∀ entry, (objectEntry b.db user o).imported = some entry →
      fileEntry env infolist entry.id =
        if carriesBytes o then some (packedObject b.storage (archiveEntry o)) else none := by
    intro o ho entry hentry
    rw [hpacks.fileEntry_eq hdecimal hpayload hpackedIds, (of_imported_objectEntry hentry).1,
      find_carried hnodup (hordered.mp ho)]
    cases carriesBytes o <;> rfl
  have hstored : ∀ o ∈ selected, carriesBytes o = true →
      ∃ data, b.storage.content o.location = some data := fun o ho hc =>
    Option.isSome_iff_exists.mp (hpacks.stored (archiveEntry o)
      (hpayload ▸ List.mem_map_of_mem (hcarried.mpr ⟨ho, hc⟩)))
  have hentry : ∀ entry ∈ document.objects, ∃ o ∈ orderById selected,
      (objectEntry b.db user o).imported = some entry := fun entry he =>
    exists_of_forall₂ hentries.flip he
  have hrowsDeclared : ∀ entry ∈ document.objects, entry.Declared env := by
    intro entry he
    obtain ⟨q, hq, himported⟩ := hentry entry he
    obtain ⟨hfilename, -, -, hmime, -⟩ := fields_of_imported himported
    obtain ⟨hname, hallowed⟩ := hdeclared q (hselected q (hordered.mp hq))
    exact ⟨fun f hf => hname f (hfilename ▸ hf), hmime ▸ hallowed⟩
  have hreads : ∀ entry ∈ document.objects, ReadsWhole env infolist entry := by
    intro entry he info hinfo
    obtain ⟨q, hq, himported⟩ := hentry entry he
    rw [hfile q hq entry himported] at hinfo
    split at hinfo
    · rename_i hc
      obtain ⟨content, hcontent⟩ := hstored q (hordered.mp hq) hc
      cases hinfo
      refine ⟨content, hcontent, ?_⟩
      rw [show (packedObject b.storage (archiveEntry q)).fileSize =
        ((b.storage.content q.location).getD []).length from rfl, hcontent, Option.getD_some]
    · cases hinfo
  have hroom : RoomFor env.settings ∅ ⟨importer.id, importer.tenantId⟩
      (document.objects.map (entryBytes env infolist)).sum
      (document.objects.map (entryCount env infolist)).sum := by
    have hbytes : (document.objects.map (entryBytes env infolist)).sum =
        (payload.objects.map fun e => ((b.storage.content e.source).getD []).length).sum := by
      rw [map_eq_of_forall₂ (f := fun q => if carriesBytes q then
          ((b.storage.content q.location).getD []).length else 0) hentries, sum_carried, hpayload,
        List.map_map]
      · rfl
      · intro q hq entry himported
        rw [entryBytes, hfile q hq entry himported]
        cases carriesBytes q <;> rfl
    have hcount : (document.objects.map (entryCount env infolist)).sum =
        payload.objects.length := by
      rw [map_eq_of_forall₂ (f := fun q => if carriesBytes q then 1 else 0) hentries,
        sum_carried (fun _ => 1), hpayload, List.length_map, List.map_const',
        List.sum_replicate_nat, mul_one]
      intro q hq entry himported
      rw [entryCount, hfile q hq entry himported]
      cases carriesBytes q <;> rfl
    rw [hbytes, hcount]
    exact hquota.roomFor _
  obtain ⟨tree, b', outcome, hrun, hstands, hpaths⟩ := runImport_noRows hnames hparse hpass
    hrowsDeclared hreads hids hroom hfaults categorySeq st
  have hresult : (importController env lib ⟨.noRows categorySeq, st⟩ ctx importer .archive
      source).1 = b' := by
    unfold importController
    rw [hread]
    dsimp only
    rw [hrun]
  have ho := List.mem_of_getElem? hi
  obtain ⟨entry, hn, himported⟩ := exists_getElem_of_forall₂ hentries hi
  have hinfo := hfile o ho entry himported
  rw [if_pos hcarries] at hinfo
  obtain ⟨categories, hcat, hstands⟩ := hstands i entry hn _ data hinfo hdata
  rw [hresult]
  refine comesBack_iff himported hstands fun hlinks => ?_
  rw [← (of_imported_objectEntry himported).1]
  exact hpaths entry categories entry.id hcat hlinks

/-- An archive whose document is accepted, imported into a service without rows that has
room for it and in which nothing fails, brings every object of the payload back if and
only if each could be uploaded as it is, and no completion comes after its session has
expired. -/
theorem archive_roundTrips_iff (hnames : NameLaws env) (hdecimal : DecimalAscii env)
    (rs : List Request) {now : Timestamp} {jobId : UUID} {filters : Option ObjectListParams}
    {payload : ExportArchiveJobPayload}
    (hstart : startArchiveExport env (run (serve env) World.initial rs).backend.db now jobId user
      filters = .ok (db', payload)) {lib : DocumentLibrary} {infolist : List ZipInfo}
    (hpacks : Packs lib (run (serve env) World.initial rs).backend.storage payload infolist)
    {source : List Bytes} {document : ImportManifest}
    (hread : readUpload env.settings lib .archive source = .ok (.archive document infolist))
    (hpass : DocumentPasses env (.archive document infolist))
    (hquota : QuotasSuffice env.settings (run (serve env) World.initial rs).backend.storage payload)
    {ctx : ℕ → RowContext} (hfaults : ∀ i, (ctx i).faults = Faults.none) (importer : UserModel)
    (categorySeq : ℤ) (st : Storage) :
    ArchiveRoundTrips (run (serve env) World.initial rs).backend.db user
        (importController env lib ⟨.noRows categorySeq, st⟩ ctx importer .archive source).1.db
        importer payload ↔
      ∀ i o, o ∈ (run (serve env) World.initial rs).backend.db.objects →
        payload.manifest.objects[i]? =
          some (objectEntry (run (serve env) World.initial rs).backend.db user o) →
        archiveEntry o ∈ payload.objects → ∀ data,
        (run (serve env) World.initial rs).backend.storage.content o.location = some data →
        Reproducible env (run (serve env) World.initial rs).backend.db user data o ∧
          ¬ (ctx i).Late env := by
  have hdeclared := (declaredRows_run env rs).objects
  generalize (run (serve env) World.initial rs).backend = b at *
  obtain ⟨selected, manifest, t, hquery, hmanifest, -, -, rfl, -, -⟩ :=
    startArchiveExport_payload hstart
  have hobjects : manifest.objects = (orderById selected).map (objectEntry b.db user) :=
    buildManifest_ok hmanifest hquery
  have hselected : ∀ {o}, o ∈ orderById selected → o ∈ b.db.objects := fun ho =>
    ((mem_queryObjects hquery).mp ((orderById_perm selected).mem_iff.mp ho)).1
  have hcarried : ∀ {o}, o ∈ orderById (selected.filter carriesBytes) ↔
      o ∈ orderById selected ∧ carriesBytes o = true := by
    intro o
    rw [(orderById_perm _).mem_iff, List.mem_filter, (orderById_perm selected).mem_iff]
  have hobject := @comesBack_importController env user hnames hdecimal b hdeclared _ selected hquery
    _ hobjects rfl lib infolist hpacks source document hread hpass hquota ctx hfaults importer
    categorySeq st
  have hstored : ∀ o ∈ orderById (selected.filter carriesBytes),
      ∃ data, b.storage.content o.location = some data := fun o ho =>
    Option.isSome_iff_exists.mp (hpacks.stored (archiveEntry o) (List.mem_map_of_mem ho))
  constructor
  · intro hround i o ho hi hpacked data hdata
    rw [hobjects, List.getElem?_map] at hi
    obtain ⟨q, hq, hentry⟩ := Option.map_eq_some_iff.mp hi
    obtain rfl : q = o := Table.eq_of_key_eq (hselected (List.mem_of_getElem? hq)) ho
      (congrArg ManifestObjectEntry.id hentry)
    obtain ⟨p, hp, he⟩ := List.mem_map.mp hpacked
    obtain rfl : p = q := Table.eq_of_key_eq (hselected (hcarried.mp hp).1) ho
      (congrArg ExportArchiveEntry.objectId he)
    obtain ⟨r, hr, hid, hback⟩ := hround _ hpacked
    obtain rfl : r = p := Table.eq_of_key_eq hr ho hid
    exact (hobject hq (hcarried.mp hp).2 hdata).mp hback
  · intro hall e he
    obtain ⟨o, ho, rfl⟩ := List.mem_map.mp he
    obtain ⟨hmem, hcarries⟩ := hcarried.mp ho
    obtain ⟨i, hi⟩ := List.mem_iff_getElem?.mp hmem
    obtain ⟨data, hdata⟩ := hstored o ho
    refine ⟨o, hselected hmem, rfl, (hobject hi hcarries hdata).mpr ?_⟩
    refine hall i o (hselected hmem) ?_ he data hdata
    rw [hobjects, List.getElem?_map, hi]
    rfl

/-! ### Sample runs -/

theorem nameLaws_ascii (settings : Settings) (slugify : String → String) :
    NameLaws { Env.ascii settings with slugify := slugify } where
  nfc_infix _ _ _ := rfl
  nfc_ascii _ _ := rfl
  printable c hlow hhigh := by
    simp only [Env.ascii, decide_eq_false_iff_not]
    omega

/-- The payload of an unfiltered export of the first user's. -/
def exportedPayload (env : Env) (b : Backend) : ExportArchiveJobPayload :=
  match startArchiveExport env b.db 1 ⟨3⟩ (.ordinary 1) none with
  | .ok (_, payload) => payload
  | .error _ => ⟨⟨3⟩, ⟨[], []⟩, [], ⟨"", ""⟩⟩

theorem exportedPayload_ok (env : Env) (b : Backend)
    (h : (startArchiveExport env b.db 1 ⟨3⟩ (.ordinary 1) none).toOption.isSome = true) :
    ∃ db, startArchiveExport env b.db 1 ⟨3⟩ (.ordinary 1) none =
      .ok (db, exportedPayload env b) := by
  unfold exportedPayload
  generalize startArchiveExport env b.db 1 ⟨3⟩ (.ordinary 1) none = r at h ⊢
  cases r with
  | error e => cases h
  | ok res => exact ⟨res.1, rfl⟩

/-- The text of a payload's manifest, in ASCII. -/
def manifestText (payload : ExportArchiveJobPayload) : Bytes :=
  (Json.dumps (payload.manifest.json ModelLibrary.plain)).map fun c => .ofNat c.toNat

def packedEntries (st : Storage) (payload : ExportArchiveJobPayload) : List ZipInfo :=
  packedManifest (manifestText payload) :: payload.objects.map (packedObject st)

/-- Reads that text, and opens every upload as the archive of the payload. -/
def DocumentLibrary.packed (st : Storage) (payload : ExportArchiveJobPayload) :
    DocumentLibrary where
  toModelLibrary := ModelLibrary.plain
  json raw :=
    if raw = manifestText payload then some (payload.manifest.json ModelLibrary.plain) else none
  zipFile _ := .infolist (packedEntries st payload)

theorem packs_packed {st : Storage} {payload : ExportArchiveJobPayload}
    (hstored : ∀ e ∈ payload.objects, (st.content e.source).isSome) :
    Packs (.packed st payload) st payload (packedEntries st payload) where
  entries := ⟨manifestText payload, if_pos rfl, .refl _⟩
  stored := hstored

/-- The document an import reads out of it. -/
def packedDocument (env : Env) (st : Storage) (payload : ExportArchiveJobPayload) :
    ImportManifest :=
  match readUpload env.settings (.packed st payload) .archive [[0]] with
  | .ok source => source.document
  | .error _ => ⟨[], []⟩

theorem readUpload_packed (env : Env) (st : Storage) (payload : ExportArchiveJobPayload)
    (h : (readUpload env.settings (.packed st payload) .archive [[0]]).toOption.isSome = true) :
    readUpload env.settings (.packed st payload) .archive [[0]] =
      .ok (.archive (packedDocument env st payload) (packedEntries st payload)) := by
  unfold packedDocument
  cases hread : readUpload env.settings (.packed st payload) .archive [[0]] with
  | error e =>
    rw [hread] at h
    cases h
  | ok document =>
    unfold readUpload at hread
    dsimp only [DocumentLibrary.packed] at hread
    split at hread
    · cases hread
    · split at hread
      · cases hread
      · cases hread
        rfl

/-- An upload in a category, found clean. -/
def keptFiling : Backend :=
  (run (serve Env.slugging) World.initial
    (filedUpload none ++ [.scanResult 0 ⟨2⟩ .clean])).backend

theorem archive_roundTrips_keptFiling :
    ArchiveRoundTrips keptFiling.db (.ordinary 1)
      (importController Env.slugging
        (.packed keptFiling.storage (exportedPayload Env.slugging keptFiling))
        ⟨.noRows 0, Table.empty⟩ rowContexts (.ordinary 5) .archive [[0]]).1.db (.ordinary 5)
      (exportedPayload Env.slugging keptFiling) := by
  obtain ⟨db, hstart⟩ := exportedPayload_ok Env.slugging keptFiling (by decide +kernel)
  have hread := readUpload_packed Env.slugging keptFiling.storage
    (exportedPayload Env.slugging keptFiling) (by decide +kernel)
  have hrow : ∀ o ∈ keptFiling.db.objects, o.id = ⟨2⟩ ∧ o.sizeBytes = 4 ∧ o.sha256 = none ∧
      o.category = .asset ∧ o.mimeType = "image/png" ∧
      keptFiling.storage.content o.location = some pngSignature ∧
      filingPaths keptFiling.db (.ordinary 1) o.id = ["my-work"] := by
    decide +kernel
  have hnames : NameLaws Env.slugging := nameLaws_ascii Settings.default _
  have hiff := @archive_roundTrips_iff Env.slugging (.ordinary 1) db hnames decimalAscii_slugging
    (filedUpload none ++ [.scanResult 0 ⟨2⟩ .clean])
  rw [show (run (serve Env.slugging) World.initial (filedUpload none ++
    [.scanResult 0 ⟨2⟩ .clean])).backend = keptFiling from rfl] at hiff
  refine (hiff hstart (packs_packed (by decide +kernel)) hread ⟨by decide +kernel, ?_⟩
    ⟨nofun, nofun⟩ (fun _ => rfl) (.ordinary 5) 0 Table.empty).mpr
      fun i o ho _ _ data hdata => ?_
  · have hchains : (manifestChains Env.slugging (packedDocument Env.slugging keptFiling.storage
        (exportedPayload Env.slugging keptFiling))).toOption.map List.length = some 1 := by
      decide +kernel
    cases hres : manifestChains Env.slugging (packedDocument Env.slugging keptFiling.storage
        (exportedPayload Env.slugging keptFiling)) with
    | error e =>
      rw [hres] at hchains
      cases hchains
    | ok chains =>
      rw [hres] at hchains
      have hone : chains.length = 1 := Option.some.inj hchains
      refine ⟨chains, hres, ?_⟩
      rw [hone]
      decide
  · obtain ⟨hid, hsize, hsha256, hcategory, hmime, hcontent, hpaths⟩ := hrow o ho
    obtain rfl := Option.some.inj (hcontent.symm.trans hdata)
    refine ⟨⟨by rw [hsize]; rfl, by omega, ?_, ?_, fun s hs => ?_, fun path => ?_⟩,
      late_rowContexts i⟩
    · rw [hsize, hcategory]
      decide
    · rw [hmime]
      decide
    · cases hsha256.symm.trans hs
    · rw [hpaths]
      simp only [List.mem_singleton, exists_eq_left]
      have hchain : pathChain Env.slugging "my-work" = .ok [("my-work", "my-work")] := by
        decide +kernel
      constructor
      · rintro rfl
        exact ⟨_, hchain, rfl⟩
      · rintro ⟨chain, hchain', rfl⟩
        cases hchain.symm.trans hchain'
        rfl

/-- A picture of four bytes, found clean and then made an avatar. -/
def cleanAvatar : Backend :=
  let update : MediaObjectUpdate := ⟨none, none, some (some .avatar), none⟩
  (run (serve Env.smallAvatars) World.initial
    (cleanUploadRequests Env.smallAvatars 0 ⟨2⟩ (.ordinary 1) .private pngSignature ++
      [.update Faults.none false 1 (.ordinary 1) ⟨2⟩ update])).backend

/-- It is exported, and the archive is accepted, but its row of the import is refused: as
an avatar it may have one byte. -/
theorem not_archive_roundTrips :
    ∃ db document infolist,
      startArchiveExport Env.smallAvatars cleanAvatar.db 1 ⟨3⟩ (.ordinary 1) none =
        .ok (db, exportedPayload Env.smallAvatars cleanAvatar) ∧
      Packs (.packed cleanAvatar.storage (exportedPayload Env.smallAvatars cleanAvatar))
        cleanAvatar.storage (exportedPayload Env.smallAvatars cleanAvatar) infolist ∧
      readUpload Env.smallAvatars.settings
        (.packed cleanAvatar.storage (exportedPayload Env.smallAvatars cleanAvatar)) .archive
        [[0]] = .ok (.archive document infolist) ∧
      DocumentPasses Env.smallAvatars (.archive document infolist) ∧
      QuotasSuffice Env.smallAvatars.settings cleanAvatar.storage
        (exportedPayload Env.smallAvatars cleanAvatar) ∧
      (∀ i, (rowContexts i).faults = Faults.none) ∧
      ¬ ArchiveRoundTrips cleanAvatar.db (.ordinary 1)
        (importController Env.smallAvatars
          (.packed cleanAvatar.storage (exportedPayload Env.smallAvatars cleanAvatar))
          ⟨.noRows 0, Table.empty⟩ rowContexts (.ordinary 5) .archive [[0]]).1.db (.ordinary 5)
        (exportedPayload Env.smallAvatars cleanAvatar) := by
  obtain ⟨db, hstart⟩ := exportedPayload_ok Env.smallAvatars cleanAvatar (by decide +kernel)
  have hread := readUpload_packed Env.smallAvatars cleanAvatar.storage
    (exportedPayload Env.smallAvatars cleanAvatar) (by decide +kernel)
  refine ⟨db, _, _, hstart, packs_packed (by decide +kernel), hread,
    ⟨by decide +kernel, [], ?_, ?_⟩,
    ⟨nofun, nofun⟩, fun _ => rfl, fun h => ?_⟩
  · decide +kernel
  · decide
  · have hpacked : ∃ e ∈ (exportedPayload Env.smallAvatars cleanAvatar).objects,
        e.objectId = ⟨2⟩ := by decide +kernel
    have hnone : ∀ o ∈ (importController Env.smallAvatars
        (.packed cleanAvatar.storage (exportedPayload Env.smallAvatars cleanAvatar))
        ⟨.noRows 0, Table.empty⟩ rowContexts (.ordinary 5) .archive [[0]]).1.db.objects,
        o.id ≠ ⟨2⟩ := by decide +kernel
    obtain ⟨e, he, hid⟩ := hpacked
    obtain ⟨o, -, ho, ⟨q, hq, hqid, -⟩, -⟩ := h e he
    exact hnone q hq (hqid.trans (ho.trans hid))

end MediaService
