import MediaService.Invariants.ImportAgain

/-! The same document imported twice. What a row leaves for itself no other row
takes away, so the second run finds every row as the first run left it: it writes
nothing and reports as linked what was created or linked, unless it meets a session
that the first run let expire, under whose id it cannot record another. -/

namespace MediaService

open Foundation

variable {env : Env} {user : UserModel}

/-! ### The batch -/

section Rows

variable {info : ImportObjectEntry → Option ZipInfo} {row : ImportRow} {tree : RecreatedTree}
  {ctx : ℕ → RowContext}

theorem Visited.mono {info : Option ZipInfo} {entry : ImportObjectEntry}
    {categories : List Category} {late late' : Prop} {db : Database}
    (h : Visited env user info entry categories late db) (hlate : late → late') :
    Visited env user info entry categories late' db :=
  h.imp id fun h => ⟨h.1, fun hr => ⟨hlate (h.2 hr).1, (h.2 hr).2⟩⟩

/-- What a report row says of its entry, given what it left. -/
def Reports (user : UserModel) (db : Database) (entry : ImportObjectEntry)
    (res : ImportObjectResult × Option MediaObject) : Prop :=
  res.1.sourceId = entry.id ∧ (res.1.status = .created ∨ res.1.status = .linked →
    ∃ o, db.objects.find entry.id = some o ∧ Usable user o)

theorem Reports.frame {db db' : Database} {id : UUID} {entry : ImportObjectEntry}
    {res : ImportObjectResult × Option MediaObject} (h : Reports user db entry res)
    (hf : RowFrame env user id db db') (hne : entry.id ≠ id) : Reports user db' entry res := by
  refine ⟨h.1, fun hstatus => ?_⟩
  rw [hf.object _ hne]
  exact h.2 hstatus

/-- What every row of another id keeps, the batch keeps. -/
theorem importRows_keeps (law : RowLaw env user info row)
    (hfaults : ∀ i, (ctx i).faults = Faults.none) {P : Database → Prop}
    {entries : List ImportObjectEntry}
    (hP : ∀ {db db' : Database} {id : UUID}, id ∈ entries.map ImportObjectEntry.id →
      RowFrame env user id db db' → P db → P db') {i : ℕ} {b b' : Backend}
    {results : List (ImportObjectResult × Option MediaObject)}
    (h : importRows env tree ctx row i b entries = (b', .ok results)) (hb : P b.db) : P b'.db := by
  induction entries generalizing i b results with
  | nil =>
    cases h
    exact hb
  | cons entry entries ih =>
    rw [importRows] at h
    split at h
    · split at h
      · cases h
      · rename_i hrow
        have hdone := law.done (hfaults i) hrow
        split at h
        · cases h
        · rename_i hrest
          cases h
          exact ih (fun hid => hP (List.mem_cons_of_mem _ hid)) hrest
            (hP List.mem_cons_self hdone.frame hb)
    · cases h
    · cases h

/-- A batch that is reported: every row has been visited, and reports what stands
at the end. -/
theorem importRows_done (law : RowLaw env user info row)
    (hfaults : ∀ i, (ctx i).faults = Faults.none) {entries : List ImportObjectEntry}
    (hids : (entries.map ImportObjectEntry.id).Nodup) {i : ℕ} {b b' : Backend}
    {results : List (ImportObjectResult × Option MediaObject)}
    (h : importRows env tree ctx row i b entries = (b', .ok results)) :
    (∀ entry ∈ entries, ∃ categories paths, categoriesFor env tree entry = .ok categories ∧
        entryPaths env entry = .ok paths ∧
        Visited env user (info entry) entry categories (∃ j, (ctx j).Late env) b'.db) ∧
      List.Forall₂ (Reports user b'.db) entries results := by
  induction entries generalizing i b results with
  | nil =>
    cases h
    exact ⟨by simp, .nil⟩
  | cons entry entries ih =>
    rw [List.map_cons, List.nodup_cons] at hids
    rw [importRows] at h
    split at h
    · rename_i categories paths hcategories hpaths
      split at h
      · cases h
      · rename_i b₁ res hrow
        have hdone := law.done (hfaults i) hrow
        have hother : ∀ {id}, id ∈ entries.map ImportObjectEntry.id → entry.id ≠ id := by
          rintro id hid rfl
          exact hids.1 hid
        split at h
        · cases h
        · rename_i b₂ rest hrest
          cases h
          obtain ⟨hvisited, hreports⟩ := ih hids.2 hrest
          refine ⟨fun e he => ?_, .cons ?_ hreports⟩
          · rcases List.mem_cons.mp he with rfl | he
            · refine ⟨categories, paths, hcategories, hpaths, ?_⟩
              exact importRows_keeps law hfaults
                (fun hid hf hv => hv.frame hf (hother hid)) hrest
                (hdone.visited.mono fun hlate => ⟨i, hlate⟩)
            · exact hvisited e he
          · exact importRows_keeps (P := fun db => Reports user db entry res) law hfaults
              (fun hid hf hr => hr.frame hf (hother hid)) hrest ⟨hdone.sourceId, hdone.usable⟩
    · cases h
    · cases h

/-- What a visited entry is reported as. -/
def ReportsAgain (user : UserModel) (db : Database) (entry : ImportObjectEntry)
    (res : ImportObjectResult × Option MediaObject) : Prop :=
  res.1.sourceId = entry.id ∧
    ((∃ o, db.objects.find entry.id = some o ∧ Usable user o) → res.1.status = .linked)

variable (tree) in
/-- Where every row has been visited, the batch is reported exactly if none is
stranded, and changes nothing. -/
theorem importRows_again (law : RowLaw env user info row)
    (hfaults : ∀ i, (ctx i).faults = Faults.none) {db : Database} {late : Prop}
    {entries : List ImportObjectEntry}
    (hvisited : ∀ entry ∈ entries, ∃ categories paths,
      categoriesFor env tree entry = .ok categories ∧ entryPaths env entry = .ok paths ∧
        Visited env user (info entry) entry categories late db) (i : ℕ) (st : Storage) :
    ((∃ results, (importRows env tree ctx row i ⟨db, st⟩ entries).2 = .ok results) ↔
        ∀ entry ∈ entries, ∀ categories, categoriesFor env tree entry = .ok categories →
          ¬ Stranded env db user (info entry) entry categories) ∧
      ∀ b' results, importRows env tree ctx row i ⟨db, st⟩ entries = (b', .ok results) →
        b'.db = db ∧ List.Forall₂ (ReportsAgain user db) entries results := by
  induction entries generalizing i st with
  | nil =>
    refine ⟨iff_of_true ⟨[], rfl⟩ (by simp), ?_⟩
    rintro b' results ⟨⟩
    exact ⟨rfl, .nil⟩
  | cons entry entries ih =>
    obtain ⟨categories, paths, hcategories, hpaths, hv⟩ := hvisited entry List.mem_cons_self
    have htail := ih fun e he => hvisited e (List.mem_cons_of_mem entry he)
    rw [importRows, hcategories, hpaths]
    dsimp only
    by_cases hstranded : Stranded env db user (info entry) entry categories
    · obtain ⟨e, he⟩ := law.stranded (b := ⟨db, st⟩) paths (hfaults i) hstranded
      generalize row ⟨db, st⟩ (ctx i) entry categories paths = answer at he ⊢
      obtain ⟨b₁, answer⟩ := answer
      cases he
      refine ⟨iff_of_false (by rintro ⟨results, ⟨⟩⟩) fun h => ?_, by rintro b' results ⟨⟩⟩
      exact h entry List.mem_cons_self categories hcategories hstranded
    · obtain ⟨st₁, res, hrow, hid, hlinked⟩ :=
        law.again (b := ⟨db, st⟩) paths (hfaults i) hv hstranded
      obtain ⟨hiff, hsame⟩ := htail (i + 1) st₁
      rw [hrow]
      dsimp only
      have hrest : (∀ e ∈ entry :: entries, ∀ categories,
            categoriesFor env tree e = .ok categories →
            ¬ Stranded env db user (info e) e categories) ↔
          ∀ e ∈ entries, ∀ categories, categoriesFor env tree e = .ok categories →
            ¬ Stranded env db user (info e) e categories := by
        rw [List.forall_mem_cons, and_iff_right]
        intro categories' hcategories'
        cases hcategories.symm.trans hcategories'
        exact hstranded
      rw [hrest, ← hiff]
      cases hr : importRows env tree ctx row (i + 1) ⟨db, st₁⟩ entries with
      | mk b₂ answer =>
        cases answer with
        | error e =>
          refine ⟨iff_of_false ?_ ?_, by rintro b' results ⟨⟩⟩ <;> rintro ⟨results, ⟨⟩⟩
        | ok results =>
          obtain ⟨hdb, hreports⟩ := hsame b₂ results hr
          refine ⟨iff_of_true ⟨_, rfl⟩ ⟨_, rfl⟩, ?_⟩
          rintro b' results' ⟨⟩
          exact ⟨hdb, .cons ⟨hid, hlinked⟩ hreports⟩

end Rows

/-! ### The document -/

/-- The second report against the first, row by row. -/
def RowConverges (r r' : ImportObjectResult) : Prop :=
  r'.sourceId = r.sourceId ∧ (r.status = .created ∨ r.status = .linked → r'.status = .linked)

theorem rowConverges_of_reports {db : Database} {entries : List ImportObjectEntry}
    {results results' : List (ImportObjectResult × Option MediaObject)}
    (h : List.Forall₂ (Reports user db) entries results)
    (h' : List.Forall₂ (ReportsAgain user db) entries results') :
    List.Forall₂ RowConverges (results.map Prod.fst) (results'.map Prod.fst) := by
  rw [List.forall₂_map_left_iff, List.forall₂_map_right_iff]
  induction h generalizing results' with
  | nil =>
    cases h'
    exact .nil
  | cons hr hrest ih =>
    cases h' with
    | cons hr' hrest' =>
      exact .cons ⟨hr'.1.trans hr.1.symm, fun hstatus => hr'.2 (hr.2 hstatus)⟩ (ih hrest')

variable (env) in
theorem categoriesFor_congr {tree tree' : RecreatedTree} (h : tree'.byPath = tree.byPath)
    (entry : ImportObjectEntry) : categoriesFor env tree' entry = categoriesFor env tree entry := by
  unfold categoriesFor
  rw [h]

/-- The bytes an entry has in what was uploaded. -/
def ImportSource.bytes (env : Env) : ImportSource → ImportObjectEntry → Option ZipInfo
  | .manifest _, _ => none
  | .archive _ infolist, entry => fileEntry env infolist entry.id

/-- A row of the document is stranded, under the categories the tree has for it. -/
def EntryStranded (env : Env) (db : Database) (user : UserModel) (manifest : ImportManifest)
    (info : ImportObjectEntry → Option ZipInfo) (entry : ImportObjectEntry) : Prop :=
  ∃ tree categories, (recreateTree env db user manifest).2 = .ok tree ∧
    categoriesFor env tree entry = .ok categories ∧
    Stranded env db user (info entry) entry categories

/-- A run that is reported, writes nothing to the database, and reports again what
the earlier run reported. -/
def ConvergesTo (x : Backend × Except Failure ImportOutcome) (db : Database)
    (outcome : ImportOutcome) : Prop :=
  ∃ b outcome', x = (b, .ok outcome') ∧ b.db = db ∧ outcome'.report.categoriesCreated = 0 ∧
    List.Forall₂ RowConverges outcome.report.objects outcome'.report.objects

theorem importDocument_again {info : ImportObjectEntry → Option ZipInfo} {row : ImportRow}
    (law : RowLaw env user info row) {ctx ctx' : ℕ → RowContext}
    (hfaults : ∀ i, (ctx i).faults = Faults.none) (hfaults' : ∀ i, (ctx' i).faults = Faults.none)
    {manifest : ImportManifest} (hids : (manifest.objects.map ImportObjectEntry.id).Nodup)
    {b b₁ : Backend} {format : ImportFormat} {outcome : ImportOutcome}
    (h : importDocument env b ctx user format manifest row = (b₁, .ok outcome)) :
    (ConvergesTo (importDocument env b₁ ctx' user format manifest row) b₁.db outcome ↔
        ∀ entry ∈ manifest.objects, ¬ EntryStranded env b₁.db user manifest info entry) ∧
      ((∃ entry ∈ manifest.objects, EntryStranded env b₁.db user manifest info entry) →
        ∃ i, (ctx i).Late env) := by
  unfold importDocument at h
  split at h
  · cases h
  · rename_i db tree htree
    split at h
    · cases h
    · rename_i b₂ results hrows
      cases h
      have hcont : Continues db b₁.db := by
        refine importRows_keeps (P := Continues db) law hfaults (fun _ hf hc => ?_) hrows (.refl db)
        unfold Continues at hc ⊢
        rwa [hf.categories.1]
      obtain ⟨hvisited, hreports⟩ := importRows_done law hfaults hids hrows
      obtain ⟨tree', htree', hbyPath, hcreated⟩ := recreateTree_again htree hcont
      have hfor := categoriesFor_congr env hbyPath
      obtain ⟨hiff, hsame⟩ := importRows_again tree' law hfaults'
        (fun entry hentry => by simpa only [hfor] using hvisited entry hentry) 0 b₁.storage
      have hstranded : (∀ entry ∈ manifest.objects,
            ¬ EntryStranded env b₁.db user manifest info entry) ↔
          ∀ entry ∈ manifest.objects, ∀ categories, categoriesFor env tree' entry = .ok categories →
            ¬ Stranded env b₁.db user (info entry) entry categories := by
        refine forall₂_congr fun entry _ => ⟨fun h categories hc hs => ?_, ?_⟩
        · exact h ⟨tree', categories, by rw [htree'], hc, hs⟩
        · rintro h ⟨tree₂, categories, htree₂, hc, hs⟩
          rw [htree'] at htree₂
          cases htree₂
          exact h categories hc hs
      refine ⟨?_, ?_⟩
      · rw [hstranded, ← hiff]
        unfold ConvergesTo importDocument
        rw [htree']
        dsimp only
        cases hagain : importRows env tree' ctx' row 0 ⟨b₁.db, b₁.storage⟩ manifest.objects with
        | mk b₂ answer =>
          cases answer with
          | error e =>
            refine iff_of_false ?_ ?_
            · rintro ⟨b₃, outcome', ⟨⟩, -⟩
            · rintro ⟨results', ⟨⟩⟩
          | ok results' =>
            obtain ⟨hdb, hreports'⟩ := hsame b₂ results' hagain
            refine iff_of_true ⟨b₂, _, rfl, hdb, hcreated, ?_⟩ ⟨results', rfl⟩
            exact rowConverges_of_reports hreports hreports'
      · rintro ⟨entry, hentry, tree₂, categories, htree₂, hc, hnone, -, hreach⟩
        rw [htree'] at htree₂
        cases htree₂
        obtain ⟨categories', paths, hc', -, hv⟩ := hvisited entry hentry
        rw [hfor] at hc
        cases hc.symm.trans hc'
        rcases hv with ⟨o, ho, -⟩ | ⟨-, hlate⟩
        · cases hnone.symm.trans ho
        · exact (hlate hreach).1

/-- Nothing failing in storage and no id twice, a document that was reported
converges when it is imported again if and only if no row is stranded; and a row is
stranded only if some completion of the first run came after its session's expiry. -/
theorem runImport_again_iff {ctx : ℕ → RowContext} (ctx' : ℕ → RowContext)
    (hfaults : ∀ i, (ctx i).faults = Faults.none) (hfaults' : ∀ i, (ctx' i).faults = Faults.none)
    {source : ImportSource} (hids : (source.document.objects.map ImportObjectEntry.id).Nodup)
    {b b₁ : Backend} {outcome : ImportOutcome}
    (h : runImport env b ctx user source = (b₁, .ok outcome)) :
    (ConvergesTo (runImport env b₁ ctx' user source) b₁.db outcome ↔
        ∀ entry ∈ source.document.objects,
          ¬ EntryStranded env b₁.db user source.document (source.bytes env) entry) ∧
      ((∃ entry ∈ source.document.objects,
          EntryStranded env b₁.db user source.document (source.bytes env) entry) →
        ∃ i, (ctx i).Late env) := by
  cases source with
  | manifest manifest =>
    exact importDocument_again (rowLaw_manifest env user) hfaults hfaults' hids h
  | archive manifest infolist =>
    unfold runImport at h ⊢
    dsimp only at h ⊢
    split at h
    · cases h
    · exact importDocument_again (rowLaw_archive env user infolist) hfaults hfaults' hids h

theorem late_rowContexts (i : ℕ) : ¬ (rowContexts i).Late Env.default := by
  simp only [RowContext.Late, rowContexts, seconds, not_lt, le_add_iff_nonneg_right]
  exact Int.mul_nonneg (Int.natCast_nonneg _) (by decide)

/-- An archive imported into an empty collection, then imported again. -/
theorem runImport_again_pngArchive :
    ∃ b₁ outcome, runImport Env.default World.initial.backend rowContexts (.ordinary 1)
        pngArchive = (b₁, .ok outcome) ∧
      ConvergesTo (runImport Env.default b₁ rowContexts (.ordinary 1) pngArchive) b₁.db
        outcome := by
  have hrows : reportedRows (runImport Env.default World.initial.backend rowContexts (.ordinary 1)
      pngArchive).2 = some [(⟨2⟩, some "a.png")] := by decide +kernel
  cases hres : runImport Env.default World.initial.backend rowContexts (.ordinary 1) pngArchive with
  | mk b₁ answer =>
    rw [hres] at hrows
    cases answer with
    | error e => cases hrows
    | ok outcome =>
      have hiff := runImport_again_iff rowContexts (fun _ => rfl) (fun _ => rfl)
        (by decide) hres
      refine ⟨b₁, outcome, rfl, hiff.1.mpr fun entry hentry hs => ?_⟩
      obtain ⟨i, hlate⟩ := hiff.2 ⟨entry, hentry, hs⟩
      exact late_rowContexts i hlate

/-- The rows of `rowContexts`, each completed a second after its session expired. -/
def lateContexts : ℕ → RowContext := fun i => ⟨Faults.none, 10 + i, 10 + i + seconds 301⟩

/-- The first run reports the row as failed and leaves its session behind; the
second run raises and reports nothing. -/
theorem not_runImport_again :
    (∀ i, (lateContexts i).faults = Faults.none) ∧
      (pngArchive.document.objects.map ImportObjectEntry.id).Nodup ∧
      ∃ b₁ outcome, runImport Env.default World.initial.backend lateContexts (.ordinary 1)
          pngArchive = (b₁, .ok outcome) ∧
        ¬ ConvergesTo (runImport Env.default b₁ rowContexts (.ordinary 1) pngArchive) b₁.db
          outcome := by
  refine ⟨fun _ => rfl, by decide, ?_⟩
  have hrows : reportedRows (runImport Env.default World.initial.backend lateContexts (.ordinary 1)
      pngArchive).2 = some [(⟨2⟩, some "a.png")] := by decide +kernel
  have hagain : reportedRows (runImport Env.default (runImport Env.default World.initial.backend
      lateContexts (.ordinary 1) pngArchive).1 rowContexts (.ordinary 1) pngArchive).2 = none := by
    decide +kernel
  cases hres : runImport Env.default World.initial.backend lateContexts (.ordinary 1)
    pngArchive with
  | mk b₁ answer =>
    rw [hres] at hrows hagain
    cases answer with
    | error e => cases hrows
    | ok outcome =>
      refine ⟨b₁, outcome, rfl, ?_⟩
      rintro ⟨b₂, outcome', hres', -⟩
      rw [hres'] at hagain
      cases hagain

end MediaService
