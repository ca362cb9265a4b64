import MediaService.Controllers.ImportUpload
import MediaService.Invariants.ImportRows

/-! Refusals of a document come first. What refuses one runs before the first write:
reading it does not touch the service at all, its paths are checked before the first
category is created, and what passed there passes again wherever a row is filed or
reported. -/

namespace MediaService

open Foundation

variable {env : Env} {user : UserModel}

def NeverRefuses {α : Type} (x : Except Failure α) : Prop := ∀ refusal, x ≠ .error (.http refusal)

/-! ### The tree -/

theorem neverRefuses_insertCategory (db : Database) (name slug : String) (parentId : Option ℤ)
    (ownerId : UUID) (tenantId : Option UUID) :
    NeverRefuses (insertCategory db name slug parentId ownerId tenantId) := by
  intro refusal h
  unfold insertCategory at h
  dsimp only at h
  split at h
  · cases h
  · split at h <;> cases h

theorem neverRefuses_ensureLevels (segments : List (String × String)) (db : Database)
    (parent : Option Category) (n : ℕ) :
    NeverRefuses (ensureLevels user db parent n segments).2 := by
  induction segments generalizing db parent n with
  | nil => exact nofun
  | cons segment segments ih =>
    obtain ⟨name, slug⟩ := segment
    intro refusal h
    rw [ensureLevels] at h
    split at h
    · rename_i e he
      cases h
      unfold ensureLevel at he
      split at he
      · cases he
      · split at he
        · rename_i hinsert
          cases he
          exact neverRefuses_insertCategory _ _ _ _ _ _ refusal hinsert
        · cases he
    · exact ih _ _ _ refusal h

theorem neverRefuses_ensureChains (chains : List (String × CategoryChain)) (db : Database)
    (tree : RecreatedTree) : NeverRefuses (ensureChains user db tree chains).2 := by
  induction chains generalizing db tree with
  | nil => exact nofun
  | cons p chains ih =>
    obtain ⟨key, chain⟩ := p
    intro refusal h
    rw [ensureChains] at h
    split at h
    · rename_i e he
      cases h
      unfold ensureCategoryPath at he
      split at he
      · rename_i hlevels
        cases he
        exact neverRefuses_ensureLevels chain db none 0 refusal (congrArg Prod.snd hlevels)
      · cases he
      · cases he
    · exact ih _ _ refusal h

/-- A refusal of the tree is one of the document's paths, before any of them is resolved. -/
theorem recreateTree_refused {manifest : ImportManifest} {db : Database} {refusal : HTTPException}
    (h : (recreateTree env db user manifest).2 = .error (.http refusal)) :
    (recreateTree env db user manifest).1 = db := by
  unfold recreateTree at h ⊢
  split
  · rfl
  · rename_i hchains
    simp only [hchains] at h
    split
    · rfl
    · rename_i hle
      rw [if_neg hle] at h
      exact absurd h (neverRefuses_ensureChains _ _ _ refusal)

/-! ### The rows -/

theorem neverRefuses_importManifestEntry (b : Backend) (ctx : RowContext)
    (entry : ImportObjectEntry) (categories : List Category) (paths : List String) :
    NeverRefuses (importManifestEntry b ctx user entry categories paths).2 := by
  obtain ⟨res, hres, -⟩ := importManifestEntry_ok b ctx user entry categories paths
  intro refusal h
  rw [hres] at h
  cases h

theorem neverRefuses_recordAndComplete (b : Backend) (ctx : RowContext)
    (entry : ImportObjectEntry) (staged : StagedUpload) (req : UploadInitiateRequest)
    (categories : List Category) (paths : List String) :
    NeverRefuses (recordAndComplete env b ctx user entry staged req categories paths).2 := by
  intro refusal h
  unfold recordAndComplete recordUploadSession at h
  dsimp only at h
  split at h
  · rename_i hrecord
    cases h
    unfold Database.insertSession at hrecord
    split at hrecord
    · cases hrecord
    · split at hrecord <;> cases hrecord
  · split at h
    · cases h
    · cases h
    · rename_i hne _
      cases h
      exact hne refusal rfl

theorem neverRefuses_importOneFile (b : Backend) (ctx : RowContext) (info : Option ZipInfo)
    (entry : ImportObjectEntry) (categories : List Category) (paths : List String) :
    NeverRefuses (importOneFile env b ctx user info entry categories paths).2 := by
  intro refusal h
  rcases importOneFile_cases env b ctx user info entry categories paths with
    ⟨_, _, _, he⟩ | ⟨e, hother, he⟩ | ⟨o, -, he⟩ |
      ⟨_, req, staged, -, -, -, ⟨_, _, _, he⟩ | ⟨_, st, -, he⟩⟩
  · rw [he] at h
    cases h
  · rw [he] at h
    cases h
    exact hother refusal rfl
  · rw [he] at h
    cases h
  · rw [he] at h
    cases h
  · rw [he] at h
    exact neverRefuses_recordAndComplete _ _ _ _ _ _ _ refusal h

/-- Rows whose entries find their categories refuse nothing. -/
theorem neverRefuses_importRows {tree : RecreatedTree} {ctx : ℕ → RowContext} {row : ImportRow}
    (hrow : ∀ b ctx entry categories paths, NeverRefuses (row b ctx entry categories paths).2)
    {entries : List ImportObjectEntry}
    (hentries : ∀ entry ∈ entries, (∃ categories, categoriesFor env tree entry = .ok categories) ∧
      ∃ paths, entryPaths env entry = .ok paths) (i : ℕ) (b : Backend) :
    NeverRefuses (importRows env tree ctx row i b entries).2 := by
  induction entries generalizing i b with
  | nil => exact nofun
  | cons entry entries ih =>
    obtain ⟨⟨categories, hcategories⟩, paths, hpaths⟩ := hentries entry List.mem_cons_self
    intro refusal h
    rw [importRows, hcategories, hpaths] at h
    dsimp only at h
    split at h
    · rename_i hr
      cases h
      exact hrow b (ctx i) entry categories paths refusal (congrArg Prod.snd hr)
    · split at h
      · rename_i hrest
        cases h
        exact ih (fun e he => hentries e (List.mem_cons_of_mem entry he)) _ _ refusal
          (congrArg Prod.snd hrest)
      · cases h

/-! ### The run -/

theorem importDocument_refused {ctx : ℕ → RowContext} {row : ImportRow}
    (hrow : ∀ b ctx entry categories paths, NeverRefuses (row b ctx entry categories paths).2)
    {b : Backend} {format : ImportFormat} {manifest : ImportManifest} {refusal : HTTPException}
    (h : (importDocument env b ctx user format manifest row).2 = .error (.http refusal)) :
    (importDocument env b ctx user format manifest row).1 = b := by
  unfold importDocument at h ⊢
  generalize htree : recreateTree env b.db user manifest = r at h ⊢
  obtain ⟨db, tree | tree⟩ := r
  · dsimp only at h
    cases h
    have hdb := recreateTree_refused (congrArg Prod.snd htree)
    rw [htree] at hdb
    dsimp only at hdb ⊢
    rw [hdb]
  · dsimp only at h
    split at h
    · rename_i hrows
      cases h
      exact absurd (congrArg Prod.snd hrows)
        (neverRefuses_importRows hrow (entry_of_recreateTree htree) _ _ refusal)
    · cases h

theorem runImport_refused {ctx : ℕ → RowContext} {b : Backend} {source : ImportSource}
    {refusal : HTTPException}
    (h : (runImport env b ctx user source).2 = .error (.http refusal)) :
    (runImport env b ctx user source).1 = b := by
  unfold runImport at h ⊢
  cases source with
  | manifest manifest =>
    exact importDocument_refused (fun b ctx => neverRefuses_importManifestEntry b ctx) h
  | archive manifest infolist =>
    dsimp only at h ⊢
    split
    · rfl
    · rename_i hceilings
      rw [hceilings] at h
      exact importDocument_refused
        (fun b ctx entry categories paths => neverRefuses_importOneFile b ctx _ entry _ _) h

/-- A refused document leaves the service as it was. Once the tree has its first
category, the rest of it is not refused, and then no entry is refused its paths or
misses a category of the tree. -/
theorem importController_refusesFirst (env : Env) (lib : DocumentLibrary) (b : Backend)
    (ctx : ℕ → RowContext) (user : UserModel) (format : ImportFormat) (source : List Bytes) :
    (∀ refusal, (importController env lib b ctx user format source).2 =
        .error (.failure (.http refusal)) →
      (importController env lib b ctx user format source).1 = b) ∧
    ∀ document, readUpload env.settings lib format source = .ok document →
      (recreateTree env b.db user document.document).1 ≠ b.db →
      (∀ refusal, (recreateTree env b.db user document.document).2 ≠ .error (.http refusal)) ∧
      ∀ tree, (recreateTree env b.db user document.document).2 = .ok tree →
        ∀ entry ∈ document.document.objects,
          (∃ paths, entryPaths env entry = .ok paths) ∧
            ∃ categories, categoriesFor env tree entry = .ok categories := by
  constructor
  · intro refusal h
    unfold importController at h ⊢
    generalize readUpload env.settings lib format source = r at h ⊢
    cases r with
    | error e => rfl
    | ok document =>
      dsimp only at h ⊢
      have hrefused : (runImport env b ctx user document).2 = .error (.http refusal) →
        (runImport env b ctx user document).1 = b := runImport_refused
      refine hrefused ?_
      generalize (runImport env b ctx user document).2 = r at h ⊢
      cases r with
      | error e =>
        cases h
        rfl
      | ok outcome => cases h
  · intro document hread hwritten
    refine ⟨fun refusal h => hwritten (recreateTree_refused h), fun tree htree entry hentry => ?_⟩
    obtain ⟨hcategories, hpaths⟩ := entry_of_recreateTree
      (Prod.ext rfl htree : recreateTree env b.db user document.document = (_, .ok tree))
      entry hentry
    exact ⟨hpaths, hcategories⟩

end MediaService
