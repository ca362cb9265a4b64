import MediaService.Invariants.CategoryIsolation
import MediaService.Invariants.ShareLife

/-! The references between tables. Rows of the upload flow, links, jobs and filings name
rows that are there, and the owner that a job or a link repeats is its object's. A purge
takes what refers to an object along with it, and a category goes only with its filings
and without children, so the service never writes what a foreign key would refuse. -/

namespace MediaService

open Foundation

variable {env : Env} {w : World}

/-- Every reference of the schema is to a row that exists. -/
structure ForeignKeys (db : Database) : Prop where
  category_parent : ∀ c ∈ db.categories, ∀ p, c.parentId = some p → ∃ d ∈ db.categories, d.id = p
  link_object : ∀ l ∈ db.links, ∃ o ∈ db.objects, o.id = l.1
  link_category : ∀ l ∈ db.links, ∃ c ∈ db.categories, c.id = l.2
  variant_object : ∀ v ∈ db.variants, ∃ o ∈ db.objects, o.id = v.mediaObjectId
  job_object : ∀ j ∈ db.variantJobs, ∃ o ∈ db.objects, o.id = j.mediaObjectId ∧
    o.scope = ⟨j.ownerUserId, j.tenantId⟩
  share_object : ∀ s ∈ db.shares, ∃ o ∈ db.objects, o.id = s.mediaObjectId ∧
    o.scope = ⟨s.ownerUserId, s.tenantId⟩

theorem foreignKeys_empty : ForeignKeys Database.empty where
  category_parent _ hc := absurd hc (Table.not_mem_empty _)
  link_object _ hl := absurd hl (Finset.notMem_empty _)
  link_category _ hl := absurd hl (Finset.notMem_empty _)
  variant_object _ hv := absurd hv (Table.not_mem_empty _)
  job_object _ hj := absurd hj (Table.not_mem_empty _)
  share_object _ hs := absurd hs (Table.not_mem_empty _)

/-! ### Objects -/

/-- Every object is still there, in the scope it was in. -/
def ObjectsStay (db db' : Database) : Prop :=
  ∀ o ∈ db.objects, ∃ o' ∈ db'.objects, o'.id = o.id ∧ o'.scope = o.scope

theorem ObjectsStay.of_eq {db db' : Database} (h : db'.objects = db.objects) :
    ObjectsStay db db' := fun o ho => ⟨o, h ▸ ho, rfl, rfl⟩

theorem ObjectsStay.trans {db db' db'' : Database} (h : ObjectsStay db db')
    (h' : ObjectsStay db' db'') : ObjectsStay db db'' := by
  intro o ho
  obtain ⟨o', ho', hid, hscope⟩ := h o ho
  obtain ⟨o'', ho'', hid', hscope'⟩ := h' o' ho'
  exact ⟨o'', ho'', hid'.trans hid, hscope'.trans hscope⟩

theorem ObjectsStay.of_insert {db db' : Database} {o : MediaObject}
    (ht : db.objects.insert o = some db'.objects) : ObjectsStay db db' :=
  fun q hq => ⟨q, (Table.mem_insert ht).mpr (.inl hq), rfl, rfl⟩

theorem ObjectsStay.of_update {db db' : Database} {o o' : MediaObject} (ho : o ∈ db.objects)
    (ht : db'.objects = db.objects.update o') (hid : o'.id = o.id) (hscope : o'.scope = o.scope) :
    ObjectsStay db db' := by
  intro q hq
  have hmem := @Table.mem_update _ _ _ _ db.objects o' o (by rw [hid, Table.find_of_mem ho])
  rw [ht]
  by_cases hk : q.id = o'.id
  · obtain rfl := Table.eq_of_key_eq hq ho (hk.trans hid)
    exact ⟨o', hmem.mpr (.inl rfl), hid, hscope⟩
  · exact ⟨q, hmem.mpr (.inr ⟨hq, hk⟩), rfl, rfl⟩

theorem InOwnScope.objectsStay {user : UserModel} {b b' : Backend} (h : InOwnScope user b b') :
    ObjectsStay b.db b'.db := by
  intro o ho
  rcases h.objects o.id o (Table.find_of_mem ho) with hfind | ⟨-, t, hfind⟩
  · exact ⟨o, Table.mem_of_find hfind, rfl, rfl⟩
  · exact ⟨_, Table.mem_of_find hfind, rfl, rfl⟩

theorem objectsStay_completeUpload (b : Backend) (faults : Faults) (now : Timestamp)
    (user : UserModel) (sessionId : UUID) (req : UploadCompleteRequest) :
    ObjectsStay b.db (completeUpload env b faults now user sessionId req).1.db := by
  have hends := ends_completeUpload env b faults now user sessionId req
  generalize completeUpload env b faults now user sessionId req = r at hends ⊢
  cases hends with
  | refused _ _ hdb =>
    rcases hdb with rfl | ⟨s, -, -, -, rfl⟩
    · exact .of_eq rfl
    · exact .of_eq rfl
  | rejected _ _ _ ht => exact .of_insert ht
  | promoted _ _ _ _ _ _ ht => exact .of_insert ht

/-- Only a hard purge takes objects away. -/
theorem objectsStay_answer (env : Env) (w : World) {r : Request}
    (hr : ∀ faults now olderThan limit, r ≠ .hardPurge faults now olderThan limit) :
    ObjectsStay w.backend.db (answer env w r).db := by
  cases r with
  | complete faults now user sessionId body =>
    exact objectsStay_completeUpload _ faults now user sessionId body
  | update faults commitFails now user objectId body =>
    simp only [answer]
    rcases updateObject_cases env w.backend faults commitFails now user objectId body with
      ⟨e, st, he, -⟩ | ⟨u, o, st, bucket, categories, db', o', -, hload, -, -, hpatch, he⟩
    · rw [he]
      exact .of_eq rfl
    · rw [he]
      obtain ⟨⟨v, c, -, ho'⟩, links, rfl⟩ := patchedDatabase_ok hpatch
      exact .of_update (loadObject_ok hload).1 rfl (by rw [ho']) (by rw [ho']; rfl)
  | delete faults commitFails now user objectId =>
    simp only [answer]
    rcases deleteObject_cases env w.backend faults commitFails now user objectId with
      he | ⟨o, st, bucket, hload, -, -, ⟨e, he⟩ | ⟨db', -, hcommit, he⟩⟩
    · rw [he]
      exact .of_eq rfl
    · rw [he]
      exact .of_eq rfl
    · rw [he]
      obtain ⟨outbox, rfl⟩ := softDeletedDatabase_ok hcommit
      exact .of_update (loadObject_ok hload).1 rfl rfl rfl
  | scanResult now objectId scanStatus =>
    simp only [answer]
    cases h : applyScanResult w.backend.db now objectId scanStatus with
    | error e => exact .of_eq rfl
    | ok res =>
      obtain ⟨o, ho, -, hjudged, outbox, hdb⟩ := applyScanResult_ok h
      have hobjects := congrArg Database.objects hdb
      rcases hjudged with ⟨-, ho'⟩ | ⟨-, ho'⟩
      · exact .of_update ho hobjects (by rw [ho']) (by rw [ho']; rfl)
      · exact .of_update ho hobjects (by rw [ho']) (by rw [ho']; rfl)
  | hardPurge faults now olderThan limit => exact absurd rfl (hr faults now olderThan limit)
  | importCollection ctx user source =>
    exact (inOwnScope_runImport env w.backend ctx user source).objectsStay
  | _ => exact .of_eq (writesOnly_answer env w _ .objects (by simp [Request.tables]))

/-! ### Categories -/

/-- A category with a parent has it in the table. -/
def ParentsExist (db : Database) : Prop :=
  ∀ c ∈ db.categories, ∀ p, c.parentId = some p → ∃ d ∈ db.categories, d.id = p

section Parents

variable {db db' : Database}

theorem ParentsExist.same (h : ParentsExist db) (hs : SameCategories db db') :
    ParentsExist db' := by
  unfold ParentsExist
  rw [hs.1]
  exact h

theorem ParentsExist.insert (h : ParentsExist db) {name slug : String} {parentId : Option ℤ}
    {ownerId : UUID} {tenantId : Option UUID} {row : Category}
    (hi : insertCategory db name slug parentId ownerId tenantId = .ok (db', row))
    (hp : ∀ p, parentId = some p → ∃ d ∈ db.categories, d.id = p) :
    ParentsExist db' ∧ row ∈ db'.categories := by
  obtain ⟨hrow, t, ht, rfl⟩ := insertCategory_ok hi
  have hold : ∀ {p}, (∃ d ∈ db.categories, d.id = p) → ∃ d ∈ t, d.id = p := by
    rintro p ⟨d, hd, hid⟩
    exact ⟨d, (Table.mem_insert ht).mpr (.inl hd), hid⟩
  refine ⟨fun c hc p hcp => ?_, (Table.mem_insert ht).mpr (.inr rfl)⟩
  rcases (Table.mem_insert ht).mp hc with hc | rfl
  · exact hold (h c hc p hcp)
  · rw [hrow] at hcp
    exact hold (hp p hcp)

theorem ParentsExist.ensureLevels (h : ParentsExist db) (user : UserModel)
    (segments : List (String × String)) (parent : Option Category) (created : ℕ)
    (hparent : ∀ c, parent = some c → c ∈ db.categories) :
    ParentsExist (ensureLevels user db parent created segments).1 := by
  induction segments generalizing db parent created with
  | nil => exact h
  | cons segment segments ih =>
    obtain ⟨name, slug⟩ := segment
    rw [MediaService.ensureLevels]
    split
    · exact h
    · rename_i db₁ row n hlevel
      obtain ⟨hsibling, rfl, -⟩ | ⟨-, hinsert, -⟩ := ensureLevel_ok hlevel
      · have hrow := (siblingWithSlug_mem hsibling).1
        exact ih h (some row) _ fun c hc => Option.some.inj hc ▸ (Table.mem_filter.mp hrow).1
      · obtain ⟨hnext, hrow⟩ := h.insert hinsert fun p hp => by
          obtain ⟨c, rfl, rfl⟩ := Option.map_eq_some_iff.mp hp
          exact ⟨c, hparent c rfl, rfl⟩
        exact ih hnext (some row) _ fun c hc => Option.some.inj hc ▸ hrow

theorem ParentsExist.ensureCategoryPath (h : ParentsExist db) (user : UserModel)
    (segments : List (String × String)) : ParentsExist (ensureCategoryPath db user segments).1 := by
  have hlevels := h.ensureLevels user segments none 0 fun c hc => by cases hc
  unfold MediaService.ensureCategoryPath
  split <;> rename_i he <;> rw [he] at hlevels <;> exact hlevels

theorem ParentsExist.recreateTree (h : ParentsExist db) (env : Env) (user : UserModel)
    (manifest : ImportManifest) : ParentsExist (recreateTree env db user manifest).1 := by
  have hchains : ∀ (chains : List (String × CategoryChain)) (db : Database) (tree : RecreatedTree),
      ParentsExist db → ParentsExist (ensureChains user db tree chains).1 := by
    intro chains
    induction chains with
    | nil => exact fun db tree h => h
    | cons chain chains ih =>
      intro db tree h
      obtain ⟨key, chain⟩ := chain
      have hpath := h.ensureCategoryPath user chain
      rw [ensureChains]
      split <;> rename_i he <;> rw [he] at hpath
      · exact hpath
      · exact ih _ _ hpath
  unfold MediaService.recreateTree
  split
  · exact h
  · split
    · exact h
    · exact hchains _ _ _ h

/-- A new parent is a row that was loaded. -/
theorem exists_of_checkReparent {settings : Settings} {user : UserModel} {row : Category}
    {parentId : Option ℤ} (hc : checkReparent settings db user row parentId = .ok ())
    (hmoved : parentId ≠ row.parentId) {p : ℤ} (hp : parentId = some p) :
    ∃ d ∈ db.categories, d.id = p := by
  subst hp
  unfold checkReparent at hc
  rw [if_neg hmoved] at hc
  simp only [bind, Except.bind] at hc
  split at hc <;> [cases hc; rename_i c hload]
  obtain ⟨hmem, hid⟩ := loadParent_ok hload
  exact ⟨c, (mem_writeScope.mp hmem).1, hid⟩

theorem ParentsExist.step (h : ParentsExist db) (settings : Settings) (r : CategoryRequest) :
    ParentsExist (r.step settings db) := by
  cases r with
  | create user req =>
    simp only [CategoryRequest.step]
    split
    · rename_i hcreate
      obtain ⟨hparent, -, -, hinsert⟩ := createCategory_ok hcreate
      refine (h.insert hinsert fun p hp => ?_).1
      obtain ⟨c, hload⟩ := hparent p hp
      obtain ⟨hmem, hid⟩ := loadParent_ok hload
      exact ⟨c, (mem_writeScope.mp hmem).1, hid⟩
    · exact h
  | update user i req =>
    simp only [CategoryRequest.step]
    split
    · rename_i new hupdate
      obtain ⟨row, hload, hnew, rfl, hreparent, -⟩ := updateCategory_ok hupdate
      obtain ⟨⟨hrow, -⟩, -⟩ := loadCategory_eq_ok.mp hload
      have hid : new.id = row.id := by rw [hnew]
      have hmem := @Table.mem_update _ _ _ _ db.categories new row
        (by rw [hid, Table.find_of_mem hrow])
      have hold : ∀ {p}, (∃ d ∈ db.categories, d.id = p) →
          ∃ d ∈ db.categories.update new, d.id = p := by
        rintro p ⟨d, hd, rfl⟩
        by_cases hk : d.id = new.id
        · exact ⟨new, hmem.mpr (.inl rfl), hk.symm⟩
        · exact ⟨d, hmem.mpr (.inr ⟨hd, hk⟩), rfl⟩
      intro c hc p hp
      rcases hmem.mp hc with rfl | ⟨hc, -⟩
      · by_cases hmoved : c.parentId = row.parentId
        · exact hold (h row hrow p (hmoved ▸ hp))
        · exact hold (exists_of_checkReparent hreparent hmoved hp)
      · exact hold (h c hc p hp)
    · exact h
  | delete user i =>
    simp only [CategoryRequest.step]
    split
    · rename_i hdelete
      obtain ⟨row, hload, hleaf, rfl⟩ := deleteCategory_ok hdelete
      obtain ⟨⟨-, hid⟩, -⟩ := loadCategory_eq_ok.mp hload
      intro c hc p hp
      obtain ⟨hc, -⟩ := Table.mem_erase.mp hc
      obtain ⟨d, hd, rfl⟩ := h c hc p hp
      refine ⟨d, Table.mem_erase.mpr ⟨hd, fun he => hleaf c hc ?_⟩, rfl⟩
      rw [hp, he, hid]
    · exact h
  | ensurePath user segments => exact h.ensureCategoryPath user segments

end Parents

theorem ParentsExist.serve (h : ParentsExist w.backend.db) (r : Request) :
    ParentsExist (serve env w r).backend.db := by
  rw [serve_backend]
  cases r with
  | category request => exact h.step env.settings request
  | importCollection ctx user source =>
    rcases sameCategories_runImport env w.backend ctx user source with hs | hs
    · exact h.same hs
    · exact (h.recreateTree env user source.document).same hs
  | _ => exact h.same (writesOnly_answer env w _ .categories (by simp [Request.tables]))

/-! ### Filings -/

/-- Every filing is of an object that is there. -/
def FilesObjects (db : Database) : Prop := ∀ l ∈ db.links, ∃ o ∈ db.objects, o.id = l.1

theorem FilesObjects.of_stay {db db' : Database} (h : FilesObjects db)
    (hstay : ObjectsStay db db')
    (hlinks : ∀ l ∈ db'.links, l ∈ db.links ∨ ∃ o ∈ db'.objects, o.id = l.1) :
    FilesObjects db' := by
  intro l hl
  rcases hlinks l hl with hl | hl
  · obtain ⟨o, ho, hid⟩ := h l hl
    obtain ⟨o', ho', hid', -⟩ := hstay o ho
    exact ⟨o', ho', hid'.trans hid⟩
  · exact hl

theorem mem_links_setFiling {db : Database} {id : UUID} {categoryIds : List ℤ} {l : UUID × ℤ}
    (hl : l ∈ (db.setFiling id categoryIds).links) : l ∈ db.links ∨ l.1 = id := by
  rcases Finset.mem_union.mp hl with hl | hl
  · exact .inl (Finset.mem_filter.mp hl).1
  · obtain ⟨i, -, rfl⟩ := List.mem_map.mp (List.mem_toFinset.mp hl)
    exact .inr rfl

theorem FilesObjects.completeUpload {b : Backend} (h : FilesObjects b.db) (faults : Faults)
    (now : Timestamp) (user : UserModel) (sessionId : UUID) (req : UploadCompleteRequest) :
    FilesObjects (completeUpload env b faults now user sessionId req).1.db := by
  refine h.of_stay (objectsStay_completeUpload b faults now user sessionId req) ?_
  have hends := ends_completeUpload env b faults now user sessionId req
  generalize MediaService.completeUpload env b faults now user sessionId req = r at hends ⊢
  cases hends with
  | refused _ _ hdb =>
    rcases hdb with rfl | ⟨s, -, -, -, rfl⟩
    · exact fun l hl => .inl hl
    · exact fun l hl => .inl hl
  | rejected => exact fun l hl => .inl hl
  | promoted _ _ _ _ _ _ ht =>
    intro l hl
    refine (mem_links_setFiling hl).imp_right fun hid => ?_
    exact ⟨_, (Table.mem_insert ht).mpr (.inr rfl), hid.symm⟩

theorem FilesObjects.fileInto {db : Database} (h : FilesObjects db) (now : Timestamp)
    {o : MediaObject} (ho : o ∈ db.objects) (categories : List Category) :
    FilesObjects (fileInto db now o categories) := by
  unfold MediaService.fileInto
  dsimp only
  split
  · exact h
  · have hstay : ObjectsStay db
        { db with objects := db.objects.update { o with updatedAt := now } } :=
      .of_update ho rfl rfl rfl
    obtain ⟨o', ho', hid, -⟩ := hstay o ho
    refine h.of_stay hstay fun l hl => ?_
    rcases Finset.mem_union.mp hl with hl | hl
    · exact .inl hl
    · obtain ⟨c, -, rfl⟩ := List.mem_map.mp (List.mem_toFinset.mp hl)
      exact .inr ⟨o', ho', hid⟩

theorem FilesObjects.importManifestEntry {b : Backend} (h : FilesObjects b.db) (ctx : RowContext)
    (user : UserModel) (entry : ImportObjectEntry) (categories : List Category)
    (paths : List String) :
    FilesObjects (importManifestEntry b ctx user entry categories paths).1.db := by
  unfold MediaService.importManifestEntry
  split
  · exact h
  · exact h
  · rename_i o hmatch
    exact h.fileInto ctx.recordedAt (importableMatch_eq_some hmatch).1 categories

theorem FilesObjects.importOneFile {b : Backend} (h : FilesObjects b.db) (ctx : RowContext)
    (user : UserModel) (info : Option ZipInfo) (entry : ImportObjectEntry)
    (categories : List Category) (paths : List String) :
    FilesObjects (importOneFile env b ctx user info entry categories paths).1.db := by
  rcases importOneFile_cases env b ctx user info entry categories paths with
    ⟨_, _, _, he⟩ | ⟨_, _, he⟩ | ⟨o, hmatch, he⟩ | ⟨zip, req, staged, _, _, _, hput⟩
  · rw [he]
    exact h
  · rw [he]
    exact h
  · rw [he]
    exact h.fileInto ctx.recordedAt (importableMatch_eq_some hmatch).1 categories
  · rcases hput with ⟨_, _, _, he⟩ | ⟨data, st, -, he⟩
    · rw [he]
      exact h
    · rw [he]
      unfold recordAndComplete
      dsimp only
      split
      · exact h
      · rename_i db hrecord
        obtain ⟨-, t, -, rfl⟩ := Database.insertSession_ok hrecord
        have hopened : FilesObjects { b.db with sessions := t } := h
        have hcomplete := @FilesObjects.completeUpload env ⟨{ b.db with sessions := t }, st⟩
          hopened ctx.faults ctx.completedAt user staged.mediaId
          ⟨entry.sha256, some (categories.map Category.id)⟩
        split <;> rename_i he <;> rw [he] at hcomplete <;> exact hcomplete

theorem FilesObjects.runImport {b : Backend} (h : FilesObjects b.db) (ctx : ℕ → RowContext)
    (user : UserModel) (source : ImportSource) :
    FilesObjects (runImport env b ctx user source).1.db := by
  refine runImport_inv (I := fun b' : Backend => FilesObjects b'.db) h ?_
    fun _ _ i b' entry _ categories paths _ hb => ⟨?_, fun info => ?_⟩
  · obtain ⟨⟨_, _, hdb⟩, -, -⟩ :=
      (addsCategories_recreateTree env user source.document b.db).1
    dsimp only
    rw [hdb]
    exact h
  · exact hb.importManifestEntry (ctx i) user entry categories paths
  · exact hb.importOneFile (ctx i) user info entry categories paths

/-- Every filing is into a category that is there. -/
def FilesCategories (db : Database) : Prop := ∀ l ∈ db.links, ∃ c ∈ db.categories, c.id = l.2

theorem FilesCategories.of_filesInScope {user : UserModel} {db db' : Database}
    (h : FilesCategories db) (hcats : ∀ c ∈ db.categories, c ∈ db'.categories)
    (hlinks : FilesInScope user db db') : FilesCategories db' := by
  intro l hl
  by_cases hold : l ∈ db.links
  · obtain ⟨c, hc, hid⟩ := h l hold
    exact ⟨c, hcats c hc, hid⟩
  · obtain ⟨c, hc, hid, -⟩ := hlinks l hl hold
    exact ⟨c, hc, hid⟩

theorem FilesCategories.step {db : Database} (h : FilesCategories db) (settings : Settings)
    (r : CategoryRequest) : FilesCategories (r.step settings db) := by
  cases r with
  | create user req =>
    simp only [CategoryRequest.step]
    split
    · rename_i hcreate
      obtain ⟨-, t, ht, rfl⟩ := insertCategory_ok (createCategory_ok hcreate).2.2.2
      intro l hl
      obtain ⟨c, hc, hid⟩ := h l hl
      exact ⟨c, (Table.mem_insert ht).mpr (.inl hc), hid⟩
    · exact h
  | update user i req =>
    simp only [CategoryRequest.step]
    split
    · rename_i new hupdate
      obtain ⟨row, hload, hnew, rfl, -, -⟩ := updateCategory_ok hupdate
      obtain ⟨⟨hrow, -⟩, -⟩ := loadCategory_eq_ok.mp hload
      have hid : new.id = row.id := by rw [hnew]
      have hmem := @Table.mem_update _ _ _ _ db.categories new row
        (by rw [hid, Table.find_of_mem hrow])
      intro l hl
      obtain ⟨c, hc, hcid⟩ := h l hl
      by_cases hk : c.id = new.id
      · exact ⟨new, hmem.mpr (.inl rfl), hk.symm.trans hcid⟩
      · exact ⟨c, hmem.mpr (.inr ⟨hc, hk⟩), hcid⟩
    · exact h
  | delete user i =>
    simp only [CategoryRequest.step]
    split
    · rename_i hdelete
      obtain ⟨row, -, -, rfl⟩ := deleteCategory_ok hdelete
      intro l hl
      obtain ⟨hl, hne⟩ := Finset.mem_filter.mp hl
      obtain ⟨c, hc, hid⟩ := h l hl
      exact ⟨c, Table.mem_erase.mpr ⟨hc, fun he => hne (hid.symm.trans he)⟩, hid⟩
    · exact h
  | ensurePath user segments =>
    obtain ⟨⟨⟨_, _, hdb⟩, hkept, -⟩, -⟩ := addsCategories_ensureCategoryPath user segments db
    simp only [CategoryRequest.step]
    intro l hl
    rw [hdb] at hl
    obtain ⟨c, hc, hid⟩ := h l hl
    exact ⟨c, hkept c hc, hid⟩

/-! ### Purges -/

theorem ForeignKeys.deleteObject {db : Database} (h : ForeignKeys db) (id : UUID) :
    ForeignKeys (Database.deleteObjectRow { db with
      variants := db.variants.filter fun v => v.mediaObjectId ≠ id
      variantJobs := db.variantJobs.filter fun j => j.mediaObjectId ≠ id } id) := by
  have hold : ∀ {o : MediaObject} {i : UUID}, o ∈ db.objects → o.id = i → i ≠ id →
      o ∈ db.objects.erase id := by
    rintro o _ ho rfl hne
    exact Table.mem_erase.mpr ⟨ho, hne⟩
  refine ⟨h.category_parent, fun l hl => ?_, fun l hl => ?_, fun v hv => ?_, fun j hj => ?_,
    fun s hs => ?_⟩
  · obtain ⟨hl, hne⟩ := Finset.mem_filter.mp hl
    obtain ⟨o, ho, hid⟩ := h.link_object l hl
    exact ⟨o, hold ho hid hne, hid⟩
  · exact h.link_category l (Finset.mem_filter.mp hl).1
  · obtain ⟨hv, hne⟩ := Table.mem_filter.mp hv
    obtain ⟨o, ho, hid⟩ := h.variant_object v hv
    exact ⟨o, hold ho hid (of_decide_eq_true hne), hid⟩
  · obtain ⟨hj, hne⟩ := Table.mem_filter.mp hj
    obtain ⟨o, ho, hid, hscope⟩ := h.job_object j hj
    exact ⟨o, hold ho hid (of_decide_eq_true hne), hid, hscope⟩
  · obtain ⟨hs, hne⟩ := Table.mem_filter.mp hs
    obtain ⟨o, ho, hid, hscope⟩ := h.share_object s hs
    exact ⟨o, hold ho hid (of_decide_eq_true hne), hid, hscope⟩

theorem ForeignKeys.purgeObjects (faults : Faults) (os : List MediaObject) {b : Backend}
    (h : ForeignKeys b.db) : ForeignKeys (os.foldl (purgeObject faults) b).db := by
  induction os generalizing b with
  | nil => exact h
  | cons o os ih =>
    refine ih ?_
    unfold purgeObject
    split
    · exact h
    · exact h.deleteObject o.id

/-- A purge writes no variant and no job. -/
theorem derivedRows_purgeObjects (faults : Faults) (os : List MediaObject) (b : Backend) :
    (∀ v ∈ (os.foldl (purgeObject faults) b).db.variants, v ∈ b.db.variants) ∧
      ∀ j ∈ (os.foldl (purgeObject faults) b).db.variantJobs, j ∈ b.db.variantJobs := by
  induction os generalizing b with
  | nil => exact ⟨fun v hv => hv, fun j hj => hj⟩
  | cons o os ih =>
    have hone : (∀ v ∈ (purgeObject faults b o).db.variants, v ∈ b.db.variants) ∧
        ∀ j ∈ (purgeObject faults b o).db.variantJobs, j ∈ b.db.variantJobs := by
      unfold purgeObject
      split
      · exact ⟨fun v hv => hv, fun j hj => hj⟩
      · exact ⟨fun v hv => (Table.mem_filter.mp hv).1, fun j hj => (Table.mem_filter.mp hj).1⟩
    obtain ⟨hvariants, hjobs⟩ := ih (purgeObject faults b o)
    exact ⟨fun v hv => hone.1 v (hvariants v hv), fun j hj => hone.2 j (hjobs j hj)⟩

/-! ### Variants, jobs and links -/

/-- Rows that refer to objects find them again where no object goes. -/
theorem exists_of_objectsStay {db db' : Database} (hstay : ObjectsStay db db') {id : UUID}
    {scope : Scope} (h : ∃ o ∈ db.objects, o.id = id ∧ o.scope = scope) :
    ∃ o ∈ db'.objects, o.id = id ∧ o.scope = scope := by
  obtain ⟨o, ho, hid, hscope⟩ := h
  obtain ⟨o', ho', hid', hscope'⟩ := hstay o ho
  exact ⟨o', ho', hid'.trans hid, hscope'.trans hscope⟩

/-- A variant row a request leaves was there, or names an object that was. -/
theorem mem_variants_answer {r : Request} {v : MediaVariant}
    (hv : v ∈ (answer env w r).db.variants) :
    v ∈ w.backend.db.variants ∨ ∃ o ∈ w.backend.db.objects, o.id = v.mediaObjectId := by
  have hframe := writesOnly_answer env w r .variants
  cases r with
  | hardPurge faults now olderThan limit =>
    left
    exact (derivedRows_purgeObjects faults _ w.backend).1 v hv
  | registerVariant now freshId objectId body =>
    simp only [answer] at hv
    split at hv
    · cases h : registerVariant w.backend.db now freshId objectId body with
      | error e =>
        rw [h] at hv
        exact .inl hv
      | ok res =>
        rw [h] at hv
        obtain ⟨hid, -, hobj, t, outbox, ht, hdb⟩ := registerVariant_ok h
        have hmem : v ∈ t := by
          rw [show t = res.1.variants from (congrArg Database.variants hdb).symm]
          exact hv
        rcases (ht v).mp hmem with rfl | ⟨hmem, -⟩
        · exact .inr (hid ▸ hobj)
        · exact .inl hmem
    · exact .inl hv
  | deleteVariant faults user objectId variantId =>
    left
    simp only [answer, deleteVariant] at hv
    split at hv
    · exact hv
    · split at hv
      · exact hv
      · split at hv
        · exact hv
        · exact (Table.mem_erase.mp hv).1
  | _ =>
    left
    have hsame : (answer env w _).db.variants = w.backend.db.variants :=
      hframe (by simp [Request.tables, importTables])
    exact hsame ▸ hv

/-- A job row a request leaves repeats one that was there, or the object it is for. -/
theorem mem_variantJobs_answer {r : Request} {j : VariantJob}
    (hj : j ∈ (answer env w r).db.variantJobs) :
    (∃ j' ∈ w.backend.db.variantJobs, j'.mediaObjectId = j.mediaObjectId ∧
        j'.ownerUserId = j.ownerUserId ∧ j'.tenantId = j.tenantId) ∨
      ∃ o ∈ w.backend.db.objects, o.id = j.mediaObjectId ∧
        o.scope = ⟨j.ownerUserId, j.tenantId⟩ := by
  have hframe := writesOnly_answer env w r .variantJobs
  cases r with
  | hardPurge faults now olderThan limit =>
    left
    exact ⟨j, (derivedRows_purgeObjects faults _ w.backend).2 j hj, rfl, rfl, rfl⟩
  | generate now jobId user objectId body =>
    simp only [answer] at hj
    cases h : generateVariants env w.backend.db now jobId user objectId body with
    | error e =>
      rw [h] at hj
      exact .inl ⟨j, hj, rfl, rfl, rfl⟩
    | ok res =>
      rw [h] at hj
      obtain ⟨o, j', t, hload, -, hobj, howner, htenant, ht, hdb⟩ := generateVariants_inserts h
      have hmem : j ∈ t := by
        rw [show t = res.1.variantJobs from (congrArg Database.variantJobs hdb).symm]
        exact hj
      rcases (Table.mem_insert ht).mp hmem with hmem | rfl
      · exact .inl ⟨j, hmem, rfl, rfl, rfl⟩
      · exact .inr ⟨o, (loadObject_ok hload).1, hobj.symm, by rw [howner, htenant]; rfl⟩
  | updateVariantJob now jobId body =>
    left
    simp only [answer, updateVariantJob] at hj
    cases hfind : w.backend.db.variantJobs.find jobId with
    | none =>
      simp only [hfind] at hj
      exact ⟨j, hj, rfl, rfl, rfl⟩
    | some j₀ =>
      simp only [hfind] at hj
      obtain rfl := Table.key_of_find hfind
      rcases (Table.mem_update (by exact hfind)).mp hj with rfl | ⟨hj, -⟩
      · exact ⟨j₀, Table.mem_of_find hfind, rfl, rfl, rfl⟩
      · exact ⟨j, hj, rfl, rfl, rfl⟩
  | _ =>
    left
    have hsame : (answer env w _).db.variantJobs = w.backend.db.variantJobs :=
      hframe (by simp [Request.tables, importTables])
    exact ⟨j, hsame ▸ hj, rfl, rfl, rfl⟩

/-- So does a link. -/
theorem mem_shares_answer {r : Request} {s : ShareToken} (hs : s ∈ (answer env w r).db.shares) :
    (∃ s' ∈ w.backend.db.shares, s'.mediaObjectId = s.mediaObjectId ∧
        s'.ownerUserId = s.ownerUserId ∧ s'.tenantId = s.tenantId) ∨
      ∃ o ∈ w.backend.db.objects, o.id = s.mediaObjectId ∧
        o.scope = ⟨s.ownerUserId, s.tenantId⟩ := by
  have hfind := Table.find_of_mem hs
  rw [← serve_backend] at hfind
  cases hmint : r.mints s.id with
  | false =>
    -- Without a fresh link under its id, the row is the old one as the request leaves it.
    left
    cases hold : w.backend.db.shares.find s.id with
    | none =>
      rw [find_shares_serve_none hold hmint] at hfind
      cases hfind
    | some q =>
      rcases find_shares_serve hold hmint with ⟨-, h⟩ | ⟨-, h⟩
      · rw [h] at hfind
        cases hfind
      · obtain rfl := Option.some.inj (hfind.symm.trans h)
        exact ⟨q, Table.mem_of_find hold, rfl, rfl, rfl⟩
  | true =>
    cases r with
    | createShare now tokenId user objectId body =>
      simp only [answer] at hs
      cases h : createShare env.settings w.backend.db now tokenId user objectId body with
      | error e =>
        rw [h] at hs
        exact .inl ⟨s, hs, rfl, rfl, rfl⟩
      | ok res =>
        rw [h] at hs
        obtain ⟨o, t, hload, -, hobject, howner, htenant, -, -, -, -, -, -, ht, hdb⟩ :=
          createShare_inserts h
        have hmem : s ∈ t := by
          rw [show t = res.1.shares from (congrArg Database.shares hdb).symm]
          exact hs
        rcases (Table.mem_insert ht).mp hmem with hmem | rfl
        · exact .inl ⟨s, hmem, rfl, rfl, rfl⟩
        · exact .inr ⟨o, (loadObject_ok hload).1, hobject.symm, by rw [howner, htenant]; rfl⟩
    | _ => cases hmint

/-! ### Runs -/

theorem filesObjects_answer (h : FilesObjects w.backend.db) {r : Request}
    (hr : ∀ faults now olderThan limit, r ≠ .hardPurge faults now olderThan limit) :
    FilesObjects (answer env w r).db := by
  have hstay := objectsStay_answer env w hr
  have hframe := writesOnly_answer env w r .links
  cases r with
  | complete faults now user sessionId body => exact h.completeUpload faults now user sessionId body
  | update faults commitFails now user objectId body =>
    refine h.of_stay hstay ?_
    simp only [answer]
    rcases updateObject_cases env w.backend faults commitFails now user objectId body with
      ⟨e, st, he, -⟩ | ⟨u, o, st, bucket, categories, db', o', -, hload, -, -, hpatch, he⟩
    · rw [he]
      exact fun l hl => .inl hl
    · rw [he]
      obtain ⟨⟨v, c, -, ho'⟩, -⟩ := patchedDatabase_ok hpatch
      obtain ⟨-, rfl⟩ := patchedDatabase_eq_ok hpatch
      have hid : o'.id = o.id := by rw [ho']
      have hmem : o' ∈ w.backend.db.objects.update o' := by
        refine (Table.mem_update (s := o) ?_).mpr (.inl rfl)
        rw [hid, Table.find_of_mem (loadObject_ok hload).1]
      intro l hl
      cases categories with
      | none => exact .inl hl
      | some cs =>
        refine (@mem_links_setFiling { w.backend.db with
          objects := w.backend.db.objects.update o' } _ _ _ hl).imp_right fun hlid => ?_
        exact ⟨o', hmem, hid.trans hlid.symm⟩
  | category request =>
    refine h.of_stay hstay fun l hl => .inl ?_
    cases request with
    | create user req =>
      simp only [answer, CategoryRequest.step] at hl
      split at hl
      · rename_i hcreate
        obtain ⟨-, t, ht, rfl⟩ := insertCategory_ok (createCategory_ok hcreate).2.2.2
        exact hl
      · exact hl
    | update user i req =>
      simp only [answer, CategoryRequest.step] at hl
      split at hl
      · rename_i hupdate
        obtain ⟨row, -, -, rfl, -, -⟩ := updateCategory_ok hupdate
        exact hl
      · exact hl
    | delete user i =>
      simp only [answer, CategoryRequest.step] at hl
      split at hl
      · rename_i hdelete
        obtain ⟨row, -, -, rfl⟩ := deleteCategory_ok hdelete
        exact (Finset.mem_filter.mp hl).1
      · exact hl
    | ensurePath user segments =>
      obtain ⟨⟨⟨_, _, hdb⟩, -, -⟩, -⟩ :=
        addsCategories_ensureCategoryPath user segments w.backend.db
      simp only [answer, CategoryRequest.step] at hl
      rw [hdb] at hl
      exact hl
  | hardPurge faults now olderThan limit => exact absurd rfl (hr faults now olderThan limit)
  | importCollection ctx user source => exact h.runImport ctx user source
  | _ =>
    refine h.of_stay hstay fun l hl => .inl ?_
    have hsame : (answer env w _).db.links = w.backend.db.links :=
      hframe (by simp [Request.tables])
    exact hsame ▸ hl

theorem filesCategories_answer (h : FilesCategories w.backend.db) {r : Request}
    (hr : ∀ faults now olderThan limit, r ≠ .hardPurge faults now olderThan limit) :
    FilesCategories (answer env w r).db := by
  have hframe := writesOnly_answer env w r
  cases r with
  | complete faults now user sessionId body =>
    have hsame : (answer env w (.complete faults now user sessionId body)).db.categories =
        w.backend.db.categories := (hframe .categories (by simp [Request.tables])).1
    exact h.of_filesInScope (fun c hc => hsame ▸ hc)
      (filesInScope_completeUpload env w.backend faults now user sessionId body)
  | update faults commitFails now user objectId body =>
    have hsame : (answer env w (.update faults commitFails now user objectId body)).db.categories =
        w.backend.db.categories := (hframe .categories (by simp [Request.tables])).1
    exact h.of_filesInScope (fun c hc => hsame ▸ hc)
      (filesInScope_updateObject env w.backend faults commitFails now user objectId body)
  | category request => exact h.step env.settings request
  | hardPurge faults now olderThan limit => exact absurd rfl (hr faults now olderThan limit)
  | importCollection ctx user source =>
    have hscope := inOwnScope_runImport env w.backend ctx user source
    have hfiles : FilesInScope user w.backend.db
        (runImport env w.backend ctx user source).1.db := by
      intro l hl hn
      obtain ⟨c, ⟨hc, hmine⟩, hid⟩ := hscope.filings l hl hn
      exact ⟨c, hc, hid, inScope_of_inWriteScope hmine⟩
    exact h.of_filesInScope hscope.categories hfiles
  | _ =>
    have hlinks : (answer env w _).db.links = w.backend.db.links :=
      hframe .links (by simp [Request.tables])
    have hcats : (answer env w _).db.categories = w.backend.db.categories :=
      (hframe .categories (by simp [Request.tables])).1
    unfold FilesCategories
    rw [hlinks, hcats]
    exact h

theorem ForeignKeys.serve (h : ForeignKeys w.backend.db) (r : Request) :
    ForeignKeys (serve env w r).backend.db := by
  have hparents : ParentsExist (MediaService.serve env w r).backend.db :=
    ParentsExist.serve h.category_parent r
  rw [serve_backend] at hparents ⊢
  by_cases hpurge : ∃ faults now olderThan limit, r = .hardPurge faults now olderThan limit
  · obtain ⟨faults, now, olderThan, limit, rfl⟩ := hpurge
    exact h.purgeObjects faults _
  · have hr : ∀ faults now olderThan limit, r ≠ .hardPurge faults now olderThan limit :=
      fun faults now olderThan limit he => hpurge ⟨faults, now, olderThan, limit, he⟩
    have hstay := objectsStay_answer env w hr
    refine ⟨hparents, filesObjects_answer h.link_object hr,
      filesCategories_answer h.link_category hr, fun v hv => ?_, fun j hj => ?_, fun s hs => ?_⟩
    · have hobject : ∃ o ∈ w.backend.db.objects, o.id = v.mediaObjectId :=
        (mem_variants_answer hv).elim (h.variant_object v) id
      obtain ⟨o, ho, hid⟩ := hobject
      obtain ⟨o', ho', hid', -⟩ := hstay o ho
      exact ⟨o', ho', hid'.trans hid⟩
    · refine exists_of_objectsStay hstay ?_
      rcases mem_variantJobs_answer hj with ⟨j', hj', hobject, howner, htenant⟩ | hnew
      · rw [← hobject, ← howner, ← htenant]
        exact h.job_object j' hj'
      · exact hnew
    · refine exists_of_objectsStay hstay ?_
      rcases mem_shares_answer hs with ⟨s', hs', hobject, howner, htenant⟩ | hnew
      · rw [← hobject, ← howner, ← htenant]
        exact h.share_object s' hs'
      · exact hnew

/-- In every state the service comes to, every category's parent, every filed object and
its category, and every object of a variant, of a job and of a link is there, and a job
and a link have their object's owner and tenant. -/
theorem foreignKeys_run (env : Env) (rs : List Request) :
    ForeignKeys (run (MediaService.serve env) World.initial rs).backend.db :=
  (always_of_inv (I := fun w : World => ForeignKeys w.backend.db) (fun _ r h => h.serve r)
    foreignKeys_empty rs).last

end MediaService
