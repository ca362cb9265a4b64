import MediaService.Invariants.CategoryPaths
import MediaService.Invariants.ImportRows

/-! What an import may touch. It adds categories to the caller's own write scope, and
takes each row through steps that add or refile objects of the caller's, keep every
session but the one they open, charge the caller's scope alone and move bytes under the
caller's prefix alone. Each step keeps to this scope, and so does the whole import. -/

namespace MediaService

open Foundation

variable {env : Env} {user : UserModel}

/-! ### The tree -/

/-- Rows of the caller's write scope are added, and nothing else differs. -/
structure AddsCategories (user : UserModel) (db db' : Database) : Prop where
  only : ∃ categories categorySeq, db' = { db with
    categories := categories
    categorySeq := categorySeq }
  kept : ∀ c ∈ db.categories, c ∈ db'.categories
  added : ∀ c ∈ db'.categories, c ∉ db.categories →
    inWriteScope user.tenantId user.id c = true

theorem AddsCategories.refl (user : UserModel) (db : Database) : AddsCategories user db db :=
  ⟨⟨_, _, rfl⟩, fun _ hc => hc, fun _ hc hn => absurd hc hn⟩

theorem AddsCategories.trans {db db' db'' : Database} (h : AddsCategories user db db')
    (h' : AddsCategories user db' db'') : AddsCategories user db db'' := by
  refine ⟨?_, fun c hc => h'.kept c (h.kept c hc), fun c hc hn => ?_⟩
  · obtain ⟨_, _, rfl⟩ := h.only
    obtain ⟨_, _, rfl⟩ := h'.only
    exact ⟨_, _, rfl⟩
  · by_cases hmid : c ∈ db'.categories
    · exact h.added c hmid hn
    · exact h'.added c hc hmid

/-- The category is there, and the caller's to write to. -/
def Mine (user : UserModel) (db : Database) (c : Category) : Prop :=
  c ∈ db.categories ∧ inWriteScope user.tenantId user.id c = true

theorem inScope_of_inWriteScope {c : Category}
    (h : inWriteScope user.tenantId user.id c = true) : inScope user c = true := by
  unfold inWriteScope at h
  unfold inScope
  split
  · rfl
  · exact h

theorem Mine.of_adds {db db' : Database} {c : Category} (h : Mine user db c)
    (hadds : AddsCategories user db db') : Mine user db' c :=
  ⟨hadds.kept c h.1, h.2⟩

theorem addsCategories_ensureLevel {db db' : Database} {parentId : Option ℤ} {name slug : String}
    {row : Category} {n : ℕ} (h : ensureLevel db user parentId name slug = .ok (db', row, n)) :
    AddsCategories user db db' ∧ Mine user db' row := by
  obtain ⟨hsibling, rfl, -⟩ | ⟨-, hinsert, -⟩ := ensureLevel_ok h
  · obtain ⟨hrow, -⟩ := siblingWithSlug_mem hsibling
    exact ⟨.refl user _, Table.mem_filter.mp hrow⟩
  · obtain ⟨hrow, t, ht, rfl⟩ := insertCategory_ok hinsert
    have hscope : inWriteScope user.tenantId user.id row = true := by
      rw [hrow]
      cases user.tenantId <;> simp [inWriteScope]
    refine ⟨⟨⟨_, _, rfl⟩, fun c hc => (Table.mem_insert ht).mpr (.inl hc), fun c hc hn => ?_⟩,
      (Table.mem_insert ht).mpr (.inr rfl), hscope⟩
    rcases (Table.mem_insert ht).mp hc with hc | rfl
    · exact absurd hc hn
    · exact hscope

theorem addsCategories_ensureLevels (user : UserModel) (segments : List (String × String))
    (db : Database) (parent : Option Category) (n : ℕ)
    (hparent : ∀ c, parent = some c → Mine user db c) :
    AddsCategories user db (ensureLevels user db parent n segments).1 ∧
      ∀ row m, (ensureLevels user db parent n segments).2 = .ok (some row, m) →
        Mine user (ensureLevels user db parent n segments).1 row := by
  induction segments generalizing db parent n with
  | nil =>
    refine ⟨.refl user db, fun row m h => hparent row ?_⟩
    cases h
    rfl
  | cons segment segments ih =>
    obtain ⟨name, slug⟩ := segment
    rw [ensureLevels]
    split
    · exact ⟨.refl user db, fun row m h => by cases h⟩
    · rename_i db₁ row k hlevel
      obtain ⟨hadds, hmine⟩ := addsCategories_ensureLevel hlevel
      obtain ⟨hrest, hlast⟩ := ih db₁ (some row) (n + k) fun c hc => Option.some.inj hc ▸ hmine
      exact ⟨hadds.trans hrest, hlast⟩

theorem addsCategories_ensureCategoryPath (user : UserModel) (segments : List (String × String))
    (db : Database) :
    AddsCategories user db (ensureCategoryPath db user segments).1 ∧
      ∀ row m, (ensureCategoryPath db user segments).2 = .ok (row, m) →
        Mine user (ensureCategoryPath db user segments).1 row := by
  obtain ⟨hadds, hlast⟩ := addsCategories_ensureLevels user segments db none 0 nofun
  unfold ensureCategoryPath
  generalize ensureLevels user db none 0 segments = r at hadds hlast ⊢
  obtain ⟨db', e | ⟨_ | row, m⟩⟩ := r
  · exact ⟨hadds, nofun⟩
  · exact ⟨hadds, nofun⟩
  · refine ⟨hadds, fun row' m' h => ?_⟩
    cases h
    exact hlast row m rfl

theorem addsCategories_ensureChains (user : UserModel) (chains : List (String × CategoryChain))
    (db : Database) (tree : RecreatedTree) (htree : ∀ p ∈ tree.byPath, Mine user db p.2) :
    AddsCategories user db (ensureChains user db tree chains).1 ∧
      ∀ tree', (ensureChains user db tree chains).2 = .ok tree' →
        ∀ p ∈ tree'.byPath, Mine user (ensureChains user db tree chains).1 p.2 := by
  induction chains generalizing db tree with
  | nil =>
    refine ⟨.refl user db, fun tree' h => ?_⟩
    cases h
    exact htree
  | cons p chains ih =>
    obtain ⟨key, chain⟩ := p
    obtain ⟨hadds, hrow⟩ := addsCategories_ensureCategoryPath user chain db
    rw [ensureChains]
    generalize ensureCategoryPath db user chain = r at hadds hrow ⊢
    obtain ⟨db', e | ⟨row, m⟩⟩ := r
    · exact ⟨hadds, fun tree' h => by cases h⟩
    · obtain ⟨hrest, hlast⟩ := ih db'
        ⟨tree.byPath ++ [(key, row)], tree.created + m, tree.reused + (1 - m)⟩ (by
          intro p hp
          rcases List.mem_append.mp hp with hp | hp
          · exact (htree p hp).of_adds hadds
          · rw [List.mem_singleton.mp hp]
            exact hrow row m rfl)
      exact ⟨hadds.trans hrest, hlast⟩

/-- The recreated tree is the caller's own. -/
theorem addsCategories_recreateTree (env : Env) (user : UserModel) (manifest : ImportManifest)
    (db : Database) :
    AddsCategories user db (recreateTree env db user manifest).1 ∧
      ∀ tree, (recreateTree env db user manifest).2 = .ok tree →
        ∀ p ∈ tree.byPath, Mine user (recreateTree env db user manifest).1 p.2 := by
  unfold recreateTree
  split
  · exact ⟨.refl user db, nofun⟩
  · split
    · exact ⟨.refl user db, nofun⟩
    · exact addsCategories_ensureChains user _ db _ nofun

/-! ### The rows -/

/-- A key under the prefix of what the user stores. -/
def UserModel.OwnsKey (user : UserModel) (key : String) : Prop :=
  ∃ segments, key = keyPath (ownerPrefix user.id user.tenantId ++ segments)

/-- What an import leaves of a file: an object that is to be scanned, or the record of
an upload that was rejected. -/
structure MediaObject.ImportedBy (user : UserModel) (o : MediaObject) : Prop where
  owner : o.ownerUserId = user.id
  tenant : o.tenantId = user.tenantId
  status : o.status = .uploaded ∨ o.status = .rejected
  scanStatus : o.scanStatus = .pending

/-- From one state to the next, rows and bytes that are not the user's stay as they are,
and what is new is the user's. -/
structure InOwnScope (user : UserModel) (b b' : Backend) : Prop where
  /-- Rows that are there stay; one the user owns may be marked as updated. -/
  objects : ∀ id o, b.db.objects.find id = some o → b'.db.objects.find id = some o ∨
    (o.ownerUserId = user.id ∧ ∃ t, b'.db.objects.find id = some { o with updatedAt := t })
  newObjects : ∀ id o, b.db.objects.find id = none → b'.db.objects.find id = some o →
    o.ImportedBy user
  sessions : ∀ id s, b.db.sessions.find id = some s → b'.db.sessions.find id = some s
  newSessions : ∀ id s, b.db.sessions.find id = none → b'.db.sessions.find id = some s →
    s.scope = ⟨user.id, user.tenantId⟩
  usage : ∀ scope ≠ ⟨user.id, user.tenantId⟩, b'.db.usage.find scope = b.db.usage.find scope
  categories : ∀ c ∈ b.db.categories, c ∈ b'.db.categories
  newCategories : ∀ c ∈ b'.db.categories, c ∉ b.db.categories →
    inWriteScope user.tenantId user.id c = true
  filings : ∀ l ∈ b'.db.links, l ∉ b.db.links → ∃ c, Mine user b'.db c ∧ c.id = l.2
  contents : ∀ l, ¬ user.OwnsKey l.objectKey → b'.storage.content l = b.storage.content l
  others : ∃ objects sessions usage categories categorySeq links, b'.db = { b.db with
    objects := objects
    sessions := sessions
    usage := usage
    categories := categories
    categorySeq := categorySeq
    links := links }

theorem InOwnScope.refl (user : UserModel) (b : Backend) : InOwnScope user b b where
  objects _ _ h := .inl h
  newObjects _ _ hn h := absurd (hn.symm.trans h) (Option.some_ne_none _).symm
  sessions _ _ h := h
  newSessions _ _ hn h := absurd (hn.symm.trans h) (Option.some_ne_none _).symm
  usage _ _ := rfl
  categories _ h := h
  newCategories _ h hn := absurd h hn
  filings _ h hn := absurd h hn
  contents _ _ := rfl
  others := ⟨_, _, _, _, _, _, rfl⟩

theorem InOwnScope.trans {b b' b'' : Backend} (h : InOwnScope user b b')
    (h' : InOwnScope user b' b'') : InOwnScope user b b'' where
  objects id o ho := by
    rcases h.objects id o ho with ho | ⟨hown, t, ho⟩
    · exact h'.objects id o ho
    · rcases h'.objects id _ ho with ho | ⟨-, t', ho⟩
      · exact .inr ⟨hown, t, ho⟩
      · exact .inr ⟨hown, t', ho⟩
  newObjects id o hn ho := by
    cases hmid : b'.db.objects.find id with
    | none => exact h'.newObjects id o hmid ho
    | some o₁ =>
      have hnew := h.newObjects id o₁ hn hmid
      rcases h'.objects id o₁ hmid with ho' | ⟨-, t, ho'⟩ <;> rw [ho'] at ho <;> cases ho
      · exact hnew
      · exact ⟨hnew.owner, hnew.tenant, hnew.status, hnew.scanStatus⟩
  sessions id s hs := h'.sessions id s (h.sessions id s hs)
  newSessions id s hn hs := by
    cases hmid : b'.db.sessions.find id with
    | none => exact h'.newSessions id s hmid hs
    | some s₁ =>
      rw [h'.sessions id s₁ hmid] at hs
      cases hs
      exact h.newSessions id s hn hmid
  usage scope hne := (h'.usage scope hne).trans (h.usage scope hne)
  categories c hc := h'.categories c (h.categories c hc)
  newCategories c hc hn := by
    by_cases hmid : c ∈ b'.db.categories
    · exact h.newCategories c hmid hn
    · exact h'.newCategories c hc hmid
  filings l hl hn := by
    by_cases hmid : l ∈ b'.db.links
    · obtain ⟨c, ⟨hc, hscope⟩, hid⟩ := h.filings l hmid hn
      exact ⟨c, ⟨h'.categories c hc, hscope⟩, hid⟩
    · exact h'.filings l hl hmid
  contents l hl := (h'.contents l hl).trans (h.contents l hl)
  others := by
    obtain ⟨_, _, _, _, _, _, hdb⟩ := h.others
    obtain ⟨_, _, _, _, _, _, hdb'⟩ := h'.others
    rw [hdb', hdb]
    exact ⟨_, _, _, _, _, _, rfl⟩

theorem AddsCategories.inOwnScope {db db' : Database} (h : AddsCategories user db db')
    (st : Storage) : InOwnScope user ⟨db, st⟩ ⟨db', st⟩ := by
  obtain ⟨⟨_, _, rfl⟩, hkept, hadded⟩ := h
  exact { InOwnScope.refl user ⟨db, st⟩ with
    categories := hkept
    newCategories := hadded
    filings := fun _ hl hn => absurd hl hn
    others := ⟨_, _, _, _, _, _, rfl⟩ }

theorem InOwnScope.of_contents {b : Backend} {st : Storage}
    (h : ∀ l, ¬ user.OwnsKey l.objectKey → st.content l = b.storage.content l) :
    InOwnScope user b { b with storage := st } :=
  { InOwnScope.refl user b with contents := h }

/-- Filing an object of the user's into categories of the user's. -/
theorem inOwnScope_fileInto {b : Backend} (now : Timestamp) {o : MediaObject}
    {categories : List Category} (ho : b.db.objects.find o.id = some o)
    (hown : o.ownerUserId = user.id) (hcategories : ∀ c ∈ categories, Mine user b.db c) :
    InOwnScope user b { b with db := fileInto b.db now o categories } := by
  unfold fileInto
  dsimp only
  split
  · exact .refl user b
  · refine { InOwnScope.refl user b with
      objects := fun id q hq => ?_
      newObjects := fun id q hn hq => ?_
      filings := fun l hl hn => ?_
      others := ⟨_, _, _, _, _, _, rfl⟩ }
    · by_cases hid : id = o.id
      · subst hid
        obtain rfl : o = q := Option.some.inj (ho.symm.trans hq)
        exact .inr ⟨hown, now, Table.find_update_self ho⟩
      · have hother : (b.db.objects.update { o with updatedAt := now }).find id =
          b.db.objects.find id := Table.find_update_ne hid
        exact .inl (hother.trans hq)
    · have hsome := Table.find_update_isSome b.db.objects { o with updatedAt := now } id
      rw [hn] at hsome
      dsimp only at hq
      rw [hq] at hsome
      cases hsome
    · rcases Finset.mem_union.mp hl with hl | hl
      · exact absurd hl hn
      · obtain ⟨c, hc, rfl⟩ := List.mem_map.mp (List.mem_toFinset.mp hl)
        exact ⟨c, hcategories c (List.mem_filter.mp hc).1, rfl⟩

theorem ownsKey_buildObjectKey (user : UserModel) (id : UUID) (category : MediaCategory)
    (filename : String) :
    user.OwnsKey (buildObjectKey env user.id id category filename user.tenantId) := ⟨_, rfl⟩

section Fresh

variable {ρ κ : Type} [DecidableEq κ] {key : ρ → κ} {t t' : Table key} {r : ρ}

/-- Rows of a table with one more row under a key that was free. -/
theorem find_fresh (hnone : t.find (key r) = none)
    (h : ∀ k, t'.find k = if k = key r then some r else t.find k) :
    (∀ k s, t.find k = some s → t'.find k = some s) ∧
      ∀ k s, t.find k = none → t'.find k = some s → s = r := by
  constructor
  · intro k s hs
    have hk : k ≠ key r := by
      rintro rfl
      rw [hnone] at hs
      cases hs
    rw [h, if_neg hk, hs]
  · intro k s hn hs
    rw [h] at hs
    split_ifs at hs with hk
    · exact (Option.some.inj hs).symm
    · rw [hn] at hs
      cases hs

theorem find_insert_update (ht : t.insert r = some t') {r' : ρ} (hr : key r' = key r) (k : κ) :
    (t'.update r').find k = if k = key r' then some r' else t.find k := by
  rw [Table.find_update, Table.find_insert ht, hr]
  split_ifs with hk
  · rfl
  · rfl

end Fresh

/-- A session that was just recorded, in any state it comes to, beside the rows it came
with. -/
theorem InOwnScope.of_session {b b' : Backend} {t : Table UploadSession.id}
    {s : UploadSession} (hrest : InOwnScope user b ⟨{ b'.db with sessions := b.db.sessions },
      b'.storage⟩) (s' : UploadSession)
    (ht : b.db.sessions.insert s = some t) (hid : s'.id = s.id)
    (hscope : s'.scope = ⟨user.id, user.tenantId⟩) (hsessions : b'.db.sessions = t.update s') :
    InOwnScope user b b' := by
  obtain ⟨hold, hnew⟩ := find_fresh (hid ▸ Table.find_none_of_insert ht)
    (find_insert_update ht hid)
  obtain ⟨objects, _, usage, categories, categorySeq, links, hdb⟩ := hrest.others
  refine { hrest with
    sessions := fun id q hq => by rw [hsessions]; exact hold id q hq
    newSessions := fun id q hn hq => ?_
    others := ⟨objects, b'.db.sessions, usage, categories, categorySeq, links, ?_⟩ }
  · rw [hsessions] at hq
    rw [hnew id q hn hq]
    exact hscope
  · exact congrArg (fun db : Database => { db with sessions := b'.db.sessions }) hdb

theorem resolveCategoryIds_ok {db : Database} {ids : List ℤ} {cs : List Category}
    (h : resolveCategoryIds db user ids = .ok cs) {c : Category} (hc : c ∈ cs) :
    c ∈ db.categories ∧ c.id ∈ ids ∧ inScope user c = true := by
  obtain ⟨i, hi, hfound⟩ := mem_of_mapM_eq_ok h hc
  have hi : i ∈ ids := List.mem_eraseDups.mp hi
  split at hfound
  · rename_i row hrow
    cases hfound
    have hmem := List.mem_filter.mp (List.mem_of_find?_eq_some hrow)
    have hid : c.id = i := by simpa using List.find?_some hrow
    exact ⟨hmem.1, hid ▸ hi, hmem.2⟩
  · obtain ⟨⟨hmem, hid⟩, hscope⟩ := loadCategory_eq_ok.mp hfound
    exact ⟨hmem, hid ▸ hi, hscope⟩

/-- A new object of the user's, with what comes with it. -/
theorem inOwnScope_insert {b : Backend} {o : MediaObject} {t : Table MediaObject.id}
    {usage : UsageTable} {links : Finset (UUID × ℤ)} {st : Storage}
    (ht : b.db.objects.insert o = some t) (ho : o.ImportedBy user)
    (husage : ∀ scope ≠ ⟨user.id, user.tenantId⟩, usage.find scope = b.db.usage.find scope)
    (hlinks : ∀ l ∈ links, l ∉ b.db.links → ∃ c, Mine user b.db c ∧ c.id = l.2)
    (hst : ∀ l, ¬ user.OwnsKey l.objectKey → st.content l = b.storage.content l) :
    InOwnScope user b ⟨{ b.db with
      usage := usage
      objects := t
      links := links }, st⟩ := by
  obtain ⟨hold, hnew⟩ := find_fresh (Table.find_none_of_insert ht) (Table.find_insert ht)
  exact { InOwnScope.refl user b with
    objects := fun id q hq => .inl (hold id q hq)
    newObjects := fun id q hn hq => hnew id q hn hq ▸ ho
    usage := husage
    filings := hlinks
    contents := hst
    others := ⟨_, _, _, _, _, _, rfl⟩ }

/-- A completion of the session that was just recorded. -/
theorem UploadEnds.inOwnScope {b : Backend} {t : Table UploadSession.id} {s : UploadSession}
    {faults : Faults} {now : Timestamp} {sha256 : Option String} {categories : List Category}
    {r : Backend × Except Failure MediaObject}
    (hends : UploadEnds env ⟨{ b.db with sessions := t }, b.storage⟩ faults now user s.id
      ⟨sha256, some (categories.map Category.id)⟩ r)
    (ht : b.db.sessions.insert s = some t) (hscope : s.scope = ⟨user.id, user.tenantId⟩)
    (hkey : user.OwnsKey s.objectKey) (hcategories : ∀ c ∈ categories, Mine user b.db c) :
    InOwnScope user b r.1 := by
  have hself : t.find s.id = some s := Table.find_insert_self ht
  have hloaded : ∀ {s'}, loadOwnedSession { b.db with sessions := t } user s.id = .ok s' →
      s' = s := by
    intro s' hload
    obtain ⟨hfind, hid, -⟩ := loadOwnedSession_ok hload
    rw [hid] at hfind
    exact Option.some.inj (hfind.symm.trans hself)
  have himported : ∀ size sha256 status, status = .uploaded ∨ status = .rejected →
      (sessionObject s s.expectedMimeType size sha256 status now).ImportedBy user := by
    intro size sha256 status hstatus
    exact ⟨congrArg Scope.ownerUserId hscope, congrArg Scope.tenantId hscope, hstatus, rfl⟩
  have hlocation : ∀ l : Location, ¬ user.OwnsKey l.objectKey → l ≠ s.location := by
    rintro _ hl rfl
    exact hl hkey
  cases hends with
  | refused _ hst hdb =>
    have hrest : InOwnScope user b { b with storage := _ } := .of_contents fun l _ => hst l
    rcases hdb with rfl | ⟨s', hload, -, -, rfl⟩
    · exact hrest.of_session s ht rfl hscope (Table.update_self hself).symm
    · obtain rfl := hloaded hload
      exact hrest.of_session { s' with status := .expired } ht rfl hscope rfl
  | @rejected s' _ _ _ _ _ hload _ _ hinsert hst husage =>
    obtain rfl := hloaded hload
    refine InOwnScope.of_session ?_ { s' with status := .aborted } ht rfl hscope rfl
    exact inOwnScope_insert hinsert (himported _ _ _ (.inr rfl)) (hscope ▸ husage)
      (fun l hl hn => absurd hl hn) fun l hl => hst l (hlocation l hl)
  | @promoted s' _ _ _ _ _ cs hload _ hcs _ _ _ hinsert hst husage =>
    obtain rfl := hloaded hload
    refine InOwnScope.of_session ?_ { s' with status := .completed, completedAt := some now }
      ht rfl hscope rfl
    refine inOwnScope_insert hinsert (himported _ _ _ (.inl rfl)) (hscope ▸ husage)
      (fun l hl hn => ?_) fun l _ => hst l
    rcases Finset.mem_union.mp hl with hl | hl
    · exact absurd (Finset.mem_filter.mp hl).1 hn
    · obtain ⟨i, hi, rfl⟩ := List.mem_map.mp (List.mem_toFinset.mp hl)
      obtain ⟨c, hc, rfl⟩ := List.mem_map.mp hi
      obtain ⟨hmem, hid, -⟩ := resolveCategoryIds_ok hcs hc
      obtain ⟨c', hc', hid⟩ := List.mem_map.mp hid
      have hmine := hcategories c' hc'
      obtain rfl := Table.eq_of_key_eq hmine.1 hmem hid
      exact ⟨c', hmine, rfl⟩

/-- Recording the session of a staged upload and completing it. -/
theorem inOwnScope_recordAndComplete {b : Backend} {db : Database} (ctx : RowContext)
    {entry : ImportObjectEntry} {staged : StagedUpload} {req : UploadInitiateRequest} {id : UUID}
    {categories : List Category} (paths : List String)
    (hstaged : stageUpload env db user req id = .ok staged)
    (hcategories : ∀ c ∈ categories, Mine user b.db c) :
    InOwnScope user b
      (recordAndComplete env b ctx user entry staged req categories paths).1 := by
  obtain ⟨-, howner, htenant, hkey⟩ := stageUpload_ok hstaged
  unfold recordAndComplete
  dsimp only
  split
  · exact .refl user b
  · rename_i db₁ hrecord
    obtain ⟨-, t, ht, rfl⟩ := Database.insertSession_ok hrecord
    have hends := ends_completeUpload env ⟨{ b.db with sessions := t }, b.storage⟩ ctx.faults
      ctx.completedAt user staged.mediaId ⟨entry.sha256, some (categories.map Category.id)⟩
    have hcompleted := UploadEnds.inOwnScope hends ht
      (by rw [UploadSession.scope, stagedSession, howner, htenant])
      (by rw [stagedSession, hkey]; exact ownsKey_buildObjectKey user id _ _) hcategories
    split <;> rename_i heq <;> rw [heq] at hcompleted <;> exact hcompleted

/-- A row of an archive. -/
theorem inOwnScope_importOneFile (env : Env) (b : Backend) (ctx : RowContext)
    (info : Option ZipInfo) (entry : ImportObjectEntry) {categories : List Category}
    (paths : List String)
    (hcategories : ∀ c ∈ categories, Mine user b.db c) :
    InOwnScope user b (importOneFile env b ctx user info entry categories paths).1 := by
  rcases importOneFile_cases env b ctx user info entry categories paths with
    ⟨_, _, _, he⟩ | ⟨_, -, he⟩ | ⟨o, hmatch, he⟩ | ⟨_, req, staged, -, -, hstaged, hrow⟩
  · rw [he]
    exact .refl user b
  · rw [he]
    exact .refl user b
  · rw [he]
    obtain ⟨ho, -, -, hown⟩ := importableMatch_eq_some hmatch
    exact inOwnScope_fileInto ctx.recordedAt (Table.find_of_mem ho) hown hcategories
  · have hkey : user.OwnsKey staged.objectKey := by
      rw [(stageUpload_ok hstaged).2.2.2]
      exact ownsKey_buildObjectKey user _ _ _
    have hother : ∀ l : Location, ¬ user.OwnsKey l.objectKey → l ≠ staged.location := by
      rintro _ hl rfl
      exact hl hkey
    rcases hrow with ⟨_, _, _, he⟩ | ⟨data, st, hput, he⟩
    · rw [he]
      refine .of_contents fun l hl => ?_
      rw [Storage.content_bestEffortRemove, if_neg fun h => hother l hl h.2]
    · rw [he]
      have hstored : InOwnScope user b { b with storage := st } :=
        .of_contents fun l hl => by
          rw [Storage.content_putObjectStream hput, if_neg (hother l hl)]
      exact hstored.trans (inOwnScope_recordAndComplete ctx paths hstaged hcategories)

theorem inOwnScope_importManifestEntry (b : Backend) (ctx : RowContext)
    (entry : ImportObjectEntry) {categories : List Category} (paths : List String)
    (hcategories : ∀ c ∈ categories, Mine user b.db c) :
    InOwnScope user b (importManifestEntry b ctx user entry categories paths).1 := by
  unfold importManifestEntry
  split
  · exact .refl user b
  · exact .refl user b
  · rename_i o hmatch
    obtain ⟨ho, -, -, hown⟩ := importableMatch_eq_some hmatch
    exact inOwnScope_fileInto ctx.recordedAt (Table.find_of_mem ho) hown hcategories

/-! ### The import -/

/-- An import stays in its caller's scope. -/
theorem inOwnScope_runImport (env : Env) (b : Backend) (ctx : ℕ → RowContext) (user : UserModel)
    (source : ImportSource) : InOwnScope user b (runImport env b ctx user source).1 := by
  obtain ⟨hadds, htree⟩ := addsCategories_recreateTree env user source.document b.db
  let standing : Backend := ⟨(recreateTree env b.db user source.document).1, b.storage⟩
  have hrun : (runImport env b ctx user source).1 = b ∨
      InOwnScope user b (runImport env b ctx user source).1 ∧
        InOwnScope user standing (runImport env b ctx user source).1 := by
    refine runImport_eq_or_inv (I := fun b' => InOwnScope user b b' ∧ InOwnScope user standing b')
      ⟨hadds.inOwnScope b.storage, .refl user _⟩
      fun tree htree' i b' entry _ categories paths hcat hb => ?_
    have hmine : ∀ c ∈ categories, Mine user b'.db c := by
      intro c hc
      obtain ⟨path, -, chain, -, hp⟩ := (mem_categoriesFor hcat).1 c hc
      obtain ⟨hmem, hscope⟩ := htree tree htree' _ hp
      exact ⟨hb.2.categories c hmem, hscope⟩
    have hentry := inOwnScope_importManifestEntry b' (ctx i) entry paths hmine
    refine ⟨⟨hb.1.trans hentry, hb.2.trans hentry⟩, fun info => ?_⟩
    have hfile := inOwnScope_importOneFile env b' (ctx i) info entry paths hmine
    exact ⟨hb.1.trans hfile, hb.2.trans hfile⟩
  rcases hrun with heq | hscope
  · rw [heq]
    exact .refl user b
  · exact hscope.1

end MediaService
