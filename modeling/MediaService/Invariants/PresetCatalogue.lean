import MediaService.Invariants.ObjectLife
import MediaService.Controllers.Presets

/-! The catalogue of presets. To each owner in a tenant it gives at most one recipe under a
name, over the built-ins. Requests make of it what they say, by name and by id, and nothing
else does; what a caller lists is what the caller's jobs are expanded by. -/

namespace MediaService

open Foundation

variable {env : Env} {db : Database} {user : UserModel} {name : String}

/-! ### Catalogues -/

/-- The recipes of each scope, by name, with their ids. -/
abbrev Catalogue := Scope → String → Option (UUID × PresetSpec)

namespace Catalogue

/-- No recipe has the id. -/
def Free (c : Catalogue) (id : UUID) : Prop := ∀ scope name spec, c scope name ≠ some (id, spec)

/-- A new recipe under a name that the scope has free, with an id that no other has. -/
noncomputable def add (c : Catalogue) (scope : Scope) (name : String) (id : UUID)
    (spec : PresetSpec) : Catalogue :=
  open Classical in
  fun scope' name' =>
    if (scope', name') = (scope, name) ∧ c scope name = none ∧ c.Free id then some (id, spec)
    else c scope' name'

/-- What becomes of the recipe with an id, where the caller may change it. -/
def change (c : Catalogue) (user : UserModel) (id : UUID) (spec : Option PresetSpec) :
    Catalogue :=
  fun scope name =>
    if (c scope name).any fun e => e.1 = id ∧ (user.isSuperuser ∨ scope.ownerUserId = user.id)
    then spec.map fun spec => (id, spec)
    else c scope name

/-- What a request makes of the catalogue. -/
noncomputable def step (c : Catalogue) : Request → Catalogue
  | .createPreset id user body => c.add ⟨user.id, user.tenantId⟩ body.name id body.spec
  | .updatePreset user id spec => c.change user id (some spec)
  | .deletePreset user id => c.change user id none
  | _ => c

end Catalogue

/-! ### The rows -/

/-- The recipe is a scope's under a name. -/
def ImagePreset.In (p : ImagePreset) (scope : Scope) (name : String) : Prop :=
  p.ownerUserId = scope.ownerUserId ∧ p.tenantId = scope.tenantId ∧ p.name = name

instance (p : ImagePreset) (scope : Scope) (name : String) : Decidable (p.In scope name) :=
  inferInstanceAs (Decidable (_ ∧ _ ∧ _))

/-- A scope has at most one recipe under a name. -/
def PresetsKept (db : Database) : Prop :=
  ∀ p ∈ db.presets, ∀ q ∈ db.presets, ∀ scope name, p.In scope name → q.In scope name → p = q

/-- The catalogue that the rows make up. -/
def catalogueOf (db : Database) : Catalogue := fun scope name =>
  (db.presets.rows.find? fun p => p.In scope name).map fun p => (p.id, p.spec)

theorem catalogueOf_eq_some (h : PresetsKept db) {scope : Scope} {e : UUID × PresetSpec} :
    catalogueOf db scope name = some e ↔
      ∃ p ∈ db.presets, p.In scope name ∧ p.id = e.1 ∧ p.spec = e.2 := by
  unfold catalogueOf
  rw [Option.map_eq_some_iff]
  constructor
  · rintro ⟨p, hfind, rfl⟩
    exact ⟨p, List.mem_of_find?_eq_some hfind, by simpa using List.find?_some hfind, rfl, rfl⟩
  · rintro ⟨p, hp, hin, hid, hspec⟩
    cases hfind : db.presets.rows.find? fun p => p.In scope name with
    | none =>
      have hnone := List.find?_eq_none.mp hfind p hp
      exact absurd (decide_eq_true hin) hnone
    | some q =>
      have hq : q.In scope name := by simpa using List.find?_some hfind
      obtain rfl := h p hp q (List.mem_of_find?_eq_some hfind) scope name hin hq
      exact ⟨p, rfl, Prod.ext hid hspec⟩

theorem catalogueOf_eq_none {scope : Scope} :
    catalogueOf db scope name = none ↔ ∀ p ∈ db.presets, ¬ p.In scope name := by
  unfold catalogueOf
  rw [Option.map_eq_none_iff, List.find?_eq_none]
  simp only [decide_eq_true_eq]
  rfl

theorem free_catalogueOf (h : PresetsKept db) {id : UUID} :
    (catalogueOf db).Free id ↔ db.presets.find id = none := by
  rw [Table.find_eq_none]
  constructor
  · intro hfree p hp hid
    exact hfree ⟨p.ownerUserId, p.tenantId⟩ p.name p.spec
      ((catalogueOf_eq_some h).mpr ⟨p, hp, ⟨rfl, rfl, rfl⟩, hid, rfl⟩)
  · intro hnone scope name spec he
    obtain ⟨p, hp, -, hid, -⟩ := (catalogueOf_eq_some h).mp he
    exact hnone p hp hid

/-! ### Requests -/

theorem createPreset_ok_iff {presetId : UUID} {body : ImagePresetCreate} {db' : Database} :
    createPreset db presetId user body = .ok db' ↔
      catalogueOf db ⟨user.id, user.tenantId⟩ body.name = none ∧
        ∃ t, db.presets.insert ⟨presetId, user.id, user.tenantId, body.name, body.spec⟩ = some t ∧
          db' = { db with presets := t } := by
  have hfree : (db.presets.rows.any fun p =>
      p.ownerUserId = user.id ∧ p.name = body.name ∧ p.tenantId = user.tenantId) = true ↔
        ¬ catalogueOf db ⟨user.id, user.tenantId⟩ body.name = none := by
    rw [catalogueOf_eq_none, List.any_eq_true]
    push Not
    refine exists_congr fun p => and_congr_right fun _ => ?_
    rw [decide_eq_true_eq, ImagePreset.In, and_comm (a := p.name = body.name)]
  unfold createPreset
  split
  · rename_i htaken
    refine ⟨fun h => absurd h refuse_ne_ok, fun h => absurd h.1 (hfree.mp htaken)⟩
  · rename_i hnone
    rw [hfree, not_not] at hnone
    cases ht : db.presets.insert ⟨presetId, user.id, user.tenantId, body.name, body.spec⟩ with
    | none => simp
    | some t =>
      constructor
      · intro h
        cases h
        exact ⟨hnone, t, rfl, rfl⟩
      · rintro ⟨-, t', ht', rfl⟩
        cases ht'
        rfl

theorem loadOwnedPreset_ok_iff {presetId : UUID} {row : ImagePreset} :
    loadOwnedPreset db user presetId = .ok row ↔
      db.presets.find presetId = some row ∧
        (user.isSuperuser = true ∨ row.ownerUserId = user.id) := by
  unfold loadOwnedPreset
  cases hfind : db.presets.find presetId with
  | none => simp [refuse]
  | some row' =>
    dsimp only
    split
    · rename_i hforeign
      simp only [Bool.not_eq_true', ne_eq] at hforeign
      refine ⟨fun h => absurd h refuse_ne_ok, ?_⟩
      rintro ⟨he, hmay⟩
      cases he
      simp [hforeign] at hmay
    · rename_i hmay
      constructor
      · intro h
        cases h
        refine ⟨rfl, ?_⟩
        by_contra hnot
        push Not at hnot
        exact hmay ⟨by simpa using hnot.1, hnot.2⟩
      · rintro ⟨he, -⟩
        cases he
        rfl

/-! ### One request -/

theorem presetsKept_insert (h : PresetsKept db) {row : ImagePreset} {t : Table ImagePreset.id}
    (hnone : catalogueOf db ⟨row.ownerUserId, row.tenantId⟩ row.name = none)
    (ht : db.presets.insert row = some t) : PresetsKept { db with presets := t } := by
  have hnew : ∀ p ∈ db.presets, ∀ scope name, p.In scope name → ¬ row.In scope name := by
    rintro p hp scope name hin ⟨howner, htenant, rfl⟩
    refine catalogueOf_eq_none.mp hnone p hp ⟨?_, ?_, hin.2.2⟩
    · exact hin.1.trans howner.symm
    · exact hin.2.1.trans htenant.symm
  intro p hp q hq scope name hpin hqin
  rcases (Table.mem_insert ht).mp hp with hp | rfl <;>
    rcases (Table.mem_insert ht).mp hq with hq | rfl
  · exact h p hp q hq scope name hpin hqin
  · exact absurd hqin (hnew p hp scope name hpin)
  · exact absurd hpin (hnew q hq scope name hqin)
  · rfl

theorem catalogueOf_insert (h : PresetsKept db) {row : ImagePreset} {t : Table ImagePreset.id}
    (hnone : catalogueOf db ⟨row.ownerUserId, row.tenantId⟩ row.name = none)
    (ht : db.presets.insert row = some t) :
    catalogueOf { db with presets := t } =
      (catalogueOf db).add ⟨row.ownerUserId, row.tenantId⟩ row.name row.id row.spec := by
  have hkept := presetsKept_insert h hnone ht
  have hfree : (catalogueOf db).Free row.id :=
    (free_catalogueOf h).mpr (Table.insert_isSome.mp (by rw [ht]; rfl))
  funext scope name
  refine Option.ext fun e => ?_
  rw [catalogueOf_eq_some hkept, Catalogue.add]
  split
  · rename_i hin
    obtain ⟨hwhere, -, -⟩ := hin
    obtain ⟨rfl, rfl⟩ := Prod.mk.inj hwhere
    rw [Option.some.injEq]
    constructor
    · rintro ⟨p, hp, hpin, hid, hspec⟩
      obtain rfl : p = row := hkept p hp row ((Table.mem_insert ht).mpr (.inr rfl)) _ _ hpin
        ⟨rfl, rfl, rfl⟩
      exact Prod.ext hid hspec
    · rintro rfl
      exact ⟨row, (Table.mem_insert ht).mpr (.inr rfl), ⟨rfl, rfl, rfl⟩, rfl, rfl⟩
  · rename_i hout
    rw [catalogueOf_eq_some h]
    refine exists_congr fun p => and_congr_left fun hp => ?_
    rw [Table.mem_insert ht, or_iff_left]
    rintro rfl
    refine hout ⟨?_, hnone, hfree⟩
    obtain ⟨⟨howner, htenant, hname⟩, -⟩ := hp
    rw [hname]
    congr 1
    cases scope
    congr 1 <;> exact Eq.symm ‹_›

/-- The rows when one that the caller may change is rewritten or gone. -/
structure Changes (db : Database) (user : UserModel) (row : ImagePreset)
    (spec : Option PresetSpec) (t : Table ImagePreset.id) : Prop where
  row_mem : row ∈ db.presets
  may : user.isSuperuser = true ∨ row.ownerUserId = user.id
  mem : ∀ p, p ∈ t ↔ (p ∈ db.presets ∧ p.id ≠ row.id) ∨
    ∃ s, spec = some s ∧ p = { row with spec := s }

theorem Changes.presetsKept {row : ImagePreset} {spec : Option PresetSpec}
    {t : Table ImagePreset.id} (hc : Changes db user row spec t) (h : PresetsKept db) :
    PresetsKept { db with presets := t } := by
  have hnew : ∀ p ∈ db.presets, p.id ≠ row.id → ∀ scope name s, p.In scope name →
      ¬ ({ row with spec := s } : ImagePreset).In scope name :=
    fun p hp hne scope name s hpin hrow =>
      hne (congrArg ImagePreset.id (h p hp row hc.row_mem scope name hpin hrow))
  intro p hp q hq scope name hpin hqin
  rcases (hc.mem p).mp hp with ⟨hp, hpne⟩ | ⟨s, hs, rfl⟩ <;>
    rcases (hc.mem q).mp hq with ⟨hq, hqne⟩ | ⟨s', hs', rfl⟩
  · exact h p hp q hq scope name hpin hqin
  · exact absurd hqin (hnew p hp hpne scope name s' hpin)
  · exact absurd hpin (hnew q hq hqne scope name s hqin)
  · cases hs.symm.trans hs'
    rfl

theorem Changes.catalogueOf {row : ImagePreset} {spec : Option PresetSpec}
    {t : Table ImagePreset.id} (hc : Changes db user row spec t) (h : PresetsKept db) :
    catalogueOf { db with presets := t } = (catalogueOf db).change user row.id spec := by
  have hkept := hc.presetsKept h
  funext scope name
  by_cases hin : row.In scope name
  · have hhas : MediaService.catalogueOf db scope name = some (row.id, row.spec) :=
      (catalogueOf_eq_some h).mpr ⟨row, hc.row_mem, hin, rfl, rfl⟩
    have hmay : user.isSuperuser = true ∨ scope.ownerUserId = user.id := hin.1 ▸ hc.may
    rw [Catalogue.change, hhas, Option.any_some, if_pos (by simp [hmay])]
    cases spec with
    | none =>
      refine catalogueOf_eq_none.mpr fun p hp hpin => ?_
      rcases (hc.mem p).mp hp with ⟨hp, hne⟩ | ⟨s, hs, -⟩
      · exact hne (congrArg ImagePreset.id (h p hp row hc.row_mem scope name hpin hin))
      · cases hs
    | some s =>
      exact (catalogueOf_eq_some hkept).mpr
        ⟨{ row with spec := s }, (hc.mem _).mpr (.inr ⟨s, rfl, rfl⟩), hin, rfl, rfl⟩
  · have hother : ∀ e, MediaService.catalogueOf db scope name = some e → e.1 ≠ row.id := by
      rintro e he hid
      obtain ⟨p, hp, hpin, hpid, -⟩ := (catalogueOf_eq_some h).mp he
      exact hin (Table.eq_of_key_eq hp hc.row_mem (hpid.trans hid) ▸ hpin)
    rw [Catalogue.change, if_neg]
    · refine Option.ext fun e => ?_
      rw [catalogueOf_eq_some hkept, catalogueOf_eq_some h]
      refine exists_congr fun p => and_congr_left fun hp => ?_
      rw [hc.mem]
      constructor
      · rintro (⟨hp, -⟩ | ⟨s, -, rfl⟩)
        · exact hp
        · exact absurd hp.1 hin
      · exact fun hmem => .inl ⟨hmem, fun hid => hin
          (Table.eq_of_key_eq hmem hc.row_mem hid ▸ hp.1)⟩
    · rw [Option.any_eq_true]
      rintro ⟨e, he, hcond⟩
      exact hother e he (by simpa using (of_decide_eq_true hcond).1)

/-- What a caller may not change is as it was. -/
theorem change_of_refused (h : PresetsKept db) {id : UUID} {e : Failure}
    (hrefused : loadOwnedPreset db user id = .error e) (spec : Option PresetSpec) :
    (catalogueOf db).change user id spec = catalogueOf db := by
  funext scope name
  rw [Catalogue.change, if_neg]
  rw [Option.any_eq_true]
  rintro ⟨entry, he, hcond⟩
  obtain ⟨hid, hmay⟩ := of_decide_eq_true hcond
  obtain ⟨p, hp, hpin, hpid, -⟩ := (catalogueOf_eq_some h).mp he
  have hok : loadOwnedPreset db user id = .ok p := by
    refine loadOwnedPreset_ok_iff.mpr ⟨?_, hmay.imp_right fun ho => hpin.1.trans ho⟩
    rw [← hid, ← hpid]
    exact Table.find_of_mem hp
  cases hrefused.symm.trans hok

theorem catalogueOf_createPreset (h : PresetsKept db) (b : Backend) (hb : b.db = db) (id : UUID)
    (user : UserModel) (body : ImagePresetCreate) :
    let b' := b.withDb (createPreset db id user body)
    PresetsKept b'.db ∧ catalogueOf b'.db =
      (catalogueOf db).add ⟨user.id, user.tenantId⟩ body.name id body.spec := by
  intro b'
  cases hc : createPreset db id user body with
  | ok db' =>
    obtain ⟨hnone, t, ht, rfl⟩ := createPreset_ok_iff.mp hc
    simp only [b', hc, Backend.withDb]
    exact ⟨presetsKept_insert h hnone ht, catalogueOf_insert h hnone ht⟩
  | error e =>
    simp only [b', hc, Backend.withDb, hb]
    refine ⟨h, ?_⟩
    funext scope name
    rw [Catalogue.add, if_neg]
    rintro ⟨-, hnone, hfree⟩
    have hinsert : (db.presets.insert
        ⟨id, user.id, user.tenantId, body.name, body.spec⟩).isSome :=
      Table.insert_isSome.mpr ((free_catalogueOf h).mp hfree)
    obtain ⟨t, ht⟩ := Option.isSome_iff_exists.mp hinsert
    cases hc.symm.trans (createPreset_ok_iff.mpr ⟨hnone, t, ht, rfl⟩)

theorem catalogueOf_updatePreset (h : PresetsKept db) (b : Backend) (hb : b.db = db) (id : UUID)
    (user : UserModel) (spec : PresetSpec) :
    let b' := b.withDb (updatePreset db user id spec)
    PresetsKept b'.db ∧ catalogueOf b'.db = (catalogueOf db).change user id (some spec) := by
  intro b'
  cases hload : loadOwnedPreset db user id with
  | error e =>
    simp only [b', updatePreset, hload, Backend.withDb, hb]
    exact ⟨h, (change_of_refused h hload _).symm⟩
  | ok row =>
    obtain ⟨hfind, hmay⟩ := loadOwnedPreset_ok_iff.mp hload
    obtain rfl : row.id = id := Table.key_of_find hfind
    have hchanges : Changes db user row (some spec)
        (db.presets.update { row with spec := spec }) := by
      have hfind' : db.presets.find ({ row with spec := spec } : ImagePreset).id = some row := hfind
      refine ⟨Table.mem_of_find hfind, hmay, fun p => ?_⟩
      rw [Table.mem_update hfind', or_comm]
      simp
    simp only [b', updatePreset, hload, Backend.withDb]
    exact ⟨hchanges.presetsKept h, hchanges.catalogueOf h⟩

theorem catalogueOf_deletePreset (h : PresetsKept db) (b : Backend) (hb : b.db = db) (id : UUID)
    (user : UserModel) :
    let b' := b.withDb (deletePreset db user id)
    PresetsKept b'.db ∧ catalogueOf b'.db = (catalogueOf db).change user id none := by
  intro b'
  cases hload : loadOwnedPreset db user id with
  | error e =>
    simp only [b', deletePreset, hload, Backend.withDb, hb]
    exact ⟨h, (change_of_refused h hload _).symm⟩
  | ok row =>
    obtain ⟨hfind, hmay⟩ := loadOwnedPreset_ok_iff.mp hload
    obtain rfl : row.id = id := Table.key_of_find hfind
    have hchanges : Changes db user row none (db.presets.erase row.id) := by
      refine ⟨Table.mem_of_find hfind, hmay, fun p => ?_⟩
      rw [Table.mem_erase]
      simp
    simp only [b', deletePreset, hload, Backend.withDb]
    exact ⟨hchanges.presetsKept h, hchanges.catalogueOf h⟩

/-- A request makes of the catalogue what it says. -/
theorem catalogueOf_serve {w : World} (h : PresetsKept w.backend.db) (r : Request) :
    PresetsKept (serve env w r).backend.db ∧
      catalogueOf (serve env w r).backend.db = (catalogueOf w.backend.db).step r := by
  have hsame : .presets ∉ r.tables → PresetsKept (serve env w r).backend.db ∧
      catalogueOf (serve env w r).backend.db = catalogueOf w.backend.db := by
    intro ht
    have hpresets : (serve env w r).backend.db.presets = w.backend.db.presets :=
      @sameTable_serve env w r .presets ht
    unfold PresetsKept catalogueOf
    rw [hpresets]
    exact ⟨h, rfl⟩
  rw [serve_backend] at hsame ⊢
  cases r with
  | createPreset id user body => exact catalogueOf_createPreset h w.backend rfl id user body
  | updatePreset user id spec => exact catalogueOf_updatePreset h w.backend rfl id user spec
  | deletePreset user id => exact catalogueOf_deletePreset h w.backend rfl id user
  | _ => exact hsame (by simp [Request.tables, importTables])

/-! ### Listings -/

/-- What a catalogue shows a scope: its recipes, and the built-ins under other names. -/
def Catalogue.Shows (c : Catalogue) (scope : Scope) (p : ImagePresetPublic) : Prop :=
  (∃ id, c scope p.name = some (id, p.spec) ∧ p = ⟨some id, p.name, p.spec, false⟩) ∨
    c scope p.name = none ∧ (p.name, p.spec) ∈ builtinPresets ∧ p = ⟨none, p.name, p.spec, true⟩

theorem builtinPresets_nodup : (builtinPresets.map Prod.fst).Nodup := by
  decide

theorem lookup_iff_mem {α β : Type} [BEq α] [LawfulBEq α] {l : List (α × β)} {a : α} {b : β}
    (h : (l.map Prod.fst).Nodup) : l.lookup a = some b ↔ (a, b) ∈ l := by
  induction l with
  | nil => simp
  | cons e l ih =>
    obtain ⟨k, v⟩ := e
    rw [List.map_cons, List.nodup_cons] at h
    rw [List.lookup_cons, List.mem_cons, Prod.mk.injEq]
    split
    · rename_i hk
      obtain rfl := eq_of_beq hk
      have hout : ∀ b, (a, b) ∉ l := fun b hb => h.1 (List.mem_map.mpr ⟨(a, b), hb, rfl⟩)
      simp [hout, eq_comm]
    · rename_i hk
      have hne : a ≠ k := by simpa using hk
      rw [ih h.2]
      simp [hne]

/-- The rows that a caller's listing is made of. -/
def presetRows (db : Database) (user : UserModel) : List ImagePreset :=
  db.presets.rows.filter fun p => p.ownerUserId = user.id ∧ p.tenantId = user.tenantId

theorem mem_presetRows {p : ImagePreset} :
    p ∈ presetRows db user ↔ p ∈ db.presets ∧ p.In ⟨user.id, user.tenantId⟩ p.name := by
  rw [presetRows, List.mem_filter, decide_eq_true_eq, ImagePreset.In, and_iff_left rfl]
  rfl

theorem shadowed_iff : ((presetRows db user).any fun row => row.name = name) = false ↔
    catalogueOf db ⟨user.id, user.tenantId⟩ name = none := by
  rw [List.any_eq_false, catalogueOf_eq_none]
  simp only [decide_eq_true_eq, mem_presetRows]
  constructor
  · rintro h p hp hin
    exact h p ⟨hp, hin.1, hin.2.1, rfl⟩ hin.2.2
  · rintro h p ⟨hp, hin⟩ rfl
    exact h p hp hin

theorem mem_listPresets (h : PresetsKept db) {p : ImagePresetPublic} :
    p ∈ listPresets db user ↔ (catalogueOf db).Shows ⟨user.id, user.tenantId⟩ p := by
  have hrows : p ∈ (presetRows db user).map ImagePreset.rowPublic ↔
      ∃ id, catalogueOf db ⟨user.id, user.tenantId⟩ p.name = some (id, p.spec) ∧
        p = ⟨some id, p.name, p.spec, false⟩ := by
    rw [List.mem_map]
    constructor
    · rintro ⟨row, hrow, rfl⟩
      obtain ⟨hmem, hin⟩ := mem_presetRows.mp hrow
      exact ⟨row.id, (catalogueOf_eq_some h).mpr ⟨row, hmem, hin, rfl, rfl⟩, rfl⟩
    · rintro ⟨id, he, hp⟩
      obtain ⟨row, hmem, hin, hid, hspec⟩ := (catalogueOf_eq_some h).mp he
      refine ⟨row, mem_presetRows.mpr ⟨hmem, hin.1, hin.2.1, rfl⟩, ?_⟩
      rw [hp, ImagePreset.rowPublic, hid, hspec, hin.2.2]
  have hbuiltins : p ∈ (builtinPresets.filter fun e =>
        !(presetRows db user).any fun row => row.name = e.1).map (fun e => ⟨none, e.1, e.2, true⟩) ↔
      catalogueOf db ⟨user.id, user.tenantId⟩ p.name = none ∧
        (p.name, p.spec) ∈ builtinPresets ∧ p = ⟨none, p.name, p.spec, true⟩ := by
    rw [List.mem_map]
    constructor
    · rintro ⟨e, he, rfl⟩
      obtain ⟨hmem, hfree⟩ := List.mem_filter.mp he
      exact ⟨shadowed_iff.mp (by simpa using hfree), hmem, rfl⟩
    · rintro ⟨hnone, hmem, hp⟩
      refine ⟨(p.name, p.spec), List.mem_filter.mpr ⟨hmem, ?_⟩, hp.symm⟩
      rw [Bool.not_eq_true', shadowed_iff]
      exact hnone
  unfold listPresets Catalogue.Shows
  rw [List.mem_append, ← hrows, ← hbuiltins, or_comm]
  rfl

theorem listPresets_nodup (h : PresetsKept db) (user : UserModel) :
    ((listPresets db user).map ImagePresetPublic.name).Nodup := by
  have hnames : (listPresets db user).map ImagePresetPublic.name =
      (builtinPresets.filter fun e =>
        !(presetRows db user).any fun row => row.name = e.1).map Prod.fst ++
          (presetRows db user).map ImagePreset.name := by
    unfold listPresets
    rw [List.map_append, List.map_map, List.map_map]
    rfl
  rw [hnames]
  refine List.nodup_append.mpr ⟨?_, ?_, ?_⟩
  · exact builtinPresets_nodup.sublist (List.filter_sublist.map _)
  · refine List.Nodup.map_on (fun p hp q hq he => ?_)
      ((List.Nodup.of_map _ db.presets.nodup).filter _)
    obtain ⟨hp, hpin⟩ := mem_presetRows.mp hp
    obtain ⟨hq, hqin⟩ := mem_presetRows.mp hq
    exact h p hp q hq _ _ hpin (he ▸ hqin)
  · rintro n hn n' hn' rfl
    obtain ⟨e, he, rfl⟩ := List.mem_map.mp hn
    obtain ⟨row, hrow, hname⟩ := List.mem_map.mp hn'
    have hfree := (List.mem_filter.mp he).2
    rw [Bool.not_eq_true', List.any_eq_false] at hfree
    exact hfree row hrow (decide_eq_true hname)

theorem lookupPreset_eq_some (h : PresetsKept db) {spec : PresetSpec} :
    lookupPreset db user name = some spec ↔
      ∃ p ∈ listPresets db user, p.name = name ∧ p.spec = spec := by
  have hlookup : lookupPreset db user name = some spec ↔
      (∃ id, catalogueOf db ⟨user.id, user.tenantId⟩ name = some (id, spec)) ∨
        catalogueOf db ⟨user.id, user.tenantId⟩ name = none ∧
          (name, spec) ∈ builtinPresets := by
    unfold lookupPreset
    dsimp only
    split
    · rename_i row hlast
      obtain ⟨hrow, hin⟩ := List.mem_filter.mp (List.mem_of_getLast? hlast)
      have hhas : catalogueOf db ⟨user.id, user.tenantId⟩ name = some (row.id, row.spec) :=
        (catalogueOf_eq_some h).mpr ⟨row, hrow, of_decide_eq_true hin, rfl, rfl⟩
      rw [hhas]
      simp
    · rename_i hlast
      have hnone : catalogueOf db ⟨user.id, user.tenantId⟩ name = none := by
        refine catalogueOf_eq_none.mpr fun p hp hin => ?_
        rw [List.getLast?_eq_none_iff, List.filter_eq_nil_iff] at hlast
        exact hlast p hp (decide_eq_true hin)
      rw [hnone, lookup_iff_mem builtinPresets_nodup]
      simp
  rw [hlookup]
  constructor
  · rintro (⟨id, he⟩ | ⟨hnone, hmem⟩)
    · exact ⟨⟨some id, name, spec, false⟩, (mem_listPresets h).mpr (.inl ⟨id, he, rfl⟩), rfl, rfl⟩
    · exact ⟨⟨none, name, spec, true⟩, (mem_listPresets h).mpr (.inr ⟨hnone, hmem, rfl⟩), rfl, rfl⟩
  · rintro ⟨p, hp, rfl, rfl⟩
    rcases (mem_listPresets h).mp hp with ⟨id, he, -⟩ | ⟨hnone, hmem, -⟩
    · exact .inl ⟨id, he⟩
    · exact .inr ⟨hnone, hmem⟩

/-- The named presets expand where each is listed. -/
theorem expandPresets_isOk_iff (h : PresetsKept db) (o : MediaObject) (names : List String) :
    (∃ res, expandPresets env db user o names = .ok res) ↔
      ∀ name ∈ names, ∃ p ∈ listPresets db user, p.name = name := by
  induction names with
  | nil => simp [expandPresets]
  | cons name names ih =>
    have hhead : (∃ spec, lookupPreset db user name = some spec) ↔
        ∃ p ∈ listPresets db user, p.name = name := by
      simp only [lookupPreset_eq_some h]
      constructor
      · rintro ⟨_, p, hp, hname, -⟩
        exact ⟨p, hp, hname⟩
      · rintro ⟨p, hp, hname⟩
        exact ⟨_, p, hp, hname, rfl⟩
    rw [List.forall_mem_cons, ← hhead, ← ih, expandPresets]
    cases lookupPreset db user name with
    | none => simp [refuse]
    | some spec =>
      cases expandPresets env db user o names with
      | error e => simp
      | ok res => simp

/-! ### Runs -/

/-- In every state the service comes to, the catalogue is what the requests made of an empty
one, one after another; and every caller lists what it shows the caller's scope, each name
once, and has jobs expanded by just what is listed. -/
theorem presetCatalogue_run (env : Env) (rs : List Request) :
    let db := (run (serve env) World.initial rs).backend.db
    catalogueOf db = rs.foldl Catalogue.step (fun _ _ => none) ∧ ∀ user,
      ((listPresets db user).map ImagePresetPublic.name).Nodup ∧
      (∀ p, p ∈ listPresets db user ↔ (catalogueOf db).Shows ⟨user.id, user.tenantId⟩ p) ∧
      (∀ name spec, lookupPreset db user name = some spec ↔
        ∃ p ∈ listPresets db user, p.name = name ∧ p.spec = spec) ∧
      ∀ o names, (∃ res, expandPresets env db user o names = .ok res) ↔
        ∀ name ∈ names, ∃ p ∈ listPresets db user, p.name = name := by
  intro db
  have hrun : ∀ (w : World), PresetsKept w.backend.db →
      PresetsKept (run (serve env) w rs).backend.db ∧
        catalogueOf (run (serve env) w rs).backend.db =
          rs.foldl Catalogue.step (catalogueOf w.backend.db) := by
    induction rs with
    | nil => exact fun w hw => ⟨hw, rfl⟩
    | cons r rs ih =>
      intro w hw
      obtain ⟨hkept, hstep⟩ := @catalogueOf_serve env w hw r
      rw [run_cons, List.foldl_cons, ← hstep]
      exact ih _ hkept
  obtain ⟨hkept, hcatalogue⟩ := hrun World.initial fun p hp => absurd hp (Table.not_mem_empty p)
  refine ⟨hcatalogue, fun user => ⟨listPresets_nodup hkept user, fun p => mem_listPresets hkept,
    fun name spec => lookupPreset_eq_some hkept, fun o names => ?_⟩⟩
  exact expandPresets_isOk_iff hkept o names

end MediaService
