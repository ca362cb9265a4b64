import MediaService.Concurrency.CategoryRace

/-! When category requests that run beside each other keep the forest. Each
commit writes one row; it keeps the parent relation free of cycles and the slugs
of siblings apart exactly if the cycle guard and the slug guard, asked again of
the rows it is about to be written into, still pass. So a run keeps both exactly
if each of its commits that the unique constraint admits does, and nothing in a
request but the reads before the commit sees to that. -/

namespace MediaService

open Foundation ParentMap

/-! ### The forest, and what the keys promise -/

/-- No category is its own ancestor, and siblings of one scope differ in slug. -/
structure SiblingForest (db : Database) : Prop where
  acyclic : ∀ i, ¬ Relation.TransGen (Child (parentMap db.categories.rows)) i i
  slug_unique : ∀ c ∈ db.categories, ∀ d ∈ db.categories, c.scopeKey = d.scopeKey →
    c.parentId = d.parentId → c.slug = d.slug → c = d

/-- The sequence is ahead of every id, and a parent is a row. -/
structure CategoryKeys (db : Database) : Prop where
  seq_fresh : ∀ c ∈ db.categories, c.id < db.categorySeq
  parent_exists : ∀ c ∈ db.categories, ∀ p ∈ c.parentId, ∃ d ∈ db.categories, d.id = p

/-- The guards of a request, asked of the row it writes. -/
def GuardsPass (db : Database) (new : Category) : Prop :=
  (∀ p ∈ new.parentId, rejectCycle db new.id p = .ok ()) ∧
    rejectDuplicateSlug db new.slug new.parentId new.tenantId new.ownerId (some new.id) = .ok ()

instance (db : Database) (new : Category) : Decidable (GuardsPass db new) :=
  inferInstanceAs (Decidable ((∀ _ ∈ _, _) ∧ _))

/-- Requests that run one after the other leave such a table. -/
theorem ForestInv.keys {settings : Settings} {db : Database} (h : ForestInv settings db) :
    CategoryKeys db :=
  ⟨h.seq_fresh, fun c hc p hp => h.categoryForest.parent_exists c hc p hp⟩

theorem ForestInv.siblingForest {settings : Settings} {db : Database} (h : ForestInv settings db) :
    SiblingForest db :=
  ⟨fun _ => h.grounded.acyclic, h.slug_unique⟩

section Write

variable {db : Database} {new : Category}

/-- The rows form a forest as high as there are rows. -/
theorem SiblingForest.grounded (h : SiblingForest db) (hkeys : CategoryKeys db) :
    Grounded (parentMap db.categories.rows) db.categories.rows.length := by
  have hnodes : ∀ x, parentMap db.categories.rows x ≠ none →
      x ∈ db.categories.rows.map Category.id := by
    intro x hx
    obtain ⟨c, hc, rfl⟩ := parentMap_ne_none.mp hx
    exact List.mem_map_of_mem hc
  have hclosed : ∀ x p, Child (parentMap db.categories.rows) x p →
      parentMap db.categories.rows p ≠ none := by
    intro x p hxp
    obtain ⟨c, hc, -, hp⟩ := parentMap_eq_some.mp hxp
    exact parentMap_ne_none.mpr (hkeys.parent_exists c hc p hp)
  intro x hx
  obtain ⟨n, hn⟩ := grounded_of_acyclic _ hnodes hclosed h.acyclic x hx
  have hle := hn.le_length _ hnodes
  rw [List.length_map] at hle
  exact ⟨n, hle, hn⟩

/-- Writing one row keeps siblings apart exactly if none of its siblings holds
its slug. -/
theorem SiblingForest.slug_unique_iff (h : SiblingForest db) {t : Table Category.id}
    (hmem : ∀ c, c ∈ t ↔ c = new ∨ c ∈ db.categories ∧ c.id ≠ new.id) :
    (∀ c ∈ t, ∀ d ∈ t, c.scopeKey = d.scopeKey → c.parentId = d.parentId → c.slug = d.slug →
        c = d) ↔
      rejectDuplicateSlug db new.slug new.parentId new.tenantId new.ownerId (some new.id) =
        .ok () := by
  rw [rejectDuplicateSlug_eq_ok, siblingWithSlug_eq_none]
  constructor
  · intro hunique c hc hslug hparent
    obtain ⟨hcat, hscope⟩ := mem_writeScope.mp hc
    by_contra hne
    have hid : c.id ≠ new.id := fun he => hne (by rw [he])
    have := hunique c ((hmem c).mpr (.inr ⟨hcat, hid⟩)) new ((hmem new).mpr (.inl rfl)) hscope
      hparent hslug
    exact hid (by rw [this])
  · intro hfree
    have hclash : ∀ c ∈ db.categories, c.id ≠ new.id → c.scopeKey = new.scopeKey →
        c.parentId = new.parentId → c.slug ≠ new.slug := by
      intro c hc hne hscope hparent hslug
      have := hfree c (mem_writeScope.mpr ⟨hc, hscope⟩) hslug hparent
      exact hne (Option.some.inj this).symm
    intro c hc d hd hscope hparent hslug
    rcases (hmem c).mp hc with rfl | ⟨hc₀, hcn⟩ <;> rcases (hmem d).mp hd with rfl | ⟨hd₀, hdn⟩
    · rfl
    · exact absurd hslug.symm (hclash d hd₀ hdn hscope.symm hparent.symm)
    · exact absurd hslug (hclash c hc₀ hcn hscope hparent)
    · exact h.slug_unique c hc₀ d hd₀ hscope hparent hslug

/-- Writing over a row keeps the forest exactly if the guards pass. -/
theorem SiblingForest.update_iff (h : SiblingForest db) (hkeys : CategoryKeys db)
    {current : Category} (hfind : db.categories.find new.id = some current)
    (hparent : ∀ p ∈ new.parentId, ∃ d ∈ db.categories, d.id = p) :
    SiblingForest { db with categories := db.categories.update new } ↔ GuardsPass db new := by
  have hmem : ∀ c, c ∈ db.categories.update new ↔ c = new ∨ c ∈ db.categories ∧ c.id ≠ new.id :=
    fun c => Table.mem_update hfind
  have hgrounded := h.grounded hkeys
  have hcurrent : parentMap db.categories.rows new.id ≠ none := by
    rw [parentMap_eq, hfind]
    simp
  have hoff : ∀ j, j ≠ new.id →
      parentMap (db.categories.update new).rows j = parentMap db.categories.rows j := by
    intro j hj
    rw [parentMap_eq, parentMap_eq, Table.find_update_ne hj]
  have hat : parentMap (db.categories.update new).rows new.id = some new.parentId :=
    parentMap_of_mem ((hmem new).mpr (.inl rfl))
  have hacyclic : (∀ i, ¬ Relation.TransGen
        (Child (parentMap (db.categories.update new).rows)) i i) ↔
      ∀ p ∈ new.parentId, rejectCycle db new.id p = .ok () := by
    cases hp : new.parentId with
    | none =>
      rw [hp] at hat
      exact ⟨fun _ p hp => (Option.not_mem_none p hp).elim,
        fun _ i => hgrounded.acyclic_uproot hcurrent hoff hat⟩
    | some p =>
      rw [hp] at hat
      have hnode : parentMap db.categories.rows p ≠ none := parentMap_ne_none.mpr (hparent p hp)
      obtain ⟨n, -, hn⟩ := hgrounded p hnode
      rw [hgrounded.acyclic_move_iff hcurrent hoff hat hnode, ← rejectCycle_eq_ok hn]
      simp
  have hslug := h.slug_unique_iff hmem
  exact ⟨fun h' => ⟨hacyclic.mp h'.acyclic, hslug.mp h'.slug_unique⟩,
    fun hg => ⟨hacyclic.mpr hg.1, hslug.mpr hg.2⟩⟩

/-- A new row keeps the forest exactly if the guards pass; the cycle guard cannot
fail for it. -/
theorem SiblingForest.insert_iff (h : SiblingForest db) (hkeys : CategoryKeys db)
    {t : Table Category.id} {seq : ℤ} (hi : db.categories.insert new = some t)
    (hparent : ∀ p ∈ new.parentId, ∃ d ∈ db.categories, d.id = p) :
    SiblingForest { db with categories := t, categorySeq := seq } ↔ GuardsPass db new := by
  have hnone : parentMap db.categories.rows new.id = none := by
    rw [parentMap_eq, Table.find_none_of_insert hi, Option.map_none]
  have hmem : ∀ c, c ∈ t ↔ c = new ∨ c ∈ db.categories ∧ c.id ≠ new.id := by
    intro c
    rw [Table.mem_insert hi, or_comm]
    refine or_congr_right ⟨fun hc => ⟨hc, fun he => ?_⟩, And.left⟩
    exact parentMap_ne_none.mpr ⟨c, hc, he⟩ hnone
  have hgrounded := h.grounded hkeys
  have hoff : ∀ j, j ≠ new.id → parentMap t.rows j = parentMap db.categories.rows j := by
    intro j hj
    rw [parentMap_eq, parentMap_eq, Table.find_insert hi, if_neg hj]
  have hat : parentMap t.rows new.id = some new.parentId :=
    parentMap_of_mem ((hmem new).mpr (.inl rfl))
  have hacyclic : ∀ i, ¬ Relation.TransGen (Child (parentMap t.rows)) i i := by
    intro i
    refine hgrounded.acyclic_insert hnone hoff ?_
    cases hp : new.parentId with
    | none => exact .inl (by rw [hat, hp])
    | some p => exact .inr ⟨p, by rw [hat, hp], parentMap_ne_none.mpr (hparent p hp)⟩
  have hcycle : ∀ p ∈ new.parentId, rejectCycle db new.id p = .ok () := by
    intro p hp
    obtain ⟨n, -, hn⟩ := hgrounded p (parentMap_ne_none.mpr (hparent p hp))
    refine (rejectCycle_eq_ok hn).mpr fun k hk => ?_
    obtain ⟨m, -, hm⟩ := hk.depth_of hn
    exact hm.node_ne_none hnone
  have hslug := h.slug_unique_iff hmem
  exact ⟨fun h' => ⟨hcycle, hslug.mp h'.slug_unique⟩, fun hg => ⟨hacyclic, hslug.mpr hg.2⟩⟩

end Write

/-! ### What a commit writes -/

/-- The database with `new` written into it: inserted under the next id, or over
the row with its id. -/
def Writes (db : Database) (new : Category) (db' : Database) : Prop :=
  (new.id = db.categorySeq ∧ ∃ t, db.categories.insert new = some t ∧
    db' = { db with categories := t, categorySeq := db.categorySeq + 1 }) ∨
  ∃ current, db.categories.find new.id = some current ∧
    db' = { db with categories := db.categories.update new }

section Commit

variable {db db' : Database} {new : Category}

theorem Writes.keeps_iff (hw : Writes db new db') (h : SiblingForest db)
    (hkeys : CategoryKeys db) (hparent : ∀ p ∈ new.parentId, ∃ d ∈ db.categories, d.id = p) :
    SiblingForest db' ↔ GuardsPass db new := by
  rcases hw with ⟨-, t, ht, rfl⟩ | ⟨current, hfind, rfl⟩
  · exact h.insert_iff hkeys ht hparent
  · exact h.update_iff hkeys hfind hparent

theorem Writes.mem (hw : Writes db new db') (hkeys : CategoryKeys db) (c : Category) :
    c ∈ db'.categories ↔ c = new ∨ c ∈ db.categories ∧ c.id ≠ new.id := by
  rcases hw with ⟨hid, t, ht, rfl⟩ | ⟨current, hfind, rfl⟩
  · rw [Table.mem_insert ht, or_comm]
    refine or_congr_right ⟨fun hc => ⟨hc, ?_⟩, And.left⟩
    have := hkeys.seq_fresh c hc
    omega
  · exact Table.mem_update hfind

/-- No id goes. -/
theorem Writes.grows (hw : Writes db new db') (hkeys : CategoryKeys db) {p : ℤ}
    (hp : ∃ d ∈ db.categories, d.id = p) : ∃ d ∈ db'.categories, d.id = p := by
  obtain ⟨d, hd, rfl⟩ := hp
  by_cases hid : d.id = new.id
  · exact ⟨new, (hw.mem hkeys new).mpr (.inl rfl), hid.symm⟩
  · exact ⟨d, (hw.mem hkeys d).mpr (.inr ⟨hd, hid⟩), rfl⟩

theorem Writes.keys (hw : Writes db new db') (hkeys : CategoryKeys db)
    (hparent : ∀ p ∈ new.parentId, ∃ d ∈ db.categories, d.id = p) : CategoryKeys db' := by
  refine ⟨fun c hc => ?_, fun c hc p hp => hw.grows hkeys ?_⟩
  · have hseq : new.id < db'.categorySeq ∧ db.categorySeq ≤ db'.categorySeq := by
      rcases hw with ⟨hid, t, ht, rfl⟩ | ⟨current, hfind, rfl⟩
      · dsimp only
        omega
      · obtain ⟨hcurrent, hid⟩ := Table.find_eq_some.mp hfind
        have := hkeys.seq_fresh current hcurrent
        dsimp only
        omega
    rcases (hw.mem hkeys c).mp hc with rfl | ⟨hc, -⟩
    · exact hseq.1
    · have := hkeys.seq_fresh c hc
      omega
  · rcases (hw.mem hkeys c).mp hc with rfl | ⟨hc, -⟩
    · exact hparent p hp
    · exact hkeys.parent_exists c hc p hp

/-- A commit writes its row where the unique constraint admits it, and nothing
else. -/
theorem commit_cases (hkeys : CategoryKeys db) (w : CategoryWrite) :
    (∃ e, w.commit db = .error e ∧ ∀ new ∈ w.row db, categoryTaken db new = true) ∨
      ∃ new db', w.commit db = .ok (db', new) ∧ w.row db = some new ∧
        categoryTaken db new = false ∧ Writes db new db' := by
  cases w with
  | insert user req =>
    simp only [CategoryWrite.commit, CategoryWrite.row, insertCategory, Option.mem_some_iff,
      forall_eq', Option.some.injEq]
    by_cases htaken : categoryTaken db
        ⟨db.categorySeq, req.name, req.slug, req.parentId, user.id, user.tenantId⟩ = true
    · exact .inl ⟨_, if_pos htaken, htaken⟩
    · rw [if_neg htaken]
      cases ht : db.categories.insert
          ⟨db.categorySeq, req.name, req.slug, req.parentId, user.id, user.tenantId⟩ with
      | none =>
        -- the sequence is ahead of every id
        obtain ⟨c, hc⟩ := Table.insert_eq_none.mp ht
        obtain ⟨hmem, hid⟩ := Table.find_eq_some.mp hc
        have := hkeys.seq_fresh c hmem
        dsimp only at hid
        omega
      | some t => exact .inr ⟨_, _, rfl, rfl, by simpa using htaken, .inl ⟨rfl, t, ht, rfl⟩⟩
  | patch user row req =>
    simp only [CategoryWrite.commit]
    cases hrow : CategoryWrite.row db (.patch user row req) with
    | none => exact .inl ⟨_, rfl, by simp⟩
    | some new =>
      dsimp only
      by_cases htaken : categoryTaken db new = true
      · exact .inl ⟨_, if_pos htaken, by simpa using htaken⟩
      · rw [if_neg htaken]
        refine .inr ⟨_, _, rfl, rfl, by simpa using htaken, .inr ?_⟩
        obtain ⟨current, hfind, rfl⟩ := Option.map_eq_some_iff.mp hrow
        have hid := Table.key_of_find hfind
        exact ⟨current, by rw [← hid] at hfind; exact hfind, rfl⟩

end Commit

/-! ### What a request stands on -/

/-- The parent a request is to write is still a row. -/
def CategoryWrite.ParentExists (db : Database) (w : CategoryWrite) : Prop :=
  ∀ p ∈ w.parentId, ∃ d ∈ db.categories, d.id = p

/-- Past the load of its parent, a request has one that exists. -/
def CategoryPlace.Fits (db : Database) : CategoryPlace → Prop
  | .parent w p => w.parentId = some p
  | .climb w _ _ | .depth w | .siblings w | .commit w => w.ParentExists db
  | .load _ _ _ | .finished _ => True

section Fits

variable {db db' : Database} {new : Category}

theorem fits_start (e : CategoryEdit) : e.start.Fits db := by
  cases e with
  | create user req =>
    simp only [CategoryEdit.start]
    split
    · rename_i hp
      intro p hp'
      rw [show CategoryWrite.parentId (.insert user req) = none from hp] at hp'
      cases hp'
    · assumption
  | update user categoryId req => trivial

theorem fits_afterLoad (hkeys : CategoryKeys db) {user : UserModel} {row : Category}
    (hrow : row ∈ db.categories) (req : CategoryUpdate) : (afterLoad user row req).Fits db := by
  unfold afterLoad
  split
  · rename_i hsame
    have hparent : (CategoryWrite.patch user row req).ParentExists db := by
      intro p hp
      exact hkeys.parent_exists row hrow p (hsame ▸ hp)
    split <;> exact hparent
  · split
    · rename_i hp
      intro p hp'
      rw [show CategoryWrite.parentId (.patch user row req) = none from hp] at hp'
      cases hp'
    · assumption

theorem fits_climbStep {w : CategoryWrite} (hw : w.ParentExists db) (ancestor : Option ℤ)
    (seen : List ℤ) : (climbStep db w ancestor seen).Fits db := by
  unfold climbStep
  split
  · exact hw
  · split
    · trivial
    · split
      · exact hw
      · split <;> exact hw

/-- Every step but a commit leaves the database alone, and the next place fits. -/
theorem fits_step (settings : Settings) (hkeys : CategoryKeys db) {p : CategoryPlace}
    (hp : p.Fits db)
    (hcommit : ∀ w, p ≠ .commit w) :
    (categoryStep settings db p).1 = db ∧ (categoryStep settings db p).2.Fits db := by
  cases p with
  | load user categoryId req =>
    simp only [categoryStep]
    split
    · exact ⟨rfl, trivial⟩
    · rename_i row hload
      exact ⟨rfl, fits_afterLoad hkeys (loadCategory_eq_ok.mp hload).1.1 req⟩
  | parent w p =>
    simp only [categoryStep]
    split
    · exact ⟨rfl, trivial⟩
    · rename_i c hload
      have hw : w.ParentExists db := by
        intro q hq
        rw [show w.parentId = some p from hp] at hq
        cases hq
        obtain ⟨hmem, hid⟩ := loadParent_ok hload
        exact ⟨c, (mem_writeScope.mp hmem).1, hid⟩
      refine ⟨rfl, ?_⟩
      dsimp only
      split <;> exact hw
  | climb w ancestor seen => exact ⟨rfl, fits_climbStep hp ancestor seen⟩
  | depth w =>
    simp only [categoryStep]
    split
    · exact ⟨rfl, trivial⟩
    · exact ⟨rfl, hp⟩
  | siblings w =>
    simp only [categoryStep]
    split
    · exact ⟨rfl, trivial⟩
    · exact ⟨rfl, hp⟩
  | commit w => exact absurd rfl (hcommit w)
  | finished answer => exact ⟨rfl, trivial⟩

theorem parentExists_row (hkeys : CategoryKeys db) {w : CategoryWrite} (hw : w.ParentExists db)
    (hnew : new ∈ w.row db) : ∀ p ∈ new.parentId, ∃ d ∈ db.categories, d.id = p := by
  intro p hp
  cases w with
  | insert user req =>
    cases hnew
    exact hw p hp
  | patch user row req =>
    obtain ⟨current, hfind, rfl⟩ := Option.map_eq_some_iff.mp hnew
    simp only [CategoryUpdate.write, column] at hp
    split at hp
    · exact hkeys.parent_exists current (Table.find_eq_some.mp hfind).1 p hp
    · exact hw p hp

/-- What a step does to the table: nothing, or it writes the row of an admitted
commit. -/
theorem categoryStep_cases (settings : Settings) (hkeys : CategoryKeys db) {p : CategoryPlace}
    (hp : p.Fits db) :
    ((categoryStep settings db p).1 = db ∧ (categoryStep settings db p).2.Fits db ∧
      ∀ w, p = .commit w → ∀ new ∈ w.row db, categoryTaken db new = true) ∨
    ∃ w new, p = .commit w ∧ w.row db = some new ∧ categoryTaken db new = false ∧
      (∀ q ∈ new.parentId, ∃ d ∈ db.categories, d.id = q) ∧
      Writes db new (categoryStep settings db p).1 ∧
      (categoryStep settings db p).2 = .finished (.ok new) := by
  by_cases hcommit : ∃ w, p = .commit w
  · obtain ⟨w, rfl⟩ := hcommit
    rcases commit_cases hkeys w with ⟨e, he, htaken⟩ | ⟨new, db', hok, hrow, htaken, hwrites⟩
    · refine .inl ?_
      simp only [categoryStep, he, CategoryPlace.commit.injEq]
      exact ⟨trivial, trivial, by rintro _ rfl; exact htaken⟩
    · refine .inr ⟨w, new, rfl, hrow, htaken, parentExists_row hkeys hp hrow, ?_⟩
      simp only [categoryStep, hok]
      exact ⟨hwrites, trivial⟩
  · obtain ⟨hdb, hfits⟩ := fits_step settings hkeys hp fun w he => hcommit ⟨w, he⟩
    exact .inl ⟨hdb, hfits, fun w he => absurd ⟨w, he⟩ hcommit⟩

/-- Rows stay, so what one request stands on outlives the others' commits. -/
theorem Fits.grows {p : CategoryPlace} (hp : p.Fits db)
    (hgrows : ∀ q, (∃ d ∈ db.categories, d.id = q) → ∃ d ∈ db'.categories, d.id = q) :
    p.Fits db' := by
  cases p with
  | climb w ancestor seen => exact fun q hq => hgrows q (hp q hq)
  | depth w => exact fun q hq => hgrows q (hp q hq)
  | siblings w => exact fun q hq => hgrows q (hp q hq)
  | commit w => exact fun q hq => hgrows q (hp q hq)
  | _ => exact hp

end Fits

/-! ### Runs -/

section Race

variable {ι : Type*} [DecidableEq ι] {settings : Settings}

/-- The guards pass again at a commit that the unique constraint admits. -/
def CategoryPlace.StillPasses (db : Database) : CategoryPlace → Prop
  | .commit w => ∀ new ∈ w.row db, categoryTaken db new = false → GuardsPass db new
  | _ => True

instance (db : Database) : (p : CategoryPlace) → Decidable (p.StillPasses db)
  | .commit w => inferInstanceAs (Decidable (∀ new ∈ w.row db, _ → _))
  | .load _ _ _ | .parent _ _ | .climb _ _ _ | .depth _ | .siblings _ | .finished _ =>
    inferInstanceAs (Decidable True)

def CommitsPass (s : Categories ι) (m : ι × Unit) : Prop := (s.place m.1).StillPasses s.shared

instance (s : Categories ι) (m : ι × Unit) : Decidable (CommitsPass s m) :=
  inferInstanceAs (Decidable ((s.place m.1).StillPasses s.shared))

/-- What every state of a run keeps, whatever the commits. -/
def RaceKeeps (s : Categories ι) : Prop :=
  CategoryKeys s.shared ∧ ∀ i, (s.place i).Fits s.shared

theorem raceKeeps_turn (s : Categories ι) (m : ι × Unit) (hs : RaceKeeps s) :
    RaceKeeps (categoryTurn settings s m) := by
  refine turn_inv (G := CategoryKeys) (L := fun _ db (p : CategoryPlace) => p.Fits db)
    ?_ ?_ ?_ hs m
  · intro _ db p _ hkeys hp
    rcases categoryStep_cases settings hkeys hp with
      ⟨hdb, -⟩ | ⟨w, new, -, -, -, hparent, hwrites, -⟩
    · rw [hdb]
      exact hkeys
    · exact hwrites.keys hkeys hparent
  · intro _ db p _ hkeys hp
    rcases categoryStep_cases settings hkeys hp with
      ⟨hdb, hfits, -⟩ | ⟨w, new, -, -, -, -, -, hdone⟩
    · rw [hdb]
      exact hfits
    · rw [hdone]
      trivial
  · intro _ _ db p q _ _ hkeys hp hq
    rcases categoryStep_cases settings hkeys hp with
      ⟨hdb, -⟩ | ⟨w, new, -, -, -, -, hwrites, -⟩
    · rw [hdb]
      exact hq
    · exact Fits.grows hq fun _ => hwrites.grows hkeys

/-- One turn keeps the forest exactly if its commit, if it is one, still passes. -/
theorem siblingForest_turn (s : Categories ι) (m : ι × Unit) (hs : RaceKeeps s)
    (h : SiblingForest s.shared) :
    SiblingForest (categoryTurn settings s m).shared ↔ CommitsPass s m := by
  obtain ⟨i, u⟩ := m
  obtain ⟨hkeys, hfits⟩ := hs
  rw [categoryTurn, turn_shared, CommitsPass]
  rcases categoryStep_cases settings hkeys (hfits i) with
    ⟨hdb, -, htaken⟩ | ⟨w, new, hplace, hrow, hfree, hparent, hwrites, -⟩
  · rw [hdb]
    refine ⟨fun _ => ?_, fun _ => h⟩
    cases hplace : s.place i with
    | commit w =>
      intro new hnew hfree
      rw [htaken w hplace new hnew] at hfree
      cases hfree
    | _ => trivial
  · rw [hwrites.keeps_iff h hkeys hparent, hplace]
    constructor
    · intro hpass new' hnew' _
      rw [Option.mem_def, hrow] at hnew'
      cases hnew'
      exact hpass
    · exact fun hpass => hpass new hrow hfree

/-- Creations and patches of any callers, in any interleaving, keep the parent
relation acyclic and sibling slugs unique throughout exactly if each commit that
the unique constraint admits still passes the guards. -/
theorem siblingForest_iff (settings : Settings) (db : Database) (edits : ι → CategoryEdit)
    (ms : List (ι × Unit)) (hkeys : CategoryKeys db) (hforest : SiblingForest db) :
    Always (categoryTurn settings) (fun s => SiblingForest s.shared) (categoryStart db edits) ms ↔
      Guarded (categoryTurn settings) CommitsPass (categoryStart db edits) ms :=
  always_iff_guarded (I := RaceKeeps) (A := fun _ _ => True)
    (fun s m hs _ _ _ => raceKeeps_turn s m hs) (fun s m hs h _ => siblingForest_turn s m hs h)
    ⟨hkeys, fun i => fits_start (edits i)⟩ hforest (guarded_of_forall (fun _ _ _ => trivial) _)

end Race

/-! ### Two moves that cross -/

/-- Two roots of one untenanted owner. -/
def twoRoots : Database :=
  [("Work", "work"), ("Home", "home")].foldl
    (fun db r => (ensureCategoryPath db (.ordinary 1) [r]).1) Database.empty

theorem twoRoots_forest : ForestInv Settings.default twoRoots :=
  (forestInv_empty.ensureCategoryPath (by decide)).ensureCategoryPath (by decide)

/-- Each root is moved below the other. -/
def crossingMoves : Bool → CategoryEdit
  | false => .update (.ordinary 1) 1 ⟨"Work", "work", some (some 2), work_length, work_slug_length⟩
  | true => .update (.ordinary 1) 2 ⟨"Home", "home", some (some 1), by decide, by decide⟩

/-- The same new root, created twice. -/
def twinCreations : Bool → CategoryEdit := fun _ =>
  .create (.ordinary 1) ⟨"Bills", "bills", none, bills_length, bills_slug_length⟩

def turnsOf (i : Bool) (n : ℕ) : List (Bool × Unit) := List.replicate n (i, ())

/-- One move after the other: the second is refused. -/
theorem siblingForest_crossingMoves_in_turn :
    Always (categoryTurn Settings.default) (fun s => SiblingForest s.shared)
      (categoryStart twoRoots crossingMoves) (turnsOf false 7 ++ turnsOf true 7) :=
  (siblingForest_iff Settings.default twoRoots crossingMoves _ twoRoots_forest.keys
    twoRoots_forest.siblingForest).mpr (by decide +kernel)

/-- Both moves check before either commits, and each root ends below the other;
both creations do, and the owner has two roots of one slug. -/
theorem not_siblingForest_overlapping :
    (CategoryKeys twoRoots ∧ SiblingForest twoRoots) ∧
      ¬ SiblingForest (run (categoryTurn Settings.default) (categoryStart twoRoots crossingMoves)
        (turnsOf false 6 ++ turnsOf true 7 ++ turnsOf false 1)).shared ∧
      ¬ SiblingForest (run (categoryTurn Settings.default) (categoryStart twoRoots twinCreations)
        (turnsOf false 2 ++ turnsOf true 3 ++ turnsOf false 1)).shared := by
  refine ⟨⟨twoRoots_forest.keys, twoRoots_forest.siblingForest⟩, fun h => ?_, fun h => ?_⟩
  · refine h.acyclic 1 (.tail (b := 2) (.single ?_) ?_)
    · show parentMap _ _ = _
      decide +kernel
    · show parentMap _ _ = _
      decide +kernel
  · have htwins : ∃ c ∈ (run (categoryTurn Settings.default) (categoryStart twoRoots twinCreations)
        (turnsOf false 2 ++ turnsOf true 3 ++ turnsOf false 1)).shared.categories.rows,
        ∃ d ∈ (run (categoryTurn Settings.default) (categoryStart twoRoots twinCreations)
          (turnsOf false 2 ++ turnsOf true 3 ++ turnsOf false 1)).shared.categories.rows,
        c.scopeKey = d.scopeKey ∧ c.parentId = d.parentId ∧ c.slug = d.slug ∧ c.id ≠ d.id := by
      decide +kernel
    obtain ⟨c, hc, d, hd, hscope, hparent, hslug, hne⟩ := htwins
    exact hne (by rw [h.slug_unique c hc d hd hscope hparent hslug])

end MediaService
