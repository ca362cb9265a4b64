import MediaService.Foundation.Interleaving
import MediaService.Invariants.CategoryWalks

/-! Category requests that run beside each other, cut at every read and at the
commit. A creation and a patch check the rows as each read finds them, hold no
lock, and write what they checked: an insertion under the next id, or into the
row as it stands the columns that changed against the row as it was read. At the
commit the unique constraint looks again, at siblings with a tenant and a
parent; nothing looks again at the parent chain. -/

namespace MediaService

open Foundation ParentMap

/-! ### The requests, step by step -/

inductive CategoryEdit where
  | create (user : UserModel) (req : CategoryCreate)
  | update (user : UserModel) (categoryId : ℤ) (req : CategoryUpdate)

/-- What a request writes once its guards have passed. -/
inductive CategoryWrite where
  | insert (user : UserModel) (req : CategoryCreate)
  | patch (user : UserModel) (row : Category) (req : CategoryUpdate)

namespace CategoryWrite

def user : CategoryWrite → UserModel
  | insert user _ => user
  | patch user _ _ => user

def slug : CategoryWrite → String
  | insert _ req => req.slug
  | patch _ _ req => req.slug

def parentId : CategoryWrite → Option ℤ
  | insert _ req => req.parentId
  | patch _ row req => req.parentId.getD row.parentId

def tenantId : CategoryWrite → Option UUID
  | insert user _ => user.tenantId
  | patch _ row _ => row.tenantId

def ownerId : CategoryWrite → UUID
  | insert user _ => user.id
  | patch _ row _ => row.ownerId

/-- The row that moves, which a new one does not. -/
def rowId : CategoryWrite → Option ℤ
  | insert _ _ => none
  | patch _ row _ => some row.id

/-- The rows as the request's session shows them: the one it holds, as it was
first read. -/
def cached (db : Database) : CategoryWrite → Database
  | insert _ _ => db
  | patch _ row _ => { db with categories := db.categories.update row }

end CategoryWrite

/-- What a request does next, with what it has read so far. -/
inductive CategoryPlace where
  | load (user : UserModel) (categoryId : ℤ) (req : CategoryUpdate)
  | parent (w : CategoryWrite) (p : ℤ)
  | climb (w : CategoryWrite) (ancestor : Option ℤ) (seen : List ℤ)
  | depth (w : CategoryWrite)
  | siblings (w : CategoryWrite)
  | commit (w : CategoryWrite)
  | finished (answer : Except Failure Category)

def CategoryEdit.start : CategoryEdit → CategoryPlace
  | .create user req =>
    match req.parentId with
    | none => .depth (.insert user req)
    | some p => .parent (.insert user req) p
  | .update user categoryId req => .load user categoryId req

/-- Where a patch goes once it has its row: to the guards of a reparent, of a
new slug, or of neither. -/
def afterLoad (user : UserModel) (row : Category) (req : CategoryUpdate) : CategoryPlace :=
  if req.parentId.getD row.parentId = row.parentId then
    if req.slug = row.slug then .commit (.patch user row req) else .siblings (.patch user row req)
  else
    match req.parentId.getD row.parentId with
    | none => .depth (.patch user row req)
    | some p => .parent (.patch user row req) p

/-- One turn of the loop of `_reject_cycle`. -/
def climbStep (db : Database) (w : CategoryWrite) (ancestor : Option ℤ) (seen : List ℤ) :
    CategoryPlace :=
  match ancestor with
  | none => .depth w
  | some a =>
    if w.rowId = some a then
      .finished (refuse 409 "A category cannot be nested under itself or its descendants.")
    else if a ∈ seen then .depth w
    else
      match db.categories.find a with
      | none => .depth w
      | some row => .climb w row.parentId (a :: seen)

/-- The row a patch writes: read as `row`, now standing as `current`. -/
def CategoryUpdate.write (req : CategoryUpdate) (row current : Category) : Category :=
  { current with
    name := column req.name row.name current.name
    slug := column req.slug row.slug current.slug
    parentId := column (req.parentId.getD row.parentId) row.parentId current.parentId }

/-- The row a commit writes into the rows as it finds them. -/
def CategoryWrite.row (db : Database) : CategoryWrite → Option Category
  | .insert user req =>
    some ⟨db.categorySeq, req.name, req.slug, req.parentId, user.id, user.tenantId⟩
  | .patch _ row req => (db.categories.find row.id).map (req.write row)

def CategoryWrite.commit (db : Database) (w : CategoryWrite) :
    Except Failure (Database × Category) :=
  match w with
  | .insert user req =>
    insertCategory db req.name req.slug req.parentId user.id user.tenantId
  | .patch _ _ _ =>
    match w.row db with
    | none => .error .integrityError
    | some new =>
      if categoryTaken db new then .error .integrityError
      else .ok ({ db with categories := db.categories.update new }, new)

def categoryStep (settings : Settings) (db : Database) : CategoryPlace → Database × CategoryPlace
  | .load user categoryId req =>
    match loadCategory db user categoryId with
    | .error e => (db, .finished (.error e))
    | .ok row => (db, afterLoad user row req)
  | .parent w p =>
    match loadParent db w.user p w.tenantId w.ownerId with
    | .error e => (db, .finished (.error e))
    | .ok _ => (db, if w.rowId = none then .depth w else .climb w (some p) [])
  | .climb w ancestor seen => (db, climbStep db w ancestor seen)
  | .depth w =>
    match rejectDepthOverflow settings (w.cached db) w.tenantId w.ownerId w.parentId w.rowId with
    | .error e => (db, .finished (.error e))
    | .ok _ => (db, .siblings w)
  | .siblings w =>
    match rejectDuplicateSlug db w.slug w.parentId w.tenantId w.ownerId w.rowId with
    | .error e => (db, .finished (.error e))
    | .ok _ => (db, .commit w)
  | .commit w =>
    match w.commit db with
    | .error e => (db, .finished (.error e))
    | .ok (db, row) => (db, .finished (.ok row))
  | .finished answer => (db, .finished answer)

/-! ### One request alone -/

section Alone

variable {settings : Settings} {db : Database}

/-- A request's steps, nothing else running. -/
abbrev editAlone (settings : Settings) (p : Database × CategoryPlace) (_ : Unit) :
    Database × CategoryPlace :=
  categoryStep settings p.1 p.2

def CategoryEdit.result (settings : Settings) (db : Database) :
    CategoryEdit → Except Failure (Database × Category)
  | .create user req => createCategory settings db user req
  | .update user categoryId req => updateCategory settings db user categoryId req

/-- The database and the answer a result leaves. -/
def leave (db : Database) : Except Failure (Database × Category) → Database × CategoryPlace
  | .error e => (db, .finished (.error e))
  | .ok (db, row) => (db, .finished (.ok row))

/-- The steps from a place on, taken in a row, end in a result. -/
def Ends (settings : Settings) (db : Database) (p : CategoryPlace)
    (res : Except Failure (Database × Category)) : Prop :=
  ∃ n, run (editAlone settings) (db, p) (List.replicate n ()) = leave db res

theorem Ends.step {p p' : CategoryPlace} {res : Except Failure (Database × Category)}
    (h : categoryStep settings db p = (db, p')) (hp : Ends settings db p' res) :
    Ends settings db p res := by
  obtain ⟨n, hn⟩ := hp
  refine ⟨n + 1, ?_⟩
  rw [List.replicate_succ, run_cons, editAlone, h]
  exact hn

theorem ends_refused {e : Failure} : Ends settings db (.finished (.error e)) (.error e) := ⟨0, rfl⟩

theorem ends_commit (w : CategoryWrite) : Ends settings db (.commit w) (w.commit db) := by
  refine ⟨1, ?_⟩
  rw [List.replicate_one, run_cons, run_nil, editAlone, categoryStep]
  cases w.commit db <;> rfl

theorem ends_siblings (w : CategoryWrite) : Ends settings db (.siblings w)
    (do
      rejectDuplicateSlug db w.slug w.parentId w.tenantId w.ownerId w.rowId
      w.commit db) := by
  cases h : rejectDuplicateSlug db w.slug w.parentId w.tenantId w.ownerId w.rowId with
  | error e => exact ends_refused.step (by rw [categoryStep, h])
  | ok _ => exact (ends_commit w).step (by rw [categoryStep, h])

theorem ends_depth {w : CategoryWrite} (hcached : w.cached db = db) : Ends settings db (.depth w)
    (do
      rejectDepthOverflow settings db w.tenantId w.ownerId w.parentId w.rowId
      rejectDuplicateSlug db w.slug w.parentId w.tenantId w.ownerId w.rowId
      w.commit db) := by
  cases h : rejectDepthOverflow settings db w.tenantId w.ownerId w.parentId w.rowId with
  | error e => exact ends_refused.step (by rw [categoryStep, hcached, h])
  | ok _ => exact (ends_siblings w).step (by rw [categoryStep, hcached, h])

theorem ends_parent {w : CategoryWrite} {p : ℤ} {res : Except Failure (Database × Category)}
    (h : Ends settings db (if w.rowId = none then .depth w else .climb w (some p) []) res) :
    Ends settings db (.parent w p)
      (do
        let _ ← loadParent db w.user p w.tenantId w.ownerId
        res) := by
  cases hl : loadParent db w.user p w.tenantId w.ownerId with
  | error e => exact ends_refused.step (by rw [categoryStep, hl])
  | ok c => exact h.step (by rw [categoryStep, hl])

/-- The climb, turn by turn, is the loop of `_reject_cycle`. -/
theorem ends_climb {w : CategoryWrite} {c : ℤ} (hc : w.rowId = some c)
    {res : Except Failure (Database × Category)} (hdepth : Ends settings db (.depth w) res)
    {s : Climb ℤ Unit} {ss : List (Climb ℤ Unit)} {r : Except Failure Unit}
    (h : Loop.Runs (cycleBody db c) s ss r) :
    Ends settings db (.climb w s.current s.seen)
      (do
        r
        res) := by
  have hother : ∀ {a : ℤ}, ¬ a = c → ¬ w.rowId = some a := by
    rintro a hac ha
    rw [hc] at ha
    exact hac (Option.some.inj ha).symm
  induction h with
  | @stop s r hb =>
    rw [cycleBody] at hb
    split at hb
    · rename_i hnone
      obtain rfl := Sum.inr.inj hb
      exact hdepth.step (by simp only [categoryStep, climbStep, hnone])
    · rename_i a ha
      split_ifs at hb with hac hseen
      · obtain rfl := Sum.inr.inj hb
        exact ends_refused.step (by simp only [categoryStep, climbStep, ha, hc, hac, if_true]; rfl)
      · obtain rfl := Sum.inr.inj hb
        exact hdepth.step (by
          simp only [categoryStep, climbStep, ha, if_neg (hother hac), if_pos hseen])
      · split at hb
        · rename_i hfind
          obtain rfl := Sum.inr.inj hb
          exact hdepth.step (by
            simp only [categoryStep, climbStep, ha, if_neg (hother hac), if_neg hseen, hfind])
        · cases hb
  | @next s s' ss r hb _ ih =>
    rw [cycleBody] at hb
    split at hb
    · cases hb
    · rename_i a ha
      split_ifs at hb with hac hseen
      split at hb
      · cases hb
      · rename_i row hfind
        obtain rfl := Sum.inl.inj hb
        exact ih.step (by
          simp only [categoryStep, climbStep, ha, if_neg (hother hac), if_neg hseen, hfind])

theorem ends_rejectCycle {w : CategoryWrite} {c p : ℤ} (hc : w.rowId = some c)
    {res : Except Failure (Database × Category)} (hdepth : Ends settings db (.depth w) res) :
    Ends settings db (.climb w (some p) [])
      (do
        rejectCycle db c p
        res) := by
  obtain ⟨ss, hss, -⟩ := @walks_cycle db c p
  exact ends_climb hc hdepth hss

/-- A creation alone is `create_category`. -/
theorem ends_create (user : UserModel) (req : CategoryCreate) :
    Ends settings db (CategoryEdit.create user req).start
      (createCategory settings db user req) := by
  have hdepth : Ends settings db (.depth (.insert user req)) (do
      rejectDepthOverflow settings db user.tenantId user.id req.parentId none
      rejectDuplicateSlug db req.slug req.parentId user.tenantId user.id none
      insertCategory db req.name req.slug req.parentId user.id user.tenantId) := ends_depth rfl
  simp only [CategoryEdit.start, createCategory]
  cases hp : req.parentId with
  | none =>
    rw [hp] at hdepth
    exact hdepth
  | some p =>
    rw [hp] at hdepth
    exact ends_parent (w := .insert user req) hdepth

/-- A patch alone is `update_category`. -/
theorem ends_update (user : UserModel) (categoryId : ℤ) (req : CategoryUpdate) :
    Ends settings db (CategoryEdit.update user categoryId req).start
      (updateCategory settings db user categoryId req) := by
  simp only [CategoryEdit.start, updateCategory]
  cases hload : loadCategory db user categoryId with
  | error e => exact ends_refused.step (by rw [categoryStep, hload])
  | ok row =>
    have hfind : db.categories.find row.id = some row :=
      Table.find_of_mem (loadCategory_eq_ok.mp hload).1.1
    refine @Ends.step _ _ _ (afterLoad user row req) _ (by rw [categoryStep, hload]) ?_
    let w : CategoryWrite := .patch user row req
    have hcached : w.cached db = db := by
      simp only [w, CategoryWrite.cached, Table.update_self hfind]
    obtain ⟨q, hq⟩ : ∃ q, req.parentId.getD row.parentId = q := ⟨_, rfl⟩
    have hw : w.parentId = q := hq
    have hcommit : w.commit db =
        if categoryTaken db { row with name := req.name, slug := req.slug, parentId := q } then
          .error .integrityError
        else
          .ok ({ db with categories :=
              db.categories.update { row with name := req.name, slug := req.slug, parentId := q } },
            { row with name := req.name, slug := req.slug, parentId := q }) := by
      simp only [w, CategoryWrite.commit, CategoryWrite.row, hfind, Option.map_some,
        CategoryUpdate.write, column_self, hq]
    have hdepth : Ends settings db (.depth w) _ := ends_depth hcached
    have hsiblings : Ends settings db (.siblings w) _ := ends_siblings w
    have hdirect : Ends settings db (.commit w) _ := ends_commit w
    rw [hcommit, hw] at hdepth hsiblings
    rw [hcommit] at hdirect
    simp only [bind, Except.bind, afterLoad, checkReparent, checkSibling, Prod.mk.injEq, hq]
    by_cases hmoved : q = row.parentId
    · rw [if_pos hmoved, if_pos hmoved]
      by_cases hslug : req.slug = row.slug
      · rw [if_pos hslug, if_pos ⟨hmoved, hslug⟩]
        exact hdirect
      · rw [if_neg hslug, if_neg (fun h => hslug h.2)]
        exact hsiblings
    · rw [if_neg hmoved, if_neg hmoved, if_neg (fun h => hmoved h.1)]
      cases q with
      | none => exact hdepth
      | some p =>
        have hparent := ends_parent (w := w) (ends_rejectCycle (w := w) (p := p) rfl hdepth)
        dsimp only
        cases hl : loadParent db user p row.tenantId row.ownerId with
        | error e =>
          rw [show loadParent db w.user p w.tenantId w.ownerId = .error e from hl] at hparent
          exact hparent
        | ok c =>
          rw [show loadParent db w.user p w.tenantId w.ownerId = .ok c from hl] at hparent
          dsimp only
          cases hcycle : rejectCycle db row.id p with
          | error e =>
            rw [hcycle] at hparent
            exact hparent
          | ok _ =>
            rw [hcycle] at hparent
            exact hparent

/-- A request alone does what the service does. -/
theorem ends_start (e : CategoryEdit) : Ends settings db e.start (e.result settings db) := by
  cases e with
  | create user req => exact ends_create user req
  | update user categoryId req => exact ends_update user categoryId req

end Alone

/-! ### Many requests -/

section Race

variable {ι : Type*} [DecidableEq ι]

abbrev Categories (ι : Type*) := Parties ι Database CategoryPlace

abbrev categoryTurn (settings : Settings) : Categories ι → ι × Unit → Categories ι :=
  turn fun _ db p _ => categoryStep settings db p

def categoryStart (db : Database) (edits : ι → CategoryEdit) : Categories ι :=
  ⟨db, fun i => (edits i).start⟩

end Race

end MediaService
