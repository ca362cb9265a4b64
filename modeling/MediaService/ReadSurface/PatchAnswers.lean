import MediaService.Foundation.Fallible
import MediaService.Lifecycle.Objects
import MediaService.ReadSurface.Scope
import MediaService.Scenario

/-! The filing that a patch answers with and the filing that a read answers with. The
first is taken from the object, whoever filed it there, the second from the categories
of the caller's scope. A patch that leaves the filing alone therefore agrees with the
read after it exactly when nobody has filed the object outside that scope. -/

namespace MediaService

open Foundation

variable {env : Env} {db db' : Database} {user : UserModel} {b b' : Backend} {id objectId : UUID}
  {body : MediaObjectUpdate} {faults : Faults} {commitFails : Bool} {now : Timestamp}
  {o : MediaObject} {ref : MediaObjectCategoryRef}

/-! ### References -/

/-- The reference a caller is shown of a category. -/
def categoryRef (db : Database) (user : UserModel) (c : Category) : MediaObjectCategoryRef :=
  ⟨c.id, c.name, (categoryPath (scopedCategories db user) c.id).getD c.slug⟩

theorem mem_assignedCategoryRefs : ref ∈ assignedCategoryRefs db user (userCategories db id) ↔
    ∃ c ∈ db.categories, (id, c.id) ∈ db.links ∧ ref = categoryRef db user c := by
  have hrefs : assignedCategoryRefs db user (userCategories db id) =
      (userCategories db id).map (categoryRef db user) := by
    unfold assignedCategoryRefs
    split_ifs with hnil
    · rw [hnil, List.map_nil]
    · rfl
  rw [hrefs, List.mem_map]
  simp only [userCategories, List.mem_filter, decide_eq_true_eq, and_assoc, eq_comm (a := ref)]
  rfl

theorem mem_categoryRefsByObject : ref ∈ categoryRefsByObject db (some user) [id] id ↔
    ∃ c ∈ db.categories, (id, c.id) ∈ db.links ∧ inScope user c = true ∧
      ref = categoryRef db user c := by
  unfold categoryRefsByObject
  dsimp only
  rw [if_pos (List.mem_singleton_self id), categoryRefs, List.mem_map]
  simp only [List.mem_insertionSort, scopedCategories, List.mem_filter, decide_eq_true_eq,
    eq_comm (a := ref)]
  constructor
  · rintro ⟨c, ⟨⟨hc, hscope⟩, hlink⟩, hshown⟩
    exact ⟨c, hc, hlink, hscope, hshown⟩
  · rintro ⟨c, hc, hlink, hscope, hshown⟩
    exact ⟨c, ⟨⟨hc, hscope⟩, hlink⟩, hshown⟩

/-! ### Patches that leave the filing alone -/

theorem patchedDatabase_unfiled {u : MediaObjectUpdate} {o' : MediaObject} {bucket : Option String}
    (h : patchedDatabase db now u o bucket none = .ok (db', o')) :
    db' = { db with objects := db.objects.update o' } :=
  (patchedDatabase_eq_ok h).2

/-- An accepted patch without a filing leaves a live object of the caller's behind, and
the categories and filings as they were. -/
theorem updateObject_unfiled {o' : MediaObject} (hbody : body.categoryIds = none)
    (h : updateObject env b faults commitFails now user objectId body = (b', .ok o')) :
    o' ∈ b'.db.objects ∧ o'.id = objectId ∧ o'.deletedAt = none ∧
      (user.isSuperuser ∨ o'.ownerUserId = user.id) ∧ b'.db.categories = b.db.categories ∧
      b'.db.links = b.db.links := by
  rcases updateObject_cases env b faults commitFails now user objectId body with
    ⟨e, st, he, -⟩ | ⟨u, o, st, bucket, categories, db₁, o₁, hu, hload, hcategories, -, hpatch, he⟩
  · cases he.symm.trans h
  · obtain ⟨rfl, ho'⟩ := Prod.mk.inj (he.symm.trans h)
    cases ho'
    obtain ⟨ho, hid, hlive, howner⟩ := loadObject_ok hload
    obtain rfl : categories = none := by
      obtain ⟨name, rfl, -⟩ := MediaObjectUpdate.eq_of_validated hu
      simp only [updateCategories, hbody] at hcategories
      cases hcategories
      rfl
    obtain ⟨⟨v, c, -, ho₁⟩, -⟩ := patchedDatabase_ok hpatch
    obtain rfl := patchedDatabase_unfiled hpatch
    have hid' : o'.id = o.id := by rw [ho₁]
    refine ⟨?_, hid'.trans hid, by rw [ho₁]; exact hlive rfl, by rw [ho₁]; exact howner, rfl, rfl⟩
    exact (Table.mem_update (by rw [hid', Table.find_of_mem ho])).mpr (.inl rfl)

/-! ### The two answers -/

/-- A patch answers with the filing that a read by the same caller answers with right
after it, and shows no category out of the caller's scope. -/
structure PatchAnswersGet (db : Database) (user : UserModel) (objectId : UUID)
    (answer : MediaObjectPublic) : Prop where
  same : ∃ got, getObject db (some user) objectId = .ok got ∧
    ∀ ref, ref ∈ answer.categories ↔ ref ∈ got.categories
  shownInScope : ∀ ref ∈ answer.categories, ∃ c ∈ scopedCategories db user, c.id = ref.id

/-- The object is filed into categories of the caller's scope only. -/
def FiledWithin (db : Database) (user : UserModel) (id : UUID) : Prop :=
  ∀ c ∈ db.categories, (id, c.id) ∈ db.links → inScope user c = true

theorem updateObjectPublic_answersGet {answer : MediaObjectPublic}
    (hbody : body.categoryIds = none)
    (h : updateObjectPublic env b faults commitFails now user objectId body = (b', .ok answer)) :
    PatchAnswersGet b'.db user objectId answer ↔ FiledWithin b.db user objectId := by
  unfold updateObjectPublic at h
  split at h
  · cases h
  · rename_i b₁ o' hupd
    obtain ⟨rfl, hanswer⟩ := Prod.mk.inj h
    obtain ⟨hfits, rfl⟩ := MediaObjectPublic.modelValidate_eq_ok.mp hanswer
    obtain ⟨ho, rfl, hlive, howner, hcategories, hlinks⟩ := updateObject_unfiled hbody hupd
    have hview : MayView (some user) o' :=
      .inr ⟨user, rfl, howner.imp_right .inl⟩
    have hget : getObject b₁.db (some user) o'.id =
        .ok ⟨o', categoryRefsByObject b₁.db (some user) [o'.id] o'.id⟩ :=
      getObject_eq_ok.mpr ⟨o', ho, rfl, ⟨hlive, hview⟩, hfits, rfl⟩
    rw [FiledWithin, ← hcategories, ← hlinks]
    constructor
    · rintro ⟨-, hshownInScope⟩ c hc hlink
      have hshown : categoryRef b₁.db user c ∈
          assignedCategoryRefs b₁.db user (userCategories b₁.db o'.id) :=
        mem_assignedCategoryRefs.mpr ⟨c, hc, hlink, rfl⟩
      obtain ⟨d, hd, hid⟩ := hshownInScope (categoryRef b₁.db user c) hshown
      obtain ⟨hd, hscope⟩ := List.mem_filter.mp hd
      rwa [Table.eq_of_key_eq hd hc hid] at hscope
    · intro hwithin
      constructor
      · refine ⟨_, hget, fun ref => ?_⟩
        rw [mem_assignedCategoryRefs, mem_categoryRefsByObject]
        refine exists_congr fun c => and_congr_right fun hc => and_congr_right fun hlink => ?_
        rw [and_iff_right (hwithin c hc hlink)]
      · intro ref hshown
        obtain ⟨c, hc, hlink, rfl⟩ := mem_assignedCategoryRefs.mp hshown
        exact ⟨c, List.mem_filter.mpr ⟨hc, hwithin c hc hlink⟩, rfl⟩

/-- In every state that requests lead to, an accepted patch without a filing answers as
the read after it does exactly when its object is filed within the caller's scope. -/
theorem patch_answersGet_iff (env : Env) (requests : List Request) (hbody : body.categoryIds = none)
    {answer : MediaObjectPublic}
    (h : updateObjectPublic env (run (serve env) World.initial requests).backend faults
      commitFails now user objectId body = (b', .ok answer)) :
    PatchAnswersGet b'.db user objectId answer ↔
      FiledWithin (run (serve env) World.initial requests).backend.db user objectId :=
  updateObjectPublic_answersGet hbody h

/-- Renames an object and leaves the rest alone. -/
def renameTo (name : String) : MediaObjectUpdate where
  visibility := none
  originalFilename := some (some name)
  category := none
  categoryIds := none

def uploadOfFirst : List Request :=
  cleanUploadRequests Env.default 0 ⟨2⟩ (.ordinary 1) .private pngSignature

/-- The first user files the object into a category of his own. -/
def filedByFirst : List Request :=
  uploadOfFirst ++
    [.category (.create (.ordinary 1) ⟨"Letters", "letters", none, by decide, by decide⟩),
      .update Faults.none false 1 (.ordinary 1) ⟨2⟩
        { renameTo "a.png" with categoryIds := some [1] }]

theorem patch_answersGet_filed : ∃ b' answer,
    updateObjectPublic Env.default (run (serve Env.default) World.initial filedByFirst).backend
        Faults.none false 2 (.ordinary 1) ⟨2⟩ (renameTo "b.png") = (b', .ok answer) ∧
      answer.categories.length = 1 ∧ PatchAnswersGet b'.db (.ordinary 1) ⟨2⟩ answer := by
  have hok : ((updateObjectPublic Env.default
      (run (serve Env.default) World.initial filedByFirst).backend Faults.none false 2
      (.ordinary 1) ⟨2⟩ (renameTo "b.png")).2.toOption.filter fun answer =>
        answer.categories.length = 1).isSome = true := by decide +kernel
  obtain ⟨answer, hanswer⟩ := Option.isSome_iff_exists.mp hok
  obtain ⟨hanswer, hfiled⟩ := Option.filter_eq_some_iff.mp hanswer
  have hanswer := toOption_eq_some.mp hanswer
  refine ⟨_, answer, eq_mk_of_snd hanswer, of_decide_eq_true hfiled, ?_⟩
  refine (patch_answersGet_iff Env.default filedByFirst rfl (eq_mk_of_snd hanswer)).mpr ?_
  unfold FiledWithin
  decide +kernel

/-- A superuser files the first user's object into a category of the third user's. -/
def filedByOther : List Request :=
  uploadOfFirst ++
    [.category (.create (.ordinary 3) ⟨"Private", "private", none, by decide, by decide⟩),
      .update Faults.none false 1 ⟨⟨9⟩, true, none⟩ ⟨2⟩
        { renameTo "a.png" with categoryIds := some [1] }]

/-- The owner's patch then shows a category that the owner's read does not. -/
theorem not_patch_answersGet : ∃ b' answer,
    updateObjectPublic Env.default (run (serve Env.default) World.initial filedByOther).backend
        Faults.none false 2 (.ordinary 1) ⟨2⟩ (renameTo "b.png") = (b', .ok answer) ∧
      (renameTo "b.png").categoryIds = none ∧
      ¬ PatchAnswersGet b'.db (.ordinary 1) ⟨2⟩ answer := by
  have hok : (updateObjectPublic Env.default
      (run (serve Env.default) World.initial filedByOther).backend Faults.none false 2
      (.ordinary 1) ⟨2⟩ (renameTo "b.png")).2.toOption.isSome = true := by decide +kernel
  obtain ⟨answer, hanswer⟩ := Option.isSome_iff_exists.mp hok
  have hanswer := toOption_eq_some.mp hanswer
  refine ⟨_, answer, eq_mk_of_snd hanswer, rfl, ?_⟩
  rw [updateObjectPublic_answersGet rfl (eq_mk_of_snd hanswer), FiledWithin]
  decide +kernel

end MediaService
