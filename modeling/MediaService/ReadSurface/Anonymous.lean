import MediaService.Controllers.Variants
import MediaService.ReadSurface.Scope
import MediaService.Scenario

/-! The anonymous read surface. A caller without a token sees the live public
objects and nothing else: in two states that agree on these, every request gets
the same answer. Categories have no public form, and reach an anonymous answer by
one route only, the filter for objects that are filed nowhere. -/

namespace MediaService

open Foundation

/-! ### Requests -/

inductive ReadRequest where
  | listObjects (params : ObjectListParams)
  | getObject (objectId : UUID)
  | downloadUrl (now : Timestamp) (objectId : UUID)
  | listVariants (objectId : UUID)

inductive ReadAnswer where
  | page (answer : Except Failure ObjectListResponse)
  | object (answer : Except Failure MediaObjectPublic)
  | url (answer : Except Failure DownloadUrl)
  | variants (answer : Except Failure (List MediaVariant))

/-- The answer to a read request, which changes nothing. -/
def answerRead (settings : Settings) (paging : Paging) (db : Database) (user : Option UserModel) :
    ReadRequest → ReadAnswer
  | .listObjects params => .page (listObjects paging db user params)
  | .getObject objectId => .object (getObject db user objectId)
  | .downloadUrl now objectId => .url (downloadUrl settings db now user objectId)
  | .listVariants objectId => .variants (listVariants db user objectId)

/-- Equal answers; the rows of a list of variants may come in any order. -/
def ReadAnswer.Same : ReadAnswer → ReadAnswer → Prop
  | .variants (.ok vs), .variants (.ok vs') => vs.Perm vs'
  | answer, answer' => answer = answer'

theorem ReadAnswer.same_of_eq {answer answer' : ReadAnswer} (h : answer = answer') :
    answer.Same answer' := by
  subst h
  unfold Same
  split
  · exact .refl _
  · rfl

/-! ### The public catalogue -/

/-- Live and public. -/
def MediaObject.InCatalogue (o : MediaObject) : Prop := o.deletedAt = none ∧ o.visibility = .public

instance (o : MediaObject) : Decidable o.InCatalogue := by
  unfold MediaObject.InCatalogue
  infer_instance

/-- The object is filed into some category. -/
def Filed (db : Database) (id : UUID) : Prop := ∃ c, (id, c) ∈ db.links

/-- The states agree on the live public objects. -/
def SameCatalogue (db₁ db₂ : Database) : Prop :=
  ∀ o : MediaObject, o.InCatalogue → (o ∈ db₁.objects ↔ o ∈ db₂.objects)

variable {settings : Settings} {paging : Paging} {db db₁ db₂ : Database}
  {params : ObjectListParams} {o : MediaObject} {id : UUID}

theorem mayRead_anonymous : MayRead none o ↔ o.InCatalogue := by
  rw [MayRead, mayView_anonymous, MediaObject.InCatalogue]

theorem fetchObject_eq_error {includeDeleted : Bool} {e : Failure}
    (h : fetchObject db id includeDeleted = .error e) :
    e = .http ⟨404, .text "Media object not found."⟩ := by
  unfold fetchObject refuse at h
  split at h
  · cases h
    rfl
  · split at h
    · cases h
      rfl
    · cases h

/-- To an anonymous caller an object that is not public and one that is not there
are the same refusal. -/
theorem loadObjectForRead_anonymous (h : ∀ o ∈ db.objects, o.id = id → ¬ o.InCatalogue) :
    loadObjectForRead db none id = refuse 404 "Media object not found." := by
  cases hload : loadObjectForRead db none id with
  | ok o =>
    obtain ⟨ho, hid, hr⟩ := loadObjectForRead_eq_ok.mp hload
    exact absurd (mayRead_anonymous.mp hr) (h o ho hid)
  | error e =>
    unfold loadObjectForRead at hload
    cases hf : fetchObject db id false with
    | error e' =>
      rw [fetchObject_eq_error hf] at hf
      simp only [hf, bind, Except.bind, Except.error.injEq] at hload
      rw [← hload]
      rfl
    | ok q =>
      simp only [hf, bind, Except.bind, requireVisibilityAccess] at hload
      split at hload
      · rename_i he
        split at he
        · cases he
        · cases hload
          cases he
          rfl
      · cases hload

/-- The load behind every request about one object depends on the catalogue only. -/
theorem loadObjectForRead_congr (h : SameCatalogue db₁ db₂) (id : UUID) :
    loadObjectForRead db₁ none id = loadObjectForRead db₂ none id := by
  by_cases hex : ∃ o ∈ db₁.objects, o.id = id ∧ o.InCatalogue
  · obtain ⟨o, ho, hid, hc⟩ := hex
    have hr := mayRead_anonymous.mpr hc
    rw [loadObjectForRead_eq_ok.mpr ⟨ho, hid, hr⟩,
      loadObjectForRead_eq_ok.mpr ⟨(h o hc).mp ho, hid, hr⟩]
  · have h₁ : ∀ o ∈ db₁.objects, o.id = id → ¬ o.InCatalogue := fun o ho hid hc =>
      hex ⟨o, ho, hid, hc⟩
    have h₂ : ∀ o ∈ db₂.objects, o.id = id → ¬ o.InCatalogue := fun o ho hid hc =>
      h₁ o ((h o hc).mpr ho) hid hc
    rw [loadObjectForRead_anonymous h₁, loadObjectForRead_anonymous h₂]

/-! ### The listing -/

/-- A branch filter selects nothing for an anonymous caller, the unfiled filter
what has no filing, and neither is refused. -/
theorem categoryFilter_anonymous (db : Database) (params : ObjectListParams) :
    ∃ filed, categoryFilter db none params = .ok filed ∧
    ∀ o, filed o = true ↔ if params.uncategorized then ¬ Filed db o.id
      else params.categoryId = none := by
  unfold categoryFilter
  by_cases hu : params.uncategorized = true
  · refine ⟨_, if_pos hu, fun o => ?_⟩
    simp only [hu, if_true, decide_eq_true_eq, Finset.filter_eq_empty_iff, Filed, not_exists]
    exact ⟨fun h c hc => h hc rfl, fun h l hl he => h l.2 (he ▸ hl)⟩
  · rw [if_neg hu]
    cases params.categoryId with
    | none => exact ⟨_, rfl, fun o => by simp [hu]⟩
    | some c => exact ⟨_, rfl, fun o => by simp [hu]⟩

/-- What an anonymous listing selects, as a set. -/
theorem queryObjects_anonymous (db : Database) (params : ObjectListParams) :
    ∃ selected, queryObjects db none params = .ok selected ∧ (selected.map MediaObject.id).Nodup ∧
    ∀ o, o ∈ selected ↔ o ∈ db.objects ∧ o.InCatalogue ∧ passesFilters params o = true ∧
      if params.uncategorized then ¬ Filed db o.id else params.categoryId = none := by
  obtain ⟨filed, hfiled, hiff⟩ := categoryFilter_anonymous db params
  have hquery : queryObjects db none params = .ok (db.objects.rows.filter fun o =>
      inListScope none params o ∧ passesFilters params o ∧ filed o) := by
    unfold queryObjects
    rw [hfiled]
    rfl
  refine ⟨_, hquery, db.objects.nodup.sublist (List.filter_sublist.map _), fun o => ?_⟩
  rw [List.mem_filter, decide_eq_true_eq, inListScope_iff, mayView_anonymous, hiff]
  simp only [Option.any_none, Bool.false_eq_true, if_false, MediaObject.InCatalogue]
  rw [and_comm (a := o.visibility = .public)]
  rfl

/-- A page depends on which rows are selected, not on the order they come in. -/
theorem cutPage_perm {selected selected' : List MediaObject} (hp : selected.Perm selected')
    (hn : (selected.map MediaObject.id).Nodup) (last : Option (params.sortBy.Value × UUID)) :
    cutPage paging params selected last = cutPage paging params selected' last := by
  have hsort : ∀ p : MediaObject → Bool,
      (selected.filter p).insertionSort (fun o o' => paging.shows params o o') =
        (selected'.filter p).insertionSort fun o o' => paging.shows params o o' := by
    intro p
    refine paging.insertionSort_eq (((hp.filter p).trans (List.perm_insertionSort _ _).symm))
      (hn.sublist (List.filter_sublist.map _)) (List.pairwise_insertionSort _ _)
  unfold cutPage
  rw [hsort]

/-- An anonymous page depends on the catalogue and, if it asks for unfiled
objects, on which of them are filed. -/
theorem listObjects_congr (h : SameCatalogue db₁ db₂)
    (hfiled : params.uncategorized = true → ∀ o ∈ db₁.objects, o.InCatalogue →
      (Filed db₁ o.id ↔ Filed db₂ o.id)) :
    listObjects paging db₁ none params = listObjects paging db₂ none params := by
  obtain ⟨selected₁, hq₁, hn₁, hmem₁⟩ := queryObjects_anonymous db₁ params
  obtain ⟨selected₂, hq₂, hn₂, hmem₂⟩ := queryObjects_anonymous db₂ params
  have hp : selected₁.Perm selected₂ := by
    refine (List.perm_ext_iff_of_nodup (.of_map _ hn₁) (.of_map _ hn₂)).mpr fun o => ?_
    rw [hmem₁, hmem₂]
    constructor
    · rintro ⟨ho, hc, hpass, hf⟩
      refine ⟨(h o hc).mp ho, hc, hpass, ?_⟩
      by_cases hu : params.uncategorized = true
      · rw [if_pos hu] at hf ⊢
        rwa [← hfiled hu o ho hc]
      · rwa [if_neg hu] at hf ⊢
    · rintro ⟨ho, hc, hpass, hf⟩
      have ho₁ := (h o hc).mpr ho
      refine ⟨ho₁, hc, hpass, ?_⟩
      by_cases hu : params.uncategorized = true
      · rw [if_pos hu] at hf ⊢
        rwa [hfiled hu o ho₁ hc]
      · rwa [if_neg hu] at hf ⊢
  unfold listObjects
  rw [hq₁, hq₂]
  cases hpos : params.position paging with
  | error e => rfl
  | ok last =>
    dsimp only
    rw [cutPage_perm hp hn₁]
    rfl

/-! ### Noninterference -/

/-- The states agree on the live public objects, on their variants and on their
filings; everything else may differ. -/
structure AgreeOnPublic (db₁ db₂ : Database) : Prop where
  objects : SameCatalogue db₁ db₂
  variants : ∀ o ∈ db₁.objects, o.InCatalogue → ∀ v : MediaVariant, v.mediaObjectId = o.id →
    (v ∈ db₁.variants ↔ v ∈ db₂.variants)
  links : ∀ o ∈ db₁.objects, o.InCatalogue → ∀ c, (o.id, c) ∈ db₁.links ↔ (o.id, c) ∈ db₂.links

theorem variantsOf_perm (h : ∀ v : MediaVariant, v.mediaObjectId = id →
    (v ∈ db₁.variants ↔ v ∈ db₂.variants)) : (db₁.variantsOf id).Perm (db₂.variantsOf id) := by
  have hnodup : ∀ db : Database, (db.variantsOf id).Nodup := fun db =>
    (List.Nodup.of_map _ db.variants.nodup).filter _
  refine (List.perm_ext_iff_of_nodup (hnodup _) (hnodup _)).mpr fun v => ?_
  simp only [Database.variantsOf, List.mem_filter, decide_eq_true_eq]
  exact and_congr_left fun hv => h v hv

theorem answerRead_same (h : AgreeOnPublic db₁ db₂) (r : ReadRequest) :
    (answerRead settings paging db₁ none r).Same (answerRead settings paging db₂ none r) := by
  cases r with
  | listObjects params =>
    refine ReadAnswer.same_of_eq (congrArg ReadAnswer.page (listObjects_congr h.objects ?_))
    exact fun _ o ho hc => exists_congr (h.links o ho hc)
  | getObject objectId =>
    refine ReadAnswer.same_of_eq (congrArg ReadAnswer.object ?_)
    unfold getObject
    rw [loadObjectForRead_congr h.objects]
    rfl
  | downloadUrl now objectId =>
    refine ReadAnswer.same_of_eq (congrArg ReadAnswer.url ?_)
    unfold downloadUrl
    rw [loadObjectForRead_congr h.objects]
  | listVariants objectId =>
    simp only [answerRead, listVariants]
    rw [← loadObjectForRead_congr h.objects]
    cases hload : loadObjectForRead db₁ none objectId with
    | error e => exact ReadAnswer.same_of_eq rfl
    | ok o =>
      obtain ⟨ho, rfl, hr⟩ := loadObjectForRead_eq_ok.mp hload
      exact variantsOf_perm (h.variants o ho (mayRead_anonymous.mp hr))

/-- Anonymous requests tell apart no two states with the same public part, and an
object that is not public from none at all. -/
theorem anonymous_noninterference (settings : Settings) (paging : Paging)
    (h : AgreeOnPublic db₁ db₂) :
    (∀ requests : List ReadRequest,
      List.Forall₂ ReadAnswer.Same (requests.map (answerRead settings paging db₁ none))
        (requests.map (answerRead settings paging db₂ none))) ∧
    ∀ id, (∀ o ∈ db₁.objects, o.id = id → ¬ o.InCatalogue) → ∀ now,
      getObject db₁ none id = refuse 404 "Media object not found." ∧
      downloadUrl settings db₁ now none id = refuse 404 "Media object not found." ∧
      listVariants db₁ none id = refuse 404 "Media object not found." := by
  constructor
  · intro requests
    induction requests with
    | nil => exact .nil
    | cons r requests ih => exact .cons (answerRead_same h r) ih
  · intro id hid now
    unfold getObject downloadUrl listVariants
    rw [loadObjectForRead_anonymous hid]
    exact ⟨rfl, rfl, rfl⟩

/-- Text in code point order, for requests and pages without a cursor. -/
def Paging.unpaged : Paging where
  collate s t := s ≤ t
  encode _ _ := ""
  decode _ _ := refuse 400 "Invalid cursor."
  collate_total s t := by simpa using String.le_total s t
  collate_trans s t u h h' := by
    simp only [decide_eq_true_eq] at h h' ⊢
    exact String.le_trans h h'
  collate_antisymm s t h h' := by
    simp only [decide_eq_true_eq] at h h'
    exact String.le_antisymm h h'

/-- A public upload found clean. -/
def publicRequests : List Request :=
  cleanUploadRequests Env.default 0 ⟨2⟩ (.ordinary 1) .public pngSignature

def publicDatabase : Database := (run (serve Env.default) World.initial publicRequests).backend.db

/-- The same with a private upload after it. -/
def mixedDatabase : Database :=
  (run (serve Env.default) World.initial (publicRequests ++
    uploadRequests Env.default 1 ⟨3⟩ (.ordinary 1) .private pngSignature)).backend.db

theorem anonymous_noninterference_hiddenUpload :
    List.Forall₂ ReadAnswer.Same
      ([.listObjects .default, .getObject ⟨3⟩, .downloadUrl 2 ⟨3⟩, .listVariants ⟨2⟩].map
        (answerRead Settings.default .unpaged mixedDatabase none))
      ([.listObjects .default, .getObject ⟨3⟩, .downloadUrl 2 ⟨3⟩, .listVariants ⟨2⟩].map
        (answerRead Settings.default .unpaged publicDatabase none)) := by
  refine (anonymous_noninterference Settings.default .unpaged ⟨fun o hc => ⟨fun ho => ?_,
    fun ho => ?_⟩, fun o _ _ v _ => ?_, fun o ho hc c => ?_⟩).1 _
  · exact (by decide +kernel : ∀ o ∈ mixedDatabase.objects, o.InCatalogue →
      o ∈ publicDatabase.objects.rows) o ho hc
  · exact (by decide +kernel : ∀ o ∈ publicDatabase.objects, o ∈ mixedDatabase.objects.rows) o ho
  · rw [Table.mem_def, Table.mem_def, show mixedDatabase.variants.rows = [] by decide +kernel,
      show publicDatabase.variants.rows = [] by decide +kernel]
  · rw [show mixedDatabase.links = ∅ by decide +kernel,
      show publicDatabase.links = ∅ by decide +kernel]

/-! ### Categories -/

/-- The states differ at most in category rows and in filings. -/
def OnlyFilingDiffers (db₁ db₂ : Database) : Prop :=
  ∃ categories categorySeq links, db₂ =
    { db₁ with categories := categories, categorySeq := categorySeq, links := links }

/-- A listing of the objects that are filed nowhere. -/
def ReadRequest.AsksUnfiled : ReadRequest → Prop
  | .listObjects params => params.uncategorized = true
  | _ => False

/-- Categories and filings reach an anonymous answer through the unfiled filter
only, and through it only as far as an object is filed at all. -/
theorem anonymous_blind_to_categories (settings : Settings) (paging : Paging)
    (h : OnlyFilingDiffers db₁ db₂) (r : ReadRequest)
    (hfiled : r.AsksUnfiled → ∀ o ∈ db₁.objects, o.InCatalogue →
      (Filed db₁ o.id ↔ Filed db₂ o.id)) :
    answerRead settings paging db₁ none r = answerRead settings paging db₂ none r := by
  obtain ⟨categories, categorySeq, links, rfl⟩ := h
  have hload : ∀ id, loadObjectForRead { db₁ with
      categories := categories, categorySeq := categorySeq, links := links } none id =
      loadObjectForRead db₁ none id := fun id => rfl
  cases r with
  | listObjects params =>
    exact congrArg ReadAnswer.page (listObjects_congr (fun _ _ => .rfl) hfiled)
  | getObject objectId =>
    simp only [answerRead, getObject, hload]
    rfl
  | downloadUrl now objectId => simp only [answerRead, downloadUrl, hload]
  | listVariants objectId =>
    simp only [answerRead, listVariants, hload]
    rfl

/-- The public upload filed into a category of its owner. -/
def filedDatabase : Database :=
  { publicDatabase with
    categories := ⟨[⟨1, "Work", "work", none, ⟨1⟩, none⟩], by decide⟩
    categorySeq := 2
    links := {(⟨2⟩, 1)} }

theorem anonymous_blind_to_filedUpload :
    answerRead Settings.default .unpaged publicDatabase none (.listObjects .default) =
      answerRead Settings.default .unpaged filedDatabase none (.listObjects .default) :=
  anonymous_blind_to_categories Settings.default .unpaged ⟨_, _, _, rfl⟩ _ (fun h => nomatch h)

/-- The listing of unfiled objects shows which public objects are filed. -/
theorem not_anonymous_blind_to_categories :
    ¬ ∀ (db₁ db₂ : Database) (r : ReadRequest), OnlyFilingDiffers db₁ db₂ →
      answerRead Settings.default .unpaged db₁ none r =
        answerRead Settings.default .unpaged db₂ none r := by
  intro h
  have hpage := h publicDatabase filedDatabase
    (.listObjects { ObjectListParams.default with
      uncategorized := true, unfiled_xor_branch := fun _ => rfl }) ⟨_, _, _, rfl⟩
  rw [answerRead, answerRead, ReadAnswer.page.injEq] at hpage
  revert hpage
  decide +kernel

end MediaService
