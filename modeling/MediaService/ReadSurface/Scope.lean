import MediaService.Controllers.Listing
import MediaService.Scenario

/-! Who may read what. The policy is stated once; the clauses of the listing
query and the branches of the fetch by id both come down to it. Filters apply on
top of the scope, so they only narrow. A fetch answers what it may read as far as
the row fits the model of its answer. -/

namespace MediaService

open Foundation

variable {db : Database} {user : Option UserModel} {o : MediaObject} {id : UUID}

/-! ### The policy -/

/-- Live and found clean: the bytes may be handed out. -/
def MediaObject.InService (o : MediaObject) : Prop := o.deletedAt = none ∧ o.scanStatus = .clean

instance (o : MediaObject) : Decidable o.InService := by
  unfold MediaObject.InService
  infer_instance

/-- A superuser and the owner may see an object; anyone a public one, and a
tenant's own members a tenant one. -/
def MayView (user : Option UserModel) (o : MediaObject) : Prop :=
  o.visibility = .public ∨
    ∃ u, user = some u ∧ (u.isSuperuser = true ∨ o.ownerUserId = u.id ∨
      (o.visibility = .tenant ∧ ∃ t, u.tenantId = some t ∧ o.tenantId = some t))

/-- What a caller may read is live besides. -/
def MayRead (user : Option UserModel) (o : MediaObject) : Prop :=
  o.deletedAt = none ∧ MayView user o

theorem mayView_anonymous : MayView none o ↔ o.visibility = .public := by
  simp [MayView]

theorem same_tenant_iff {s t : Option UUID} :
    (s.isSome ∧ t = s) ↔ ∃ u, s = some u ∧ t = some u := by
  cases s <;> simp

/-! ### Fetching by id -/

theorem fetchObject_eq_ok {includeDeleted : Bool} :
    fetchObject db id includeDeleted = .ok o ↔
      o ∈ db.objects ∧ o.id = id ∧ (includeDeleted = true ∨ o.deletedAt = none) := by
  rw [← and_assoc, ← Table.find_eq_some]
  unfold fetchObject
  cases hf : db.objects.find id with
  | none => simp
  | some q =>
    dsimp only
    split
    · rename_i h
      simp only [refuse_ne_ok, Option.some.injEq, false_iff, not_and, not_or]
      rintro rfl
      simpa [Option.isSome_iff_ne_none] using h
    · rename_i h
      simp only [Except.ok.injEq, Option.some.injEq, iff_self_and]
      rintro rfl
      simpa [imp_iff_not_or] using h

theorem requireVisibilityAccess_eq_ok :
    requireVisibilityAccess o user = .ok () ↔ MayView user o := by
  unfold requireVisibilityAccess MayView
  cases user with
  | none => by_cases hp : o.visibility = .public <;> simp [hp]
  | some u =>
    simp only [Option.some.injEq, exists_eq_left', same_tenant_iff]
    by_cases hs : u.isSuperuser = true ∨ o.ownerUserId = u.id
    · simp only [hs, if_true, true_iff]
      exact .inr (hs.imp_right .inl)
    · by_cases hp : o.visibility = .public
      · simp [hp]
      · by_cases ht : o.visibility = .tenant ∧ ∃ t, u.tenantId = some t ∧ o.tenantId = some t
        · simp [ht]
        · simp only [hs, hp, ht, if_false, refuse_ne_ok, or_false]

/-- A fetch for reading succeeds exactly on what the caller may read. -/
theorem loadObjectForRead_eq_ok :
    loadObjectForRead db user id = .ok o ↔ o ∈ db.objects ∧ o.id = id ∧ MayRead user o := by
  unfold loadObjectForRead
  cases hf : fetchObject db id false with
  | error e =>
    simp only [bind, Except.bind, reduceCtorEq, false_iff]
    rintro ⟨ho, hid, hr⟩
    rw [fetchObject_eq_ok.mpr ⟨ho, hid, .inr hr.1⟩] at hf
    cases hf
  | ok q =>
    obtain ⟨hq, hid, hlive⟩ := fetchObject_eq_ok.mp hf
    simp only [bind, Except.bind, pure, Except.pure]
    have hview : requireVisibilityAccess q user = .ok () ↔ MayView user q :=
      requireVisibilityAccess_eq_ok
    cases hv : requireVisibilityAccess q user with
    | error e =>
      rw [hv] at hview
      simp only [reduceCtorEq, false_iff] at hview ⊢
      rintro ⟨ho, hid', hr⟩
      obtain rfl := Table.eq_of_key_eq hq ho (hid.trans hid'.symm)
      exact hview hr.2
    | ok u =>
      have hview := hview.mp hv
      simp only [Except.ok.injEq]
      constructor
      · rintro rfl
        exact ⟨hq, hid, by simpa using hlive, hview⟩
      · rintro ⟨ho, hid', -⟩
        exact Table.eq_of_key_eq hq ho (hid.trans hid'.symm)

theorem getObject_eq_ok {answer : MediaObjectPublic} : getObject db user id = .ok answer ↔
    ∃ o ∈ db.objects, o.id = id ∧ MayRead user o ∧ o.Presentable ∧
      answer = ⟨o, categoryRefsByObject db user [o.id] o.id⟩ := by
  unfold getObject
  cases h : loadObjectForRead db user id with
  | error e =>
    simp only [reduceCtorEq, false_iff]
    rintro ⟨o, ho, hid, hread, -⟩
    rw [loadObjectForRead_eq_ok.mpr ⟨ho, hid, hread⟩] at h
    cases h
  | ok q =>
    obtain ⟨hq, hid, hread⟩ := loadObjectForRead_eq_ok.mp h
    dsimp only
    rw [MediaObjectPublic.modelValidate_eq_ok]
    constructor
    · rintro ⟨hfits, he⟩
      exact ⟨q, hq, hid, hread, hfits, he⟩
    · rintro ⟨o, ho, hid', -, hfits, he⟩
      obtain rfl := Table.eq_of_key_eq hq ho (hid.trans hid'.symm)
      exact ⟨hfits, he⟩

theorem getObject_isOk : (∃ answer, getObject db user id = .ok answer) ↔
    ∃ o ∈ db.objects, o.id = id ∧ MayRead user o ∧ o.Presentable := by
  constructor
  · rintro ⟨answer, h⟩
    obtain ⟨o, ho, hid, hread, hfits, -⟩ := getObject_eq_ok.mp h
    exact ⟨o, ho, hid, hread, hfits⟩
  · rintro ⟨o, ho, hid, hread, hfits⟩
    exact ⟨_, getObject_eq_ok.mpr ⟨o, ho, hid, hread, hfits, rfl⟩⟩

/-- A download goes through exactly on what the caller may read and what is in
service. -/
theorem downloadUrl_eq_ok {settings : Settings} {now : Timestamp} {url : DownloadUrl} :
    downloadUrl settings db now user id = .ok url ↔
      ∃ o ∈ db.objects, o.id = id ∧ o.InService ∧ MayView user o ∧
        url = objectUrl settings o now := by
  unfold downloadUrl
  cases h : loadObjectForRead db user id with
  | error e =>
    simp only [reduceCtorEq, false_iff]
    rintro ⟨o, ho, hid, hs, hv, -⟩
    rw [loadObjectForRead_eq_ok.mpr ⟨ho, hid, hs.1, hv⟩] at h
    cases h
  | ok q =>
    obtain ⟨hq, hid, hlive, hv⟩ := loadObjectForRead_eq_ok.mp h
    dsimp only
    split
    · rename_i hscan
      simp only [reduceCtorEq, false_iff]
      rintro ⟨o, ho, hid', hs, -⟩
      obtain rfl := Table.eq_of_key_eq hq ho (hid.trans hid'.symm)
      exact hscan hs.2
    · rename_i hscan
      simp only [Except.ok.injEq]
      constructor
      · rintro rfl
        exact ⟨q, hq, hid, ⟨hlive, not_not.mp hscan⟩, hv, rfl⟩
      · rintro ⟨o, ho, hid', -, -, rfl⟩
        rw [Table.eq_of_key_eq hq ho (hid.trans hid'.symm)]

/-! ### The listing -/

/-- The scope of a superuser's list, narrowed to an owner and widened to the
deleted as asked for; everyone else's is what they may read. -/
theorem inListScope_iff {params : ObjectListParams} :
    inListScope user params o = true ↔ MayView user o ∧
      if user.any UserModel.isSuperuser then
        (∀ owner, params.ownerUserId = some owner → o.ownerUserId = owner) ∧
          (params.includeDeleted = true ∨ o.deletedAt = none)
      else o.deletedAt = none := by
  unfold inListScope MayView
  cases user with
  | none => simp
  | some u =>
    by_cases hs : u.isSuperuser = true
    · have howner : (params.ownerUserId = none ∨ params.ownerUserId = some o.ownerUserId) ↔
          ∀ owner, params.ownerUserId = some owner → o.ownerUserId = owner := by
        cases params.ownerUserId <;> simp [eq_comm]
      simp [hs, howner]
    · simp only [hs, Bool.false_eq_true, if_false, decide_eq_true_eq, Option.any_some,
        Option.some.injEq, exists_eq_left', false_or]
      rw [and_left_comm (b := o.visibility = .tenant), same_tenant_iff]
      tauto

theorem queryObjects_ok {params : ObjectListParams} {selected : List MediaObject}
    (h : queryObjects db user params = .ok selected) :
    ∃ filed, categoryFilter db user params = .ok filed ∧ selected = db.objects.rows.filter fun o =>
      inListScope user params o ∧ passesFilters params o ∧ filed o := by
  unfold queryObjects at h
  cases hfiled : categoryFilter db user params with
  | error e => simp [hfiled, bind, Except.bind] at h
  | ok filed =>
    simp only [hfiled, bind, Except.bind, pure, Except.pure, Except.ok.injEq] at h
    exact ⟨filed, rfl, h.symm⟩

theorem nodup_ids_queryObjects {params : ObjectListParams} {selected : List MediaObject}
    (h : queryObjects db user params = .ok selected) : (selected.map MediaObject.id).Nodup := by
  obtain ⟨filed, -, rfl⟩ := queryObjects_ok h
  exact db.objects.nodup.sublist (List.filter_sublist.map _)

/-- The same request with every filter dropped. -/
def ObjectListParams.unfiltered (params : ObjectListParams) : ObjectListParams :=
  { params with
    category := none
    visibility := none
    status := none
    mimePrefix := none
    createdFrom := none
    createdTo := none
    q := none
    ownerUserId := none
    categoryId := none
    uncategorized := false
    one_le_categoryId := ObjectListParams.default.one_le_categoryId
    unfiled_xor_branch := ObjectListParams.default.unfiled_xor_branch }

theorem passesFilters_unfiltered (params : ObjectListParams) (o : MediaObject) :
    passesFilters params.unfiltered o = true := rfl

/-- Without filters the listing selects its scope. -/
theorem queryObjects_unfiltered (params : ObjectListParams) :
    queryObjects db user params.unfiltered =
      .ok (db.objects.rows.filter (inListScope user params.unfiltered)) := by
  have hfiled : categoryFilter db user params.unfiltered = .ok fun _ => true := rfl
  unfold queryObjects
  rw [hfiled]
  simp only [bind, Except.bind, pure, Except.pure, passesFilters_unfiltered, and_true]
  simp

theorem inListScope_unfiltered {params : ObjectListParams}
    (h : inListScope user params o = true) : inListScope user params.unfiltered o = true := by
  have howner : params.unfiltered.ownerUserId = none := rfl
  have hincl : params.unfiltered.includeDeleted = params.includeDeleted := rfl
  rw [inListScope_iff] at h ⊢
  rw [howner, hincl]
  refine ⟨h.1, ?_⟩
  by_cases hs : user.any UserModel.isSuperuser = true
  · rw [if_pos hs] at h ⊢
    exact ⟨nofun, h.2.2⟩
  · rw [if_neg hs] at h ⊢
    exact h.2

/-- A filter takes rows away from the unfiltered listing only. -/
theorem queryObjects_subset {params : ObjectListParams} {filtered : List MediaObject}
    (h : queryObjects db user params = .ok filtered) :
    ∃ selected, queryObjects db user params.unfiltered = .ok selected ∧ filtered ⊆ selected := by
  obtain ⟨filed, -, rfl⟩ := queryObjects_ok h
  refine ⟨_, queryObjects_unfiltered params, fun o ho => ?_⟩
  obtain ⟨hmem, ho⟩ := List.mem_filter.mp ho
  exact List.mem_filter.mpr ⟨hmem, inListScope_unfiltered (of_decide_eq_true ho).1⟩

/-- Without filters and without the deleted, the listing selects what may be read. -/
theorem mem_unfiltered_iff {params : ObjectListParams} (hlive : params.includeDeleted = false) :
    o ∈ db.objects.rows.filter (inListScope user params.unfiltered) ↔
      o ∈ db.objects ∧ MayRead user o := by
  have hincl : params.unfiltered.includeDeleted = false := hlive
  have howner : params.unfiltered.ownerUserId = none := rfl
  rw [List.mem_filter, inListScope_iff, hincl, howner, MayRead, and_comm (a := MayView user o)]
  simp [Table.mem_def]

/-- The unfiltered listing of the live objects is what the caller can fetch by id, and
every set of filters only narrows the listing. -/
def ListingAgreesWithFetch (db : Database) (user : Option UserModel) : Prop :=
  (∀ params : ObjectListParams, params.includeDeleted = false →
    ∃ selected, queryObjects db user params.unfiltered = .ok selected ∧
      ∀ id, (∃ o ∈ selected, o.id = id) ↔ ∃ answer, getObject db user id = .ok answer) ∧
  ∀ (params : ObjectListParams) (filtered : List MediaObject),
    queryObjects db user params = .ok filtered →
    ∃ selected, queryObjects db user params.unfiltered = .ok selected ∧ filtered ⊆ selected

theorem ListingAgreesWithFetch.presentable (h : ListingAgreesWithFetch db user)
    (ho : o ∈ db.objects) (hread : MayRead user o) : o.Presentable := by
  obtain ⟨selected, hselected, hids⟩ := h.1 .default rfl
  rw [queryObjects_unfiltered] at hselected
  cases hselected
  have hfetch := (hids o.id).mp ⟨o, (mem_unfiltered_iff rfl).mpr ⟨ho, hread⟩, rfl⟩
  obtain ⟨q, hq, hid, -, hfits⟩ := getObject_isOk.mp hfetch
  exact Table.eq_of_key_eq hq ho hid ▸ hfits

/-- The two agree exactly when every row the caller may read fits the answer. -/
theorem listing_agrees_with_fetch_iff (db : Database) (user : Option UserModel) :
    ListingAgreesWithFetch db user ↔ ∀ o ∈ db.objects, MayRead user o → o.Presentable := by
  constructor
  · intro h o ho hread
    exact h.presentable ho hread
  · intro hfits
    refine ⟨fun params hlive => ?_, fun params filtered h => queryObjects_subset h⟩
    refine ⟨_, queryObjects_unfiltered params, fun id => ?_⟩
    rw [getObject_isOk]
    refine exists_congr fun o => ?_
    rw [mem_unfiltered_iff hlive]
    constructor
    · rintro ⟨⟨ho, hread⟩, hid⟩
      exact ⟨ho, hid, hread, hfits o ho hread⟩
    · rintro ⟨ho, hid, hread, -⟩
      exact ⟨⟨ho, hread⟩, hid⟩

/-- The owner of an upload completed with an empty digest may read its row, which does
not fit the answer. -/
theorem exists_emptyDigest :
    ∃ o ∈ (run (serve Env.default) World.initial emptyDigestRequests).backend.db.objects,
      MayRead (some (.ordinary 1)) o ∧ ¬ o.Presentable := by
  have hrow : ∃ o ∈ (run (serve Env.default) World.initial
      emptyDigestRequests).backend.db.objects.rows,
      o.deletedAt = none ∧ o.ownerUserId = ⟨1⟩ ∧ ¬ o.Presentable := by
    decide +kernel
  obtain ⟨o, ho, hlive, howner, hbad⟩ := hrow
  exact ⟨o, ho, ⟨hlive, .inr ⟨_, rfl, .inr (.inl howner)⟩⟩, hbad⟩

/-- The listing shows that row, and the fetch cannot answer it. -/
theorem not_listing_agrees_with_fetch :
    ¬ ListingAgreesWithFetch
      (run (serve Env.default) World.initial emptyDigestRequests).backend.db
      (some (.ordinary 1)) := by
  intro h
  obtain ⟨o, ho, hread, hbad⟩ := exists_emptyDigest
  exact hbad (h.presentable ho hread)

end MediaService
