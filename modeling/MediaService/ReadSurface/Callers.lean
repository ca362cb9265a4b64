import MediaService.Invariants.CategoryIsolation
import MediaService.Lifecycle.Frames
import MediaService.Lifecycle.Transfer
import MediaService.ReadSurface.Anonymous

/-! What a caller without privileges can tell apart. Two states that agree on the live
objects the caller may view, on what belongs to them, on the caller's own categories and
exports and on which ids are taken give the same answers: of what others keep to
themselves, a caller learns that an id is taken, and nothing more. -/

namespace MediaService

open Foundation

variable {env : Env} {settings : Settings} {paging : Paging} {db db₁ db₂ : Database}
  {user : UserModel} {params : ObjectListParams} {o : MediaObject} {id : UUID}

/-! ### Agreement -/

/-- A live object has the id. -/
def LiveId (db : Database) (id : UUID) : Prop := ∃ o ∈ db.objects, o.id = id ∧ o.deletedAt = none

theorem liveId_iff : LiveId db id ↔
    id ∈ (db.objects.rows.filter fun o => o.deletedAt = none).map MediaObject.id := by
  simp only [LiveId, List.mem_map, List.mem_filter, decide_eq_true_eq, Table.mem_def]
  exact exists_congr fun o => ⟨fun h => ⟨⟨h.1, h.2.2⟩, h.2.1⟩, fun h => ⟨h.1.1, h.2, h.1.2⟩⟩

/-- The states agree on what a caller may read, and on which ids are taken. -/
structure AgreeFor (user : UserModel) (db₁ db₂ : Database) : Prop where
  objects : ∀ o, MayRead (some user) o → (o ∈ db₁.objects ↔ o ∈ db₂.objects)
  taken : ∀ id, LiveId db₁ id ↔ LiveId db₂ id
  variants : ∀ o ∈ db₁.objects, MayRead (some user) o → ∀ v : MediaVariant,
    v.mediaObjectId = o.id → (v ∈ db₁.variants ↔ v ∈ db₂.variants)
  links : ∀ o ∈ db₁.objects, MayRead (some user) o →
    ∀ c, (o.id, c) ∈ db₁.links ↔ (o.id, c) ∈ db₂.links
  scope : SameScope user db₁ db₂
  categoryIds : ∀ i, (db₁.categories.find i).isSome = (db₂.categories.find i).isSome
  exports : ∀ j, j.ownerUserId = user.id → (j ∈ db₁.exportJobs ↔ j ∈ db₂.exportJobs)
  exportIds : ∀ i, (db₁.exportJobs.find i).isSome = (db₂.exportJobs.find i).isSome

/-! ### One object -/

/-- To a caller who may not read it, a live object is a refusal, and any other id is not
there. -/
theorem loadObjectForRead_unread
    (h : ∀ o ∈ db.objects, o.id = id → ¬ MayRead (some user) o) :
    (LiveId db id → loadObjectForRead db (some user) id = refuse 403 "Not enough permissions.") ∧
      (¬ LiveId db id →
        loadObjectForRead db (some user) id = refuse 404 "Media object not found.") := by
  constructor
  · rintro ⟨o, ho, hid, hlive⟩
    have hview : ¬ MayView (some user) o := fun hv => h o ho hid ⟨hlive, hv⟩
    unfold loadObjectForRead
    rw [fetchObject_eq_ok.mpr ⟨ho, hid, .inr hlive⟩]
    have hrefused : requireVisibilityAccess o (some user) =
        refuse 403 "Not enough permissions." := by
      have hnot := mt requireVisibilityAccess_eq_ok.mp hview
      unfold requireVisibilityAccess at hnot ⊢
      dsimp only at hnot ⊢
      split_ifs at hnot ⊢
      · exact absurd rfl hnot
      · exact absurd rfl hnot
      · exact absurd rfl hnot
      · rfl
    simp only [bind, Except.bind, hrefused]
    rfl
  · intro hfree
    unfold loadObjectForRead
    cases hfetch : fetchObject db id false with
    | error e =>
      rw [fetchObject_eq_error hfetch]
      rfl
    | ok o =>
      obtain ⟨ho, hid, hlive⟩ := fetchObject_eq_ok.mp hfetch
      exact absurd ⟨o, ho, hid, by simpa using hlive⟩ hfree

theorem AgreeFor.loadObjectForRead (h : AgreeFor user db₁ db₂) (id : UUID) :
    loadObjectForRead db₁ (some user) id = loadObjectForRead db₂ (some user) id := by
  by_cases hex : ∃ o ∈ db₁.objects, o.id = id ∧ MayRead (some user) o
  · obtain ⟨o, ho, hid, hr⟩ := hex
    rw [loadObjectForRead_eq_ok.mpr ⟨ho, hid, hr⟩,
      loadObjectForRead_eq_ok.mpr ⟨(h.objects o hr).mp ho, hid, hr⟩]
  · have h₁ : ∀ o ∈ db₁.objects, o.id = id → ¬ MayRead (some user) o := fun o ho hid hr =>
      hex ⟨o, ho, hid, hr⟩
    have h₂ : ∀ o ∈ db₂.objects, o.id = id → ¬ MayRead (some user) o := fun o ho hid hr =>
      h₁ o ((h.objects o hr).mpr ho) hid hr
    by_cases hlive : LiveId db₁ id
    · rw [(loadObjectForRead_unread h₁).1 hlive,
        (loadObjectForRead_unread h₂).1 ((h.taken id).mp hlive)]
    · rw [(loadObjectForRead_unread h₁).2 hlive,
        (loadObjectForRead_unread h₂).2 fun hl => hlive ((h.taken id).mpr hl)]

/-! ### Selections -/

theorem AgreeFor.branchCategoryIds (h : AgreeFor user db₁ db₂) (c : ℤ) (descend : Bool) :
    branchCategoryIds db₁ (some user) c descend = branchCategoryIds db₂ (some user) c descend := by
  have hload : loadCategory db₁ user c = loadCategory db₂ user c :=
    h.scope.getCategory (h.categoryIds c)
  unfold MediaService.branchCategoryIds
  dsimp only
  rw [hload, h.scope.categories]

/-- The filing filters are refused alike, and select alike what the caller may read. -/
theorem AgreeFor.categoryFilter (h : AgreeFor user db₁ db₂) (params : ObjectListParams) :
    (∃ e, categoryFilter db₁ (some user) params = .error e ∧
        categoryFilter db₂ (some user) params = .error e) ∨
      ∃ filed₁ filed₂, categoryFilter db₁ (some user) params = .ok filed₁ ∧
        categoryFilter db₂ (some user) params = .ok filed₂ ∧
        ∀ o ∈ db₁.objects, MayRead (some user) o → filed₁ o = filed₂ o := by
  unfold MediaService.categoryFilter
  by_cases hu : params.uncategorized = true
  · rw [if_pos hu, if_pos hu]
    refine .inr ⟨_, _, rfl, rfl, fun o ho hr => ?_⟩
    refine decide_eq_decide.mpr ?_
    simp only [Finset.filter_eq_empty_iff]
    constructor
    · rintro hnone ⟨i, c⟩ hl rfl
      exact hnone ((h.links o ho hr c).mpr hl) rfl
    · rintro hnone ⟨i, c⟩ hl rfl
      exact hnone ((h.links o ho hr c).mp hl) rfl
  · rw [if_neg hu, if_neg hu]
    cases params.categoryId with
    | none => exact .inr ⟨_, _, rfl, rfl, fun _ _ _ => rfl⟩
    | some c =>
      dsimp only
      rw [h.branchCategoryIds]
      cases MediaService.branchCategoryIds db₂ (some user) c params.includeDescendants with
      | error e => exact .inl ⟨e, rfl, rfl⟩
      | ok branch =>
        refine .inr ⟨_, _, rfl, rfl, fun o ho hr => ?_⟩
        exact congrArg branch.any (funext fun i => decide_eq_decide.mpr (h.links o ho hr i))

theorem inListScope_caller (huser : user.isSuperuser = false) :
    inListScope (some user) params o = true ↔ MayRead (some user) o := by
  rw [inListScope_iff, Option.any_some, huser, if_neg (by decide), MayRead, and_comm]

/-- The selections are refused alike, or the same up to their order. -/
theorem AgreeFor.queryObjects (h : AgreeFor user db₁ db₂) (huser : user.isSuperuser = false)
    (params : ObjectListParams) :
    (∃ e, queryObjects db₁ (some user) params = .error e ∧
        queryObjects db₂ (some user) params = .error e) ∨
      ∃ selected₁ selected₂, queryObjects db₁ (some user) params = .ok selected₁ ∧
        queryObjects db₂ (some user) params = .ok selected₂ ∧ selected₁.Perm selected₂ ∧
        ∀ o ∈ selected₁, o ∈ db₁.objects ∧ MayRead (some user) o := by
  rcases h.categoryFilter params with ⟨e, h₁, h₂⟩ | ⟨filed₁, filed₂, h₁, h₂, hsame⟩
  · refine .inl ⟨e, ?_, ?_⟩
    · unfold MediaService.queryObjects
      rw [h₁]
      rfl
    · unfold MediaService.queryObjects
      rw [h₂]
      rfl
  · have hquery : ∀ {db : Database} {filed : MediaObject → Bool},
        MediaService.categoryFilter db (some user) params = .ok filed →
        MediaService.queryObjects db (some user) params = .ok (db.objects.rows.filter fun o =>
          inListScope (some user) params o ∧ passesFilters params o ∧ filed o) := by
      intro db filed hfiled
      unfold MediaService.queryObjects
      rw [hfiled]
      rfl
    have hnodup : ∀ (db : Database) (p : MediaObject → Bool),
        (db.objects.rows.filter p).Nodup :=
      fun db p => (List.Nodup.of_map _ db.objects.nodup).filter p
    refine .inr ⟨_, _, hquery h₁, hquery h₂, ?_, fun o ho => ?_⟩
    · refine (List.perm_ext_iff_of_nodup (hnodup _ _) (hnodup _ _)).mpr fun o => ?_
      simp only [List.mem_filter, decide_eq_true_eq, inListScope_caller huser]
      constructor
      · rintro ⟨ho, hr, hpass, hf⟩
        exact ⟨(h.objects o hr).mp ho, hr, hpass, hsame o ho hr ▸ hf⟩
      · rintro ⟨ho, hr, hpass, hf⟩
        have ho₁ := (h.objects o hr).mpr ho
        exact ⟨ho₁, hr, hpass, (hsame o ho₁ hr).symm ▸ hf⟩
    · obtain ⟨ho, hp⟩ := List.mem_filter.mp ho
      exact ⟨ho, (inListScope_caller huser).mp (of_decide_eq_true hp).1⟩

theorem AgreeFor.categoryRefsByObject (h : AgreeFor user db₁ db₂) (ids : List UUID)
    (ho : o ∈ db₁.objects) (hr : MayRead (some user) o) :
    categoryRefsByObject db₁ (some user) ids o.id =
      categoryRefsByObject db₂ (some user) ids o.id := by
  have hfiled : ((scopedCategories db₂ user).filter fun c => (o.id, c.id) ∈ db₁.links) =
      (scopedCategories db₂ user).filter fun c => (o.id, c.id) ∈ db₂.links :=
    List.filter_congr fun c _ => decide_eq_decide.mpr (h.links o ho hr c.id)
  unfold MediaService.categoryRefsByObject
  dsimp only
  rw [h.scope.categories, hfiled]

/-- Objects with distinct ids are put in one order. -/
theorem orderById_eq_of_perm {os os' : List MediaObject} (hp : os.Perm os')
    (hn : (os.map MediaObject.id).Nodup) : orderById os = orderById os' := by
  refine List.Perm.eq_of_pairwise ?_ (List.pairwise_insertionSort _ _)
    (List.pairwise_insertionSort _ _)
    ((orderById_perm os).trans (hp.trans (orderById_perm os').symm))
  intro o o' ho ho' hle hge
  have hmem : o ∈ os := (orderById_perm os).mem_iff.mp ho
  have hmem' : o' ∈ os := hp.mem_iff.mpr ((orderById_perm os').mem_iff.mp ho')
  refine List.inj_on_of_nodup_map hn hmem hmem' ?_
  have hval : o.id.val = o'.id.val := by bv_omega
  cases hid : o.id
  cases hid' : o'.id
  simp_all

/-! ### Noninterference -/

section Answers

variable (h : AgreeFor user db₁ db₂)

include h

theorem AgreeFor.listObjects (huser : user.isSuperuser = false) :
    listObjects paging db₁ (some user) params = listObjects paging db₂ (some user) params := by
  unfold MediaService.listObjects
  rcases h.queryObjects huser params with ⟨e, h₁, h₂⟩ | ⟨s₁, s₂, h₁, h₂, hp, hread⟩
  · rw [h₁, h₂]
  · rw [h₁, h₂]
    cases params.position paging with
    | error e => rfl
    | ok last =>
      dsimp only
      rw [← cutPage_perm hp (nodup_ids_queryObjects h₁)]
      have hitems : ∀ o ∈ (cutPage paging params s₁ last).1, o ∈ s₁ := by
        intro o ho
        have hsorted := List.mem_of_mem_take ho
        rw [List.mem_insertionSort] at hsorted
        exact (List.mem_filter.mp hsorted).1
      have hanswers : ((cutPage paging params s₁ last).1.mapM fun o =>
          MediaObjectPublic.modelValidate o (MediaService.categoryRefsByObject db₁ (some user)
            ((cutPage paging params s₁ last).1.map MediaObject.id) o.id)) =
          (cutPage paging params s₁ last).1.mapM fun o =>
            MediaObjectPublic.modelValidate o (MediaService.categoryRefsByObject db₂ (some user)
              ((cutPage paging params s₁ last).1.map MediaObject.id) o.id) := by
        refine mapM_congr fun o ho => ?_
        obtain ⟨hmem, hr⟩ := hread o (hitems o ho)
        rw [h.categoryRefsByObject _ hmem hr]
      rw [hanswers]

theorem AgreeFor.getObject (id : UUID) :
    getObject db₁ (some user) id = getObject db₂ (some user) id := by
  unfold MediaService.getObject
  rw [← h.loadObjectForRead]
  cases hload : MediaService.loadObjectForRead db₁ (some user) id with
  | error e => rfl
  | ok o =>
    obtain ⟨ho, -, hr⟩ := loadObjectForRead_eq_ok.mp hload
    dsimp only
    rw [h.categoryRefsByObject _ ho hr]

theorem AgreeFor.answerRead (huser : user.isSuperuser = false) (r : ReadRequest) :
    (answerRead settings paging db₁ (some user) r).Same
      (answerRead settings paging db₂ (some user) r) := by
  cases r with
  | listObjects params =>
    exact ReadAnswer.same_of_eq (congrArg ReadAnswer.page (h.listObjects huser))
  | getObject id => exact ReadAnswer.same_of_eq (congrArg ReadAnswer.object (h.getObject id))
  | downloadUrl now id =>
    refine ReadAnswer.same_of_eq (congrArg ReadAnswer.url ?_)
    unfold MediaService.downloadUrl
    rw [h.loadObjectForRead]
  | listVariants id =>
    simp only [MediaService.answerRead, listVariants]
    rw [← h.loadObjectForRead]
    cases hload : MediaService.loadObjectForRead db₁ (some user) id with
    | error e => exact ReadAnswer.same_of_eq rfl
    | ok o =>
      obtain ⟨ho, rfl, hr⟩ := loadObjectForRead_eq_ok.mp hload
      exact variantsOf_perm (h.variants o ho hr)

theorem AgreeFor.buildManifest (huser : user.isSuperuser = false) :
    buildManifest env db₁ user params = buildManifest env db₂ user params := by
  unfold MediaService.buildManifest manifestObjects
  rcases h.queryObjects huser params with ⟨e, h₁, h₂⟩ | ⟨s₁, s₂, h₁, h₂, hp, hread⟩
  · rw [h₁, h₂]
  · rw [h₁, h₂]
    dsimp only
    rw [← orderById_eq_of_perm hp (nodup_ids_queryObjects h₁), h.scope.getCategoryTree]
    congr 2
    refine List.map_congr_left fun o ho => ?_
    obtain ⟨hmem, hr⟩ := hread o ((orderById_perm s₁).mem_iff.mp ho)
    rw [h.categoryRefsByObject _ hmem hr]

theorem AgreeFor.getExportJob (huser : user.isSuperuser = false) (now : Timestamp)
    (jobId : UUID) :
    getExportJob settings db₁ now user jobId = getExportJob settings db₂ now user jobId := by
  have hload : loadExportJob db₁ user jobId = loadExportJob db₂ user jobId := by
    have hids := h.exportIds jobId
    unfold loadExportJob
    cases h₁ : db₁.exportJobs.find jobId with
    | none =>
      rw [h₁, Option.isSome_none, eq_comm, Option.isSome_eq_false_iff,
        Option.isNone_iff_eq_none] at hids
      rw [hids]
    | some j =>
      rw [h₁, Option.isSome_some, eq_comm, Option.isSome_iff_exists] at hids
      obtain ⟨j', h₂⟩ := hids
      rw [h₂]
      have hkeys := (Table.key_of_find h₁).trans (Table.key_of_find h₂).symm
      by_cases hown : j.ownerUserId = user.id
      · have hmem := (h.exports j hown).mp (Table.mem_of_find h₁)
        rw [Table.eq_of_key_eq hmem (Table.mem_of_find h₂) hkeys]
      · have hown' : j'.ownerUserId ≠ user.id := by
          intro hown'
          have hmem := (h.exports j' hown').mpr (Table.mem_of_find h₂)
          rw [Table.eq_of_key_eq (Table.mem_of_find h₁) hmem hkeys] at hown
          exact hown hown'
        simp [huser, hown, hown']
  unfold MediaService.getExportJob
  rw [hload]

end Answers

/-- A caller without privileges tells apart no two states that agree on what the caller may
read and on which ids are taken: every listing, page, object, download, list of variants,
manifest and export answers alike; and of a live object that is kept from the caller every
request tells the same. -/
theorem caller_noninterference (env : Env) (settings : Settings) (paging : Paging)
    (huser : user.isSuperuser = false) (h : AgreeFor user db₁ db₂) :
    (∀ requests : List ReadRequest,
      List.Forall₂ ReadAnswer.Same (requests.map (answerRead settings paging db₁ (some user)))
        (requests.map (answerRead settings paging db₂ (some user)))) ∧
    (∀ params, buildManifest env db₁ user params = buildManifest env db₂ user params) ∧
    (∀ now jobId,
      getExportJob settings db₁ now user jobId = getExportJob settings db₂ now user jobId) ∧
    ∀ o ∈ db₁.objects, o.deletedAt = none → ¬ MayView (some user) o → ∀ now,
      getObject db₁ (some user) o.id = refuse 403 "Not enough permissions." ∧
      downloadUrl settings db₁ now (some user) o.id = refuse 403 "Not enough permissions." ∧
      listVariants db₁ (some user) o.id = refuse 403 "Not enough permissions." := by
  refine ⟨fun requests => ?_, fun params => h.buildManifest huser,
    fun now jobId => h.getExportJob huser now jobId, fun o ho hlive hview now => ?_⟩
  · induction requests with
    | nil => exact .nil
    | cons r requests ih => exact .cons (h.answerRead huser r) ih
  · have hunread : ∀ q ∈ db₁.objects, q.id = o.id → ¬ MayRead (some user) q := by
      intro q hq hid hr
      rw [Table.eq_of_key_eq hq ho hid] at hr
      exact hview hr.2
    have hload := (loadObjectForRead_unread hunread).1 ⟨o, ho, rfl, hlive⟩
    unfold MediaService.getObject downloadUrl listVariants
    rw [hload]
    exact ⟨rfl, rfl, rfl⟩

/-- A public and a private upload. -/
def mixedWorld : World :=
  run (serve Env.default) World.initial (publicRequests ++
    uploadRequests Env.default 1 ⟨3⟩ (.ordinary 1) .private pngSignature)

/-- A stranger is not told the verdict on a private upload. -/
theorem caller_noninterference_verdict :
    List.Forall₂ ReadAnswer.Same
      ([.listObjects .default, .getObject ⟨3⟩, .downloadUrl 2 ⟨3⟩, .listVariants ⟨2⟩].map
        (answerRead Settings.default .unpaged mixedWorld.backend.db (some (.ordinary 5))))
      ([.listObjects .default, .getObject ⟨3⟩, .downloadUrl 2 ⟨3⟩, .listVariants ⟨2⟩].map
        (answerRead Settings.default .unpaged
          (serve Env.default mixedWorld (.scanResult 2 ⟨3⟩ .infected)).backend.db
          (some (.ordinary 5)))) := by
  have hsame : ∀ t, t ∉ [TableName.objects, .outbox] → SameTable mixedWorld.backend.db
      (serve Env.default mixedWorld (.scanResult 2 ⟨3⟩ .infected)).backend.db t :=
    fun t ht => sameTable_serve Env.default mixedWorld ht
  have hvariants := hsame .variants (by decide)
  have hlinks := hsame .links (by decide)
  have hcategories := (hsame .categories (by decide)).1
  have hexports := hsame .exportJobs (by decide)
  have hread : ∀ o, MayRead (some (.ordinary 5)) o →
      (o ∈ mixedWorld.backend.db.objects ↔
        o ∈ (serve Env.default mixedWorld (.scanResult 2 ⟨3⟩ .infected)).backend.db.objects) := by
    intro o hr
    have hin := (@inListScope_caller (.ordinary 5) .default o rfl).mpr hr
    constructor
    · intro ho
      exact (by decide +kernel : ∀ o ∈ mixedWorld.backend.db.objects,
        inListScope (some (.ordinary 5)) .default o = true → o ∈ (serve Env.default mixedWorld
          (.scanResult 2 ⟨3⟩ .infected)).backend.db.objects.rows) o ho hin
    · intro ho
      exact (by decide +kernel : ∀ o ∈ (serve Env.default mixedWorld
        (.scanResult 2 ⟨3⟩ .infected)).backend.db.objects,
        inListScope (some (.ordinary 5)) .default o = true →
          o ∈ mixedWorld.backend.db.objects.rows) o ho hin
  refine (caller_noninterference Env.default Settings.default .unpaged rfl
    ⟨hread, fun id => ?_, fun _ _ _ v _ => ?_, fun _ _ _ c => ?_, ⟨?_, fun c _ id => ?_⟩,
      fun i => ?_, fun j _ => ?_, fun i => ?_⟩).1 _
  · rw [liveId_iff, liveId_iff]
    exact Eq.to_iff (congrArg (id ∈ ·) (by decide +kernel))
  · rw [hvariants]
  · rw [hlinks]
  · unfold scopedCategories
    rw [hcategories]
  · rw [hlinks]
  · rw [hcategories]
  · rw [hexports]
  · rw [hexports]

end MediaService
