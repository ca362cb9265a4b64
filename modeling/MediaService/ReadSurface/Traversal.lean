import MediaService.Controllers.Cursor
import MediaService.ReadSurface.Anonymous

/-! Reading a listing page by page. Each page takes the rows behind the last one
shown, so over an unchanged database the pages that the cursors lead through are
the sorted result cut into pieces. -/

namespace MediaService

open Foundation

variable {paging : Paging} {db : Database} {user : Option UserModel} {params : ObjectListParams}
  {selected : List MediaObject}

/-- The pages from a request on, each continuing where the cursor of the one before
it leads; the last has no cursor. -/
inductive Traverses (paging : Paging) (db : Database) (user : Option UserModel) :
    ObjectListParams → List ObjectListResponse → Prop
  | last {params : ObjectListParams} {page : ObjectListResponse} :
    listObjects paging db user params = .ok page → page.nextCursor = none →
    Traverses paging db user params [page]
  | next {params : ObjectListParams} {page : ObjectListResponse} {cursor : String}
    {pages : List ObjectListResponse} :
    listObjects paging db user params = .ok page → page.nextCursor = some cursor →
    Traverses paging db user { params with cursor := some cursor } pages →
    Traverses paging db user params (page :: pages)

/-- The rows of the pages, in the order they are shown. -/
def shownRows (pages : List ObjectListResponse) : List MediaObject :=
  pages.flatMap fun page => page.items.map MediaObjectPublic.object

theorem Traverses.unique {pages pages' : List ObjectListResponse}
    (h : Traverses paging db user params pages) (h' : Traverses paging db user params pages') :
    pages = pages' := by
  induction h generalizing pages' with
  | last hpage hnone =>
    cases h' with
    | last hpage' hnone' =>
      cases hpage.symm.trans hpage'
      rfl
    | next hpage' hsome' h' =>
      cases hpage.symm.trans hpage'
      cases hnone.symm.trans hsome'
  | next hpage hsome h ih =>
    cases h' with
    | last hpage' hnone' =>
      cases hpage.symm.trans hpage'
      cases hsome.symm.trans hnone'
    | next hpage' hsome' h' =>
      cases hpage.symm.trans hpage'
      cases hsome.symm.trans hsome'
      rw [ih h']

/-- The result in the order it is shown. -/
def sortedRows (paging : Paging) (params : ObjectListParams) (selected : List MediaObject) :
    List MediaObject :=
  selected.insertionSort fun o o' => paging.shows params o o'

theorem sortedRows_perm : (sortedRows paging params selected).Perm selected :=
  List.perm_insertionSort _ _

variable (paging params selected) in
theorem sortedRows_pairwise :
    (sortedRows paging params selected).Pairwise fun o o' => paging.shows params o o' = true :=
  List.pairwise_insertionSort _ _

/-- The rows behind one of the sorted rows are those after it. -/
theorem filter_behind {pre post : List MediaObject} {o : MediaObject}
    (hn : (selected.map MediaObject.id).Nodup)
    (hsorted : sortedRows paging params selected = pre ++ o :: post) :
    (selected.filter fun o' => paging.behind params (sortPosition _ o) o').insertionSort
      (fun o o' => paging.shows params o o') = post := by
  have hpairwise := sortedRows_pairwise paging params selected
  have hnodup : ((pre ++ o :: post).map MediaObject.id).Nodup := by
    rw [← hsorted]
    exact (sortedRows_perm.map _).nodup_iff.mpr hn
  rw [hsorted] at hpairwise
  have hself : paging.shows params o o = true :=
    (Std.Total.total (r := fun o o' => paging.shows params o o' = true) o o).elim id id
  have hpre : ∀ o' ∈ pre, paging.shows params o' o = true := fun o' ho' =>
    (List.pairwise_append.mp hpairwise).2.2 o' ho' o List.mem_cons_self
  have hpost : ∀ o' ∈ post, paging.shows params o' o = false := by
    intro o' ho'
    have hle := (List.pairwise_cons.mp (List.pairwise_append.mp hpairwise).2.1).1 o' ho'
    refine Bool.eq_false_iff.mpr fun hge => ?_
    rw [List.map_append, List.map_cons] at hnodup
    exact (List.nodup_cons.mp hnodup.of_append_right).1
      (List.mem_map.mpr ⟨o', ho', (paging.id_eq_of_shows hle hge).symm⟩)
  have hfilter : (pre ++ o :: post).filter
      (fun o' => paging.behind params (sortPosition _ o) o') = post := by
    simp only [paging.behind_eq]
    rw [List.filter_append, List.filter_eq_nil_iff.mpr fun o' ho' => by simp [hpre o' ho'],
      List.filter_cons, if_neg (by simp [hself]), List.nil_append]
    exact List.filter_eq_self.mpr fun o' ho' => by simp [hpost o' ho']
  refine paging.insertionSort_eq ?_ (hn.sublist (List.filter_sublist.map _))
    (List.pairwise_cons.mp (List.pairwise_append.mp hpairwise).2.1).2
  rw [← hfilter, ← hsorted]
  exact (sortedRows_perm.filter _).symm

/-- Behind the last of the rows shown so far are the rest. -/
theorem filter_behind_getLast {pre post : List MediaObject}
    (hn : (selected.map MediaObject.id).Nodup)
    (hsorted : sortedRows paging params selected = pre ++ post) :
    (selected.filter fun o => (pre.getLast?.map (sortPosition params.sortBy)).all
      fun p => paging.behind params p o).insertionSort
        (fun o o' => paging.shows params o o') = post := by
  rcases List.eq_nil_or_concat pre with rfl | ⟨pre, o, rfl⟩
  · exact (congrArg (List.insertionSort _) (List.filter_eq_self.mpr fun _ _ => rfl)).trans hsorted
  · rw [List.concat_eq_append, List.append_assoc, List.singleton_append] at hsorted
    rw [List.concat_eq_append, List.getLast?_append, List.getLast?_singleton, Option.some_or]
    exact filter_behind hn hsorted

theorem mem_of_mem_cutPage {last : Option (params.sortBy.Value × UUID)} {o : MediaObject}
    (h : o ∈ (cutPage paging params selected last).1) : o ∈ selected := by
  have hrow := List.mem_of_mem_take h
  rw [List.mem_insertionSort] at hrow
  exact (List.mem_filter.mp hrow).1

/-- The page behind the rows shown so far. -/
theorem page_of_listObjects {page : ObjectListResponse} {pre post : List MediaObject}
    (hpage : listObjects paging db user params = .ok page)
    (hselected : queryObjects db user params = .ok selected)
    (hn : (selected.map MediaObject.id).Nodup)
    (hsorted : sortedRows paging params selected = pre ++ post)
    (hpos : params.position paging = .ok (pre.getLast?.map (sortPosition params.sortBy))) :
    page.items.map MediaObjectPublic.object = post.take params.limit ∧
      page.nextCursor = if params.limit < post.length then
        (post.take params.limit).getLast?.map fun o =>
          paging.encode params.sortBy (sortPosition _ o) else none := by
  obtain ⟨selected', last, hselected', hpos', -, rfl⟩ := listObjects_eq_ok.mp hpage
  cases hselected.symm.trans hselected'
  cases hpos.symm.trans hpos'
  dsimp only [pageAnswer, cutPage]
  rw [filter_behind_getLast hn hsorted, List.map_map]
  exact ⟨List.map_id _, rfl⟩

/-- Where rows are left, the cursor names the last row shown. -/
theorem position_rest (hdecode : ∀ o ∈ selected, paging.decode params.sortBy
      (paging.encode params.sortBy (sortPosition _ o)) = .ok (sortPosition _ o))
    {pre post : List MediaObject} (hsorted : sortedRows paging params selected = pre ++ post)
    (hmore : params.limit < post.length) :
    ∃ cursor, (post.take params.limit).getLast?.map (fun o =>
        paging.encode params.sortBy (sortPosition _ o)) = some cursor ∧
      ObjectListParams.position { params with cursor := some cursor } paging =
        .ok ((pre ++ post.take params.limit).getLast?.map (sortPosition params.sortBy)) := by
  obtain ⟨o, ho⟩ : ∃ o, (post.take params.limit).getLast? = some o := by
    refine Option.ne_none_iff_exists'.mp fun hnone => ?_
    have hempty := congrArg List.length (List.getLast?_eq_none_iff.mp hnone)
    have hlimit := params.one_le_limit
    rw [List.length_take, List.length_nil] at hempty
    omega
  have hmem : o ∈ selected := by
    refine sortedRows_perm.mem_iff.mp (?_ : o ∈ sortedRows paging params selected)
    rw [hsorted]
    exact List.mem_append_right _ (List.mem_of_mem_take (List.mem_of_getLast? ho))
  refine ⟨_, by rw [ho, Option.map_some], ?_⟩
  unfold ObjectListParams.position
  dsimp only
  rw [hdecode o hmem, List.getLast?_append, ho]
  rfl

/-- From the rows shown so far, the pages show the rest. -/
theorem Traverses.shows_rest {pages : List ObjectListResponse}
    (h : Traverses paging db user params pages)
    (hdecode : ∀ o ∈ selected, paging.decode params.sortBy
      (paging.encode params.sortBy (sortPosition _ o)) = .ok (sortPosition _ o))
    (hselected : queryObjects db user params = .ok selected)
    (hn : (selected.map MediaObject.id).Nodup) {pre post : List MediaObject}
    (hsorted : sortedRows paging params selected = pre ++ post)
    (hpos : params.position paging = .ok (pre.getLast?.map (sortPosition params.sortBy))) :
    shownRows pages = post := by
  induction h generalizing pre post with
  | @last params page hpage hnone =>
    obtain ⟨hitems, hnext⟩ := page_of_listObjects hpage hselected hn hsorted hpos
    rw [shownRows, List.flatMap_singleton, hitems]
    by_cases hmore : params.limit < post.length
    · obtain ⟨cursor, hcursor, -⟩ := position_rest hdecode hsorted hmore
      rw [if_pos hmore, hcursor, hnone] at hnext
      cases hnext
    · exact List.take_of_length_le (not_lt.mp hmore)
  | @next params page cursor pages hpage hsome hrest ih =>
    obtain ⟨hitems, hnext⟩ := page_of_listObjects hpage hselected hn hsorted hpos
    by_cases hmore : params.limit < post.length
    · obtain ⟨cursor', hcursor, hpos'⟩ := position_rest hdecode hsorted hmore
      rw [if_pos hmore, hcursor, hsome] at hnext
      cases hnext
      have hsorted' : sortedRows paging params selected =
          (pre ++ post.take params.limit) ++ post.drop params.limit := by
        rw [hsorted, List.append_assoc, List.take_append_drop]
      rw [shownRows, List.flatMap_cons, hitems, ← shownRows, ih hdecode hselected hsorted' hpos']
      exact List.take_append_drop _ _
    · rw [if_neg hmore, hsome] at hnext
      cases hnext

/-- Where every row fits the answer, the pages behind those shown so far end. -/
theorem exists_traverses_rest (hfits : ∀ o ∈ selected, o.Presentable)
    (hdecode : ∀ o ∈ selected, paging.decode params.sortBy
      (paging.encode params.sortBy (sortPosition _ o)) = .ok (sortPosition _ o))
    (hselected : queryObjects db user params = .ok selected)
    (hn : (selected.map MediaObject.id).Nodup) {pre post : List MediaObject}
    {cursor : Option String} (hsorted : sortedRows paging params selected = pre ++ post)
    (hpos : { params with cursor := cursor }.position paging =
      .ok (pre.getLast?.map (sortPosition params.sortBy))) :
    ∃ pages, Traverses paging db user { params with cursor := cursor } pages := by
  -- The rest gets shorter with every page that has a next one.
  induction hlen : post.length using Nat.strong_induction_on generalizing pre post cursor with
  | _ n ih =>
    obtain ⟨page, hpage⟩ : ∃ page,
        listObjects paging db user { params with cursor := cursor } = .ok page :=
      ⟨_, listObjects_eq_ok.mpr ⟨selected, _, hselected, hpos,
        fun o ho => hfits o (mem_of_mem_cutPage ho), rfl⟩⟩
    obtain ⟨-, hnext⟩ := page_of_listObjects hpage hselected hn hsorted hpos
    by_cases hmore : params.limit < post.length
    · obtain ⟨next, hcursor, hpos'⟩ := position_rest hdecode hsorted hmore
      have hshorter : (post.drop params.limit).length < n := by
        have hlimit := params.one_le_limit
        rw [List.length_drop]
        omega
      have hsorted' : sortedRows paging params selected =
          (pre ++ post.take params.limit) ++ post.drop params.limit := by
        rw [hsorted, List.append_assoc, List.take_append_drop]
      obtain ⟨pages, hpages⟩ := ih _ hshorter hsorted' hpos' rfl
      rw [if_pos hmore, hcursor] at hnext
      exact ⟨_, .next hpage hnext hpages⟩
    · rw [if_neg hmore] at hnext
      exact ⟨_, .last hpage hnext⟩

/-- Only the last page has no cursor. -/
theorem Traverses.cursors {pages : List ObjectListResponse}
    (h : Traverses paging db user params pages) :
    (∀ page ∈ pages.dropLast, page.nextCursor ≠ none) ∧
      pages.getLast?.map ObjectListResponse.nextCursor = some none := by
  induction h with
  | last _ hnone => exact ⟨by simp, by simp [hnone]⟩
  | @next _ page cursor pages _ hsome hrest ih =>
    obtain ⟨next, pages, rfl⟩ : ∃ next rest, pages = next :: rest := by
      cases hrest with
      | last => exact ⟨_, _, rfl⟩
      | next => exact ⟨_, _, rfl⟩
    rw [List.dropLast_cons_cons, List.getLast?_cons_cons]
    refine ⟨fun q hq => ?_, ih.2⟩
    rcases List.mem_cons.mp hq with rfl | hq
    · simp [hsome]
    · exact ih.1 q hq

theorem decode_withCursors (env : Env) (lib : CursorLibrary) (hdecimal : DecimalAscii env)
    (hstorable : ∀ o ∈ db.objects, o.Storable)
    (hselected : queryObjects db user params = .ok selected) :
    ∀ o ∈ selected, (paging.withCursors env lib).decode params.sortBy
      ((paging.withCursors env lib).encode params.sortBy (sortPosition _ o)) =
        .ok (sortPosition _ o) := by
  intro o ho
  obtain ⟨filed, -, rfl⟩ := queryObjects_ok hselected
  rw [Paging.withCursors_encode, Paging.withCursors_decode]
  exact decodeCursor_encodeCursor hdecimal (hstorable o (List.mem_filter.mp ho).1) params.sortBy

/-- From the first page on, the pages show the selected rows in order. -/
theorem Traverses.shows {env : Env} {lib : CursorLibrary} {pages : List ObjectListResponse}
    (h : Traverses (paging.withCursors env lib) db user params pages)
    (hdecimal : DecimalAscii env) (hstorable : ∀ o ∈ db.objects, o.Storable)
    (hcursor : params.cursor = none) (hselected : queryObjects db user params = .ok selected) :
    shownRows pages = sortedRows (paging.withCursors env lib) params selected := by
  have hpos : params.position (paging.withCursors env lib) =
      .ok (([] : List MediaObject).getLast?.map (sortPosition params.sortBy)) := by
    unfold ObjectListParams.position
    rw [hcursor]
    rfl
  exact h.shows_rest (decode_withCursors env lib hdecimal hstorable hselected) hselected
    (nodup_ids_queryObjects hselected) (List.nil_append _).symm hpos

theorem exists_traverses (env : Env) (lib : CursorLibrary) (hdecimal : DecimalAscii env)
    (hstorable : ∀ o ∈ db.objects, o.Storable) (hcursor : params.cursor = none)
    (hselected : queryObjects db user params = .ok selected)
    (hfits : ∀ o ∈ selected, o.Presentable) :
    ∃ pages, Traverses (paging.withCursors env lib) db user params pages := by
  have hfirst : { params with cursor := none } = params := by
    cases params
    cases hcursor
    rfl
  have hpos : ObjectListParams.position { params with cursor := none }
      (paging.withCursors env lib) =
        .ok (([] : List MediaObject).getLast?.map (sortPosition params.sortBy)) := rfl
  have hpages := exists_traverses_rest hfits
    (decode_withCursors env lib hdecimal hstorable hselected) hselected
    (nodup_ids_queryObjects hselected) (List.nil_append _).symm hpos
  rw [hfirst] at hpages
  exact hpages

/-- Every row that a page shows fits the answer. -/
theorem Traverses.presentable {pages : List ObjectListResponse}
    (h : Traverses paging db user params pages) : ∀ o ∈ shownRows pages, o.Presentable := by
  have hpage : ∀ {params : ObjectListParams} {page : ObjectListResponse},
      listObjects paging db user params = .ok page →
      ∀ o ∈ page.items.map MediaObjectPublic.object, o.Presentable := by
    intro params page hpage o ho
    obtain ⟨selected, last, -, -, hfits, rfl⟩ := listObjects_eq_ok.mp hpage
    obtain ⟨answer, hanswer, rfl⟩ := List.mem_map.mp ho
    obtain ⟨q, hq, rfl⟩ := List.mem_map.mp hanswer
    exact hfits q hq
  induction h with
  | last hanswer _ =>
    rw [shownRows, List.flatMap_singleton]
    exact hpage hanswer
  | next hanswer _ _ ih =>
    rw [shownRows, List.flatMap_cons, ← shownRows]
    intro o ho
    exact (List.mem_append.mp ho).elim (hpage hanswer o) (ih o)

/-- The object is in the caller's scope, passes the filters and is filed as they ask. -/
def MatchesRequest (db : Database) (user : Option UserModel) (params : ObjectListParams)
    (o : MediaObject) : Prop :=
  inListScope user params o ∧ passesFilters params o ∧
    ∃ filed, categoryFilter db user params = .ok filed ∧ filed o

theorem mem_selected_iff_matchesRequest (hselected : queryObjects db user params = .ok selected)
    {o : MediaObject} : o ∈ selected ↔ o ∈ db.objects ∧ MatchesRequest db user params o := by
  obtain ⟨filed, hfiled, rfl⟩ := queryObjects_ok hselected
  rw [List.mem_filter, decide_eq_true_eq]
  unfold MatchesRequest
  rw [hfiled]
  simp [Table.mem_def]

/-- Following the cursors from the first page on shows the whole result in order, every
row once; there is one way to do it, and it ends. -/
def TraversesWhole (paging : Paging) (db : Database) (user : Option UserModel)
    (params : ObjectListParams) (selected : List MediaObject) : Prop :=
  ∃ pages, Traverses paging db user params pages ∧
    (∀ pages', Traverses paging db user params pages' → pages' = pages) ∧
    (shownRows pages).Perm selected ∧ ((shownRows pages).map MediaObject.id).Nodup ∧
    (shownRows pages).Pairwise (fun o o' => paging.shows params o o' = true) ∧
    (∀ page ∈ pages.dropLast, page.nextCursor ≠ none) ∧
    pages.getLast?.map ObjectListResponse.nextCursor = some none

theorem TraversesWhole.presentable (h : TraversesWhole paging db user params selected)
    {o : MediaObject} (ho : o ∈ selected) : o.Presentable := by
  obtain ⟨pages, hpages, -, hperm, -⟩ := h
  exact hpages.presentable o (hperm.mem_iff.mpr ho)

/-- Over an unchanged database this is so exactly when every object that matches the
request fits the answer; one that does not turns its page into an error. -/
theorem listObjects_traversal_iff (paging : Paging) (env : Env) (lib : CursorLibrary)
    (hdecimal : DecimalAscii env) (hstorable : ∀ o ∈ db.objects, o.Storable)
    (hcursor : params.cursor = none) (hselected : queryObjects db user params = .ok selected) :
    TraversesWhole (paging.withCursors env lib) db user params selected ↔
      ∀ o ∈ db.objects, MatchesRequest db user params o → o.Presentable := by
  constructor
  · intro h o ho hmatches
    exact h.presentable ((mem_selected_iff_matchesRequest hselected).mpr ⟨ho, hmatches⟩)
  · intro hfits
    have hexists : ∃ pages, Traverses (paging.withCursors env lib) db user params pages :=
      exists_traverses env lib hdecimal hstorable hcursor hselected fun o ho =>
        hfits o ((mem_selected_iff_matchesRequest hselected).mp ho).1
          ((mem_selected_iff_matchesRequest hselected).mp ho).2
    obtain ⟨pages, hpages⟩ := hexists
    have hshown := hpages.shows hdecimal hstorable hcursor hselected
    have hperm : (shownRows pages).Perm selected := hshown ▸ sortedRows_perm
    have hsorted : (shownRows pages).Pairwise
        fun o o' => (paging.withCursors env lib).shows params o o' = true :=
      hshown ▸ sortedRows_pairwise (paging.withCursors env lib) params selected
    exact ⟨pages, hpages, fun _ h => h.unique hpages, hperm,
      (hperm.map _).nodup_iff.mpr (nodup_ids_queryObjects hselected), hsorted, hpages.cursors⟩

/-- A library that spells an instant as its number of microseconds; text and sizes do
not depend on it. -/
def CursorLibrary.numeric : CursorLibrary where
  isoformat t := String.ofList (Json.dumpNat t.toNat)
  fromisoformat s := some (Json.natOfDigits (s.map Char.ofNat))
  intOfFloat _ := .ok none
  repr _ := []
  jsonDepth := 1000
  fromisoformat_isoformat t ht _ := by
    have hid : Char.ofNat ∘ Char.toNat = id := funext fun c => Char.ofNat_toNat c
    rw [codePoints, String.toList_ofList, List.map_map, hid, List.map_id,
      Json.natOfDigits_dumpNat, Int.toNat_of_nonneg ht]
  one_le_jsonDepth := by decide

/-- An object of the first user, named or not. -/
def namedObject (id : ℕ) (filename : Option String) : MediaObject where
  id := ⟨.ofNat 128 id⟩
  tenantId := none
  ownerUserId := ⟨1⟩
  category := .asset
  visibility := .private
  storageBucket := "private-media"
  objectKey := "users/00000000-0000-0000-0000-000000000001/asset/" ++ toString id
  originalFilename := filename
  mimeType := "image/png"
  sizeBytes := 64
  sha256 := none
  status := .ready
  scanStatus := .clean
  createdAt := 0
  updatedAt := 0
  deletedAt := none

/-- Names that tie, one of them missing. -/
def namedDatabase : Database :=
  { Database.empty with
    objects := ⟨[namedObject 5 (some "b"), namedObject 4 none, namedObject 3 (some ""),
      namedObject 2 (some "b")], by decide⟩ }

theorem storable_namedDatabase : ∀ o ∈ namedDatabase.objects, o.Storable := by
  intro o ho
  have hrows : ∀ o ∈ namedDatabase.objects.rows, o.sizeBytes = 64 ∧ o.createdAt = 0 := by decide
  obtain ⟨hsize, hcreated⟩ := hrows o ho
  exact ⟨by rw [hsize]; decide, by rw [hcreated], by rw [hcreated]; decide⟩

def onePerPage : ObjectListParams :=
  { ObjectListParams.default with
    limit := 1
    one_le_limit := by decide
    limit_le := by decide }

theorem listObjects_traversal_named :
    TraversesWhole (Paging.unpaged.withCursors Env.default .numeric) namedDatabase
      (some (.ordinary 1)) onePerPage namedDatabase.objects.rows := by
  have hselected : queryObjects namedDatabase (some (.ordinary 1)) onePerPage =
      .ok namedDatabase.objects.rows := by rfl
  refine (listObjects_traversal_iff Paging.unpaged Env.default .numeric
    (decimalAscii_ascii Settings.default) storable_namedDatabase rfl hselected).mpr ?_
  intro o ho _
  exact (by decide +kernel : ∀ o ∈ namedDatabase.objects.rows, o.Presentable) o ho

/-- The owner of an upload completed with an empty digest is answered no page. -/
theorem not_listObjects_traversal : ∃ selected,
    queryObjects (run (serve Env.default) World.initial emptyDigestRequests).backend.db
        (some (.ordinary 1)) .default = .ok selected ∧
      ¬ TraversesWhole (Paging.unpaged.withCursors Env.default .numeric)
        (run (serve Env.default) World.initial emptyDigestRequests).backend.db
        (some (.ordinary 1)) .default selected := by
  refine ⟨_, queryObjects_unfiltered .default, fun h => ?_⟩
  obtain ⟨o, ho, hread, hbad⟩ := exists_emptyDigest
  exact hbad (h.presentable ((mem_unfiltered_iff rfl).mpr ⟨ho, hread⟩))

end MediaService
