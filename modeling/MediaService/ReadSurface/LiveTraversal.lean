import MediaService.ReadSurface.Traversal

/-! Reading a listing page by page while the collection changes. Every page is cut from
the database as it then is, behind the last row shown before it. So rows are shown in
order and no position twice, and a position that is there throughout is shown, whatever
comes and goes around it. -/

namespace MediaService

open Foundation

variable {paging : Paging} {db : Database} {user : Option UserModel} {params : ObjectListParams}

/-- Pages that continue one another, each answered from a database of its own. -/
inductive LiveTraverses (paging : Paging) (user : Option UserModel) :
    ObjectListParams → List Database → List ObjectListResponse → Prop
  | last {params : ObjectListParams} {db : Database} {page : ObjectListResponse} :
    listObjects paging db user params = .ok page → page.nextCursor = none →
    LiveTraverses paging user params [db] [page]
  | next {params : ObjectListParams} {db : Database} {dbs : List Database}
    {page : ObjectListResponse} {cursor : String} {pages : List ObjectListResponse} :
    listObjects paging db user params = .ok page → page.nextCursor = some cursor →
    LiveTraverses paging user { params with cursor := some cursor } dbs pages →
    LiveTraverses paging user params (db :: dbs) (page :: pages)

/-- A row at the position is among those the request selects. -/
def Selects (user : Option UserModel) (params : ObjectListParams) (db : Database)
    (p : params.sortBy.Value × UUID) : Prop :=
  ∃ selected, queryObjects db user params = .ok selected ∧
    ∃ o ∈ selected, sortPosition params.sortBy o = p

/-- The rows of the page are among those the request selects. -/
def ShowsSelected (user : Option UserModel) (params : ObjectListParams) (db : Database)
    (page : ObjectListResponse) : Prop :=
  ∃ selected, queryObjects db user params = .ok selected ∧
    ∀ o ∈ page.items.map MediaObjectPublic.object, o ∈ selected

/-! ### The order of rows -/

/-- The second row is shown strictly behind the first. -/
def Paging.before (paging : Paging) (params : ObjectListParams) (o o' : MediaObject) : Bool :=
  paging.behind params (sortPosition _ o) o'

theorem Paging.before_iff {o o' : MediaObject} :
    paging.before params o o' = true ↔ ¬ paging.shows params o' o = true := by
  rw [before, behind_eq, Bool.not_eq_true', Bool.not_eq_true]

theorem Paging.before_trans {o o' o'' : MediaObject} (h : paging.before params o o' = true)
    (h' : paging.before params o' o'' = true) : paging.before params o o'' = true := by
  rw [before_iff] at h h' ⊢
  intro hback
  have htotal := (Std.Total.total (r := fun o o' => paging.shows params o o' = true) o o')
  exact h' (IsTrans.trans (r := fun o o' => paging.shows params o o' = true) _ _ _ hback
    (htotal.resolve_right h))

theorem Paging.not_before_of_position_eq {o o' : MediaObject}
    (h : sortPosition params.sortBy o = sortPosition params.sortBy o') :
    ¬ paging.before params o o' = true := by
  rw [before_iff, not_not]
  unfold shows
  rw [h]
  cases params.order <;> exact (paging.positionLe_total _ _ _).elim id id

/-- Rows sorted under distinct ids are strictly behind one another. -/
theorem pairwise_before_insertionSort {l : List MediaObject} (hn : (l.map MediaObject.id).Nodup) :
    (l.insertionSort fun o o' => paging.shows params o o').Pairwise
      fun o o' => paging.before params o o' = true := by
  have hsorted := List.pairwise_insertionSort (fun o o' => paging.shows params o o' = true) l
  have hids : (l.insertionSort fun o o' => paging.shows params o o').Pairwise
      fun o o' => o.id ≠ o'.id := by
    rw [← List.pairwise_map]
    exact ((List.perm_insertionSort _ l).map _).nodup_iff.mpr hn
  refine hsorted.imp₂ (fun o o' hle hne => ?_) hids
  rw [Paging.before_iff]
  exact fun hge => hne (paging.id_eq_of_shows hle hge)

/-! ### One page -/

/-- Nothing before the request, or a row it continues behind. -/
def Paging.continues (paging : Paging) (params : ObjectListParams) (prev : Option MediaObject)
    (o : MediaObject) : Bool :=
  prev.all fun o' => paging.before params o' o

/-- The rows a page is cut from. -/
def rowsBehind (paging : Paging) (params : ObjectListParams) (prev : Option MediaObject)
    (selected : List MediaObject) : List MediaObject :=
  (selected.filter (paging.continues params prev)).insertionSort
    fun o o' => paging.shows params o o'

theorem mem_rowsBehind {prev : Option MediaObject} {selected : List MediaObject}
    {o : MediaObject} :
    o ∈ rowsBehind paging params prev selected ↔
      o ∈ selected ∧ paging.continues params prev o = true := by
  rw [rowsBehind, List.mem_insertionSort, List.mem_filter]

theorem listObjects_page {prev : Option MediaObject} {page : ObjectListResponse}
    (h : listObjects paging db user params = .ok page)
    (hpos : params.position paging = .ok (prev.map (sortPosition params.sortBy))) :
    ∃ selected, queryObjects db user params = .ok selected ∧
      page.items.map MediaObjectPublic.object =
        (rowsBehind paging params prev selected).take params.limit ∧
      page.nextCursor = if params.limit < (rowsBehind paging params prev selected).length then
        ((rowsBehind paging params prev selected).take params.limit).getLast?.map fun o =>
          paging.encode params.sortBy (sortPosition _ o) else none := by
  obtain ⟨selected, last, hselected, hlast, -, rfl⟩ := listObjects_eq_ok.mp h
  cases hpos.symm.trans hlast
  have hfilter : (fun o => (prev.map (sortPosition params.sortBy)).all fun p =>
      paging.behind params p o) = paging.continues params prev := by
    funext o
    cases prev <;> rfl
  refine ⟨selected, hselected, ?_, ?_⟩
  · dsimp only [pageAnswer, cutPage]
    rw [List.map_map, hfilter]
    exact List.map_id _
  · dsimp only [pageAnswer, cutPage]
    rw [hfilter]
    rfl

theorem Paging.continues_congr {prev : Option MediaObject} {o o' : MediaObject}
    (h : sortPosition params.sortBy o = sortPosition params.sortBy o') :
    paging.continues params prev o = paging.continues params prev o' := by
  have hbehind : ∀ p, paging.behind params p o = paging.behind params p o' := by
    intro p
    unfold behind
    rw [h]
  cases prev with
  | none => rfl
  | some o'' => exact hbehind _

theorem pairwise_rowsBehind {prev : Option MediaObject} {selected : List MediaObject}
    (hselected : queryObjects db user params = .ok selected) :
    (rowsBehind paging params prev selected).Pairwise
      fun o o' => paging.before params o o' = true :=
  pairwise_before_insertionSort
    ((nodup_ids_queryObjects hselected).sublist (List.filter_sublist.map _))

/-- A page with a cursor ends in a row, and the cursor spells its position. -/
theorem exists_last_of_nextCursor {rows : List MediaObject} {cursor : String}
    (h : (if params.limit < rows.length then (rows.take params.limit).getLast?.map fun o =>
      paging.encode params.sortBy (sortPosition _ o) else none) = some cursor) :
    ∃ shown o, rows.take params.limit = shown ++ [o] ∧
      cursor = paging.encode params.sortBy (sortPosition _ o) := by
  split at h
  · rcases List.eq_nil_or_concat (rows.take params.limit) with he | ⟨shown, o, he⟩
    · rw [he] at h
      cases h
    · rw [List.concat_eq_append] at he
      rw [he, List.getLast?_append, List.getLast?_singleton] at h
      exact ⟨shown, o, he, (Option.some.inj h).symm⟩
  · cases h

/-- What one page shows, and where it leaves off: behind `next` if there is one, and otherwise
with nothing left. -/
structure PageShows (paging : Paging) (params : ObjectListParams) (prev next : Option MediaObject)
    (selected shown : List MediaObject) : Prop where
  pairwise : shown.Pairwise fun o o' => paging.before params o o' = true
  rows : ∀ o ∈ shown, o ∈ selected ∧ paging.continues params prev o = true
  next_mem : ∀ o, next = some o → o ∈ shown
  upTo : ∀ o ∈ shown, ∀ last, next = some last → o = last ∨ paging.before params o last = true
  left : ∀ o ∈ selected, paging.continues params prev o = true →
    o ∈ shown ∨ ∃ last, next = some last ∧ paging.before params last o = true

/-- The rows behind a request, cut at its limit. -/
theorem listObjects_shows {prev : Option MediaObject} {page : ObjectListResponse}
    (h : listObjects paging db user params = .ok page)
    (hpos : params.position paging = .ok (prev.map (sortPosition params.sortBy))) :
    ∃ selected next, queryObjects db user params = .ok selected ∧
      page.nextCursor = next.map (fun o => paging.encode params.sortBy (sortPosition _ o)) ∧
      PageShows paging params prev next selected (page.items.map MediaObjectPublic.object) := by
  obtain ⟨selected, hselected, hitems, hnext⟩ := listObjects_page h hpos
  have hpairwise : (rowsBehind paging params prev selected).Pairwise
      fun o o' => paging.before params o o' = true := pairwise_rowsBehind hselected
  rw [hitems]
  have hrows : ∀ o ∈ (rowsBehind paging params prev selected).take params.limit,
      o ∈ selected ∧ paging.continues params prev o = true :=
    fun o ho => mem_rowsBehind.mp (List.mem_of_mem_take ho)
  cases hcursor : page.nextCursor with
  | none =>
    have hall : (rowsBehind paging params prev selected).take params.limit =
        rowsBehind paging params prev selected := by
      refine List.take_of_length_le (Nat.le_of_not_lt fun hmore => ?_)
      rw [hcursor, if_pos hmore, eq_comm, Option.map_eq_none_iff, List.getLast?_eq_none_iff,
        List.take_eq_nil_iff] at hnext
      rcases hnext with hlimit | hrows
      · exact absurd params.one_le_limit (by omega)
      · rw [hrows, List.length_nil] at hmore
        omega
    rw [hall] at hrows ⊢
    refine ⟨selected, none, hselected, rfl, hpairwise, hrows, ?_, ?_, ?_⟩
    · exact fun o ho => by cases ho
    · exact fun o _ last hlast => by cases hlast
    · exact fun o ho hcontinues => .inl (mem_rowsBehind.mpr ⟨ho, hcontinues⟩)
  | some cursor =>
    rw [hcursor] at hnext
    obtain ⟨shown, last, hshown, rfl⟩ := exists_last_of_nextCursor hnext.symm
    have hsplit : rowsBehind paging params prev selected =
        (shown ++ [last]) ++ (rowsBehind paging params prev selected).drop params.limit := by
      rw [← hshown, List.take_append_drop]
    rw [hsplit, List.pairwise_append] at hpairwise
    rw [hshown] at hrows ⊢
    refine ⟨selected, some last, hselected, rfl, hpairwise.1, hrows, ?_, ?_, ?_⟩
    · intro o ho
      rw [← Option.some.inj ho]
      exact List.mem_append_right _ List.mem_cons_self
    · intro o ho q hq
      rw [← Option.some.inj hq]
      rcases List.mem_append.mp ho with ho | ho
      · exact .inr ((List.pairwise_append.mp hpairwise.1).2.2 o ho last List.mem_cons_self)
      · exact .inl (List.mem_singleton.mp ho)
    · intro o ho hcontinues
      have hrow := mem_rowsBehind.mpr ⟨ho, hcontinues⟩
      rw [hsplit, List.mem_append] at hrow
      refine hrow.imp_right fun hrow => ⟨last, rfl, ?_⟩
      exact hpairwise.2.2 last (List.mem_append_right _ List.mem_cons_self) o hrow

/-! ### All pages -/

/-- What the pages from a request on show, given the row they continue behind. -/
theorem LiveTraverses.shows {dbs : List Database} {pages : List ObjectListResponse}
    (h : LiveTraverses paging user params dbs pages) {prev : Option MediaObject}
    (hdecode : ∀ db ∈ dbs, ∀ o ∈ db.objects, paging.decode params.sortBy
      (paging.encode params.sortBy (sortPosition _ o)) = .ok (sortPosition _ o))
    (hpos : params.position paging = .ok (prev.map (sortPosition params.sortBy))) :
    (shownRows pages).Pairwise (fun o o' => paging.before params o o' = true) ∧
      (∀ o ∈ shownRows pages, paging.continues params prev o = true) ∧
      List.Forall₂ (ShowsSelected user params) dbs pages ∧
      ∀ p, (∀ db ∈ dbs, Selects user params db p) →
        (∀ o, sortPosition params.sortBy o = p → paging.continues params prev o = true) →
        p ∈ (shownRows pages).map (sortPosition params.sortBy) := by
  induction h generalizing prev with
  | @last params db page hpage hnone =>
    obtain ⟨selected, next, hselected, hcursor, hshows⟩ := listObjects_shows hpage hpos
    obtain rfl := Option.map_eq_none_iff.mp (hcursor.symm.trans hnone)
    rw [shownRows, List.flatMap_singleton]
    refine ⟨hshows.pairwise, fun o ho => (hshows.rows o ho).2, ?_, fun p hp hbehind => ?_⟩
    · exact .cons ⟨selected, hselected, fun o ho => (hshows.rows o ho).1⟩ .nil
    · obtain ⟨selected', hselected', o, ho, rfl⟩ := hp db List.mem_cons_self
      cases hselected.symm.trans hselected'
      rcases hshows.left o ho (hbehind o rfl) with hrow | ⟨last, hlast, -⟩
      · exact List.mem_map_of_mem hrow
      · cases hlast
  | @next params db dbs page cursor pages hpage hsome hrest ih =>
    obtain ⟨selected, next, hselected, hcursor, hshows⟩ := listObjects_shows hpage hpos
    obtain ⟨last, rfl, rfl⟩ := Option.map_eq_some_iff.mp (hcursor.symm.trans hsome)
    have hlast := hshows.rows last (hshows.next_mem last rfl)
    have hstored : last ∈ db.objects := by
      obtain ⟨filed, -, rfl⟩ := queryObjects_ok hselected
      exact (List.mem_filter.mp hlast.1).1
    -- The later pages continue behind the last row of this one.
    have hpos' : ObjectListParams.position { params with
        cursor := some (paging.encode params.sortBy (sortPosition _ last)) } paging =
          .ok ((some last).map (sortPosition params.sortBy)) := by
      unfold ObjectListParams.position
      dsimp only
      rw [hdecode db List.mem_cons_self last hstored]
      rfl
    obtain ⟨hlater, hbehind, hselects, hthere⟩ :=
      ih (fun db' hdb' => hdecode db' (List.mem_cons_of_mem _ hdb')) hpos'
    have hcross : ∀ o ∈ page.items.map MediaObjectPublic.object, ∀ o' ∈ shownRows pages,
        paging.before params o o' = true := by
      intro o ho o' ho'
      have hafter : paging.before params last o' = true := hbehind o' ho'
      rcases hshows.upTo o ho last rfl with rfl | hbefore
      · exact hafter
      · exact paging.before_trans hbefore hafter
    rw [shownRows, List.flatMap_cons, ← shownRows]
    refine ⟨List.pairwise_append.mpr ⟨hshows.pairwise, hlater, hcross⟩, ?_, ?_, ?_⟩
    · intro o ho
      rcases List.mem_append.mp ho with ho | ho
      · exact (hshows.rows o ho).2
      · have hafter : paging.before params last o = true := hbehind o ho
        cases prev with
        | none => rfl
        | some o' => exact paging.before_trans hlast.2 hafter
    · exact .cons ⟨selected, hselected, fun o ho => (hshows.rows o ho).1⟩ hselects
    · intro p hp hcontinues
      rw [List.map_append, List.mem_append]
      obtain ⟨selected', hselected', o, ho, hop⟩ := hp db List.mem_cons_self
      cases hselected.symm.trans hselected'
      rcases hshows.left o ho (hcontinues o hop) with hrow | ⟨_, ⟨⟩, hafter⟩
      · exact .inl (hop ▸ List.mem_map_of_mem hrow)
      · refine .inr (hthere p (fun db' hdb' => hp db' (List.mem_cons_of_mem _ hdb')) ?_)
        intro o' ho'
        have hsame : sortPosition params.sortBy o' = sortPosition params.sortBy o :=
          Eq.trans ho' hop.symm
        have hcontinues' : paging.continues params (some last) o' =
            paging.continues params (some last) o := paging.continues_congr hsame
        exact hcontinues'.trans hafter

/-- Whatever happens to the collection between the pages that the cursors lead through,
the rows are shown in order and no position is shown twice, each page shows rows that the
request selects as it is answered, and a position selected every time is shown once. -/
theorem listObjects_live_traversal (paging : Paging) (env : Env) (lib : CursorLibrary)
    {dbs : List Database} {pages : List ObjectListResponse} (hdecimal : DecimalAscii env)
    (hstorable : ∀ db ∈ dbs, ∀ o ∈ db.objects, o.Storable) (hcursor : params.cursor = none)
    (h : LiveTraverses (paging.withCursors env lib) user params dbs pages) :
    (shownRows pages).Pairwise (fun o o' => paging.before params o o' = true) ∧
      List.Forall₂ (ShowsSelected user params) dbs pages ∧
      ∀ p, (∀ db ∈ dbs, Selects user params db p) →
        ((shownRows pages).map (sortPosition params.sortBy)).count p = 1 := by
  have hdecode : ∀ db ∈ dbs, ∀ o ∈ db.objects, (paging.withCursors env lib).decode params.sortBy
      ((paging.withCursors env lib).encode params.sortBy (sortPosition _ o)) =
        .ok (sortPosition _ o) := by
    intro db hdb o ho
    rw [Paging.withCursors_encode, Paging.withCursors_decode]
    exact decodeCursor_encodeCursor hdecimal (hstorable db hdb o ho) params.sortBy
  have hpos : params.position (paging.withCursors env lib) =
      .ok ((none : Option MediaObject).map (sortPosition params.sortBy)) := by
    unfold ObjectListParams.position
    rw [hcursor]
    rfl
  obtain ⟨hpairwise, -, hselects, hthere⟩ := h.shows hdecode hpos
  refine ⟨hpairwise, hselects, fun p hp => ?_⟩
  have hpositions : ((shownRows pages).map (sortPosition params.sortBy)).Nodup := by
    refine List.pairwise_map.mpr (hpairwise.imp fun hbefore he => ?_)
    exact Paging.not_before_of_position_eq he hbefore
  exact List.count_eq_one_of_mem hpositions (hthere p hp fun o _ => rfl)

/-- Two of the names are gone by the second page. -/
def remainingDatabase : Database :=
  { Database.empty with
    objects := ⟨[namedObject 3 (some ""), namedObject 2 (some "b")], by decide⟩ }

theorem storable_remainingDatabase : ∀ o ∈ remainingDatabase.objects, o.Storable := by
  intro o ho
  have hrows : ∀ o ∈ remainingDatabase.objects.rows, o.sizeBytes = 64 ∧ o.createdAt = 0 := by
    decide
  obtain ⟨hsize, hcreated⟩ := hrows o ho
  exact ⟨by rw [hsize]; decide, by rw [hcreated], by rw [hcreated]; decide⟩

/-- The cursor behind the third object. -/
def namedCursor : String :=
  "eyJ2IjogIiIsICJpZCI6ICIwMDAwMDAwMC0wMDAwLTAwMDAtMDAwMC0wMDAwMDAwMDAwMDMifQ=="

/-- The row on its own page. -/
def ObjectListResponse.single (o : MediaObject) (nextCursor : Option String) :
    ObjectListResponse :=
  ⟨[⟨o, []⟩], nextCursor, 1⟩

def namedPages : List ObjectListResponse :=
  [.single (namedObject 3 (some "")) (some namedCursor), .single (namedObject 2 (some "b")) none]

theorem liveTraverses_namedPages :
    LiveTraverses (Paging.unpaged.withCursors Env.default .numeric) (some (.ordinary 1)) onePerPage
      [namedDatabase, remainingDatabase] namedPages := by
  refine .next ?_ rfl (.last ?_ rfl)
  · decide +kernel
  · decide +kernel

theorem listObjects_live_traversal_named :
    (shownRows namedPages).Pairwise
        (fun o o' => Paging.unpaged.before onePerPage o o' = true) ∧
      List.Forall₂ (ShowsSelected (some (.ordinary 1)) onePerPage)
        [namedDatabase, remainingDatabase] namedPages ∧
      ∀ p, (∀ db ∈ [namedDatabase, remainingDatabase],
          Selects (some (.ordinary 1)) onePerPage db p) →
        ((shownRows namedPages).map (sortPosition onePerPage.sortBy)).count p = 1 := by
  refine listObjects_live_traversal Paging.unpaged Env.default .numeric
    (decimalAscii_ascii Settings.default) ?_ rfl liveTraverses_namedPages
  intro db hdb
  rcases List.mem_cons.mp hdb with rfl | hdb
  · exact storable_namedDatabase
  · rcases List.mem_singleton.mp hdb with rfl
    exact storable_remainingDatabase

end MediaService
