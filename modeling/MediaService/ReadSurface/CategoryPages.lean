import MediaService.Scenario

/-! Paging the flat list of categories. Each page is a query of its own and no page asks for
an order, so two of them may cut differently ordered lists. The pages of every such run make
up the list exactly if the first page holds all of it. -/

namespace MediaService

open Foundation

variable {db : Database} {user : UserModel} {limit : ℕ}

/-- The same database, its categories answered in another order. -/
def Reordered (db db' : Database) : Prop :=
  ∃ categories : Table Category.id, categories.rows.Perm db.categories.rows ∧
    db' = { db with categories := categories }

/-- The pages at 0, `limit`, twice `limit` and so on, each answered by its own execution. -/
def categoryPages (executions : ℕ → Database) (user : UserModel) (limit i : ℕ) :
    CategoriesPublic :=
  listCategories (executions i) user (i * limit) limit

/-- The pages come to an end, name every category in scope exactly once, and give their
number. -/
structure PagesOnce (db : Database) (user : UserModel) (page : ℕ → CategoriesPublic) : Prop where
  once : ∃ n, ((List.range n).flatMap fun i => (page i).data).Perm (scopedCategories db user) ∧
    ∀ i, n ≤ i → (page i).data = []
  count : ∀ i, (page i).count = (scopedCategories db user).length

theorem scopedCategories_perm {db' : Database} (h : Reordered db db') :
    (scopedCategories db' user).Perm (scopedCategories db user) := by
  obtain ⟨categories, hperm, rfl⟩ := h
  exact hperm.filter _

/-- Any order of the categories in scope is one an execution may answer. -/
theorem exists_reordered {rows : List Category} (h : rows.Perm (scopedCategories db user)) :
    ∃ db', Reordered db db' ∧ scopedCategories db' user = rows := by
  have hperm : (rows ++ db.categories.rows.filter fun c => !inScope user c).Perm
      db.categories.rows := (h.append_right _).trans (List.filter_append_perm _ _)
  let categories : Table Category.id := ⟨_, (hperm.map _).nodup_iff.mpr db.categories.nodup⟩
  refine ⟨{ db with categories := categories }, ⟨categories, hperm, rfl⟩, ?_⟩
  have hin : rows.filter (inScope user) = rows :=
    List.filter_eq_self.mpr fun c hc => (List.mem_filter.mp (h.mem_iff.mp hc)).2
  have hout : (db.categories.rows.filter fun c => !inScope user c).filter (inScope user) = [] :=
    List.filter_eq_nil_iff.mpr fun c hc => by simpa using (List.mem_filter.mp hc).2
  rw [scopedCategories, List.filter_append, hin, hout, List.append_nil]

theorem nodup_scopedCategories : (scopedCategories db user).Nodup :=
  (db.categories.nodup.of_map).filter _

/-- No row is on two pages. -/
theorem PagesOnce.eq_of_mem {page : ℕ → CategoriesPublic} (h : PagesOnce db user page) {i j : ℕ}
    {c : Category} (hi : c ∈ (page i).data) (hj : c ∈ (page j).data) : i = j := by
  obtain ⟨n, honce, hend⟩ := h.once
  have hin : ∀ k, c ∈ (page k).data → k ∈ List.range n := by
    intro k hk
    rw [List.mem_range]
    by_contra hlate
    rw [hend k (Nat.le_of_not_lt hlate)] at hk
    cases hk
  have hnodup := honce.nodup_iff.mpr nodup_scopedCategories
  have hdisjoint := (List.nodup_flatMap.mp hnodup).2
  have : Std.Symm (Function.onFun List.Disjoint fun k => (page k).data) :=
    ⟨fun _ _ hd => List.Disjoint.symm hd⟩
  by_contra hne
  exact hdisjoint.forall (hin i hi) (hin j hj) hne hi hj

/-- A list that needs a second page can be answered so that its first row is on both. -/
theorem length_le_of_pagesOnce (h : ∀ executions : ℕ → Database,
    (∀ i, Reordered db (executions i)) → PagesOnce db user (categoryPages executions user limit)) :
    (scopedCategories db user).length ≤ limit := by
  by_contra hlong
  cases hrows : scopedCategories db user with
  | nil =>
    rw [hrows] at hlong
    exact hlong (Nat.zero_le _)
  | cons c rest =>
    rw [hrows, List.length_cons, not_le] at hlong
    have hshifted : (rest.take limit ++ c :: rest.drop limit).Perm (scopedCategories db user) := by
      rw [hrows]
      refine List.perm_middle.trans ?_
      rw [List.take_append_drop]
    obtain ⟨first, hfirst, hrows₀⟩ := exists_reordered (List.Perm.refl (scopedCategories db user))
    obtain ⟨later, hlater, hrows₁⟩ := exists_reordered hshifted
    let executions : ℕ → Database := fun i => if i = 0 then first else later
    have hpages : PagesOnce db user (categoryPages executions user limit) := by
      refine h executions fun i => ?_
      by_cases hi : i = 0
      · rw [show executions i = first from if_pos hi]
        exact hfirst
      · rw [show executions i = later from if_neg hi]
        exact hlater
    cases limit with
    | zero =>
      obtain ⟨n, honce, -⟩ := hpages.once
      have hc := honce.mem_iff.mpr (hrows ▸ List.mem_cons_self)
      simp [categoryPages, listCategories] at hc
    | succ k =>
      have hon₀ : c ∈ (categoryPages executions user (k + 1) 0).data := by
        simp [categoryPages, listCategories, executions, hrows₀, hrows]
      have hon₁ : c ∈ (categoryPages executions user (k + 1) 1).data := by
        have hlen : (rest.take (k + 1)).length = 1 * (k + 1) := by
          rw [List.length_take]
          omega
        rw [categoryPages, listCategories, show executions 1 = later from rfl, hrows₁,
          List.drop_append_of_le_length hlen.ge, ← hlen, List.drop_length]
        simp
      exact absurd (hpages.eq_of_mem hon₀ hon₁) (by decide)

/-- One page that holds the whole list is the list, and the pages after it are empty. -/
theorem pagesOnce_of_length_le (hfit : (scopedCategories db user).length ≤ limit)
    {executions : ℕ → Database} (h : ∀ i, Reordered db (executions i)) :
    PagesOnce db user (categoryPages executions user limit) := by
  have hperm : ∀ i, (scopedCategories (executions i) user).Perm (scopedCategories db user) :=
    fun i => scopedCategories_perm (h i)
  refine ⟨⟨1, ?_, fun i hi => ?_⟩, fun i => (hperm i).length_eq⟩
  · have hwhole : (categoryPages executions user limit 0).data =
        scopedCategories (executions 0) user := by
      rw [categoryPages, listCategories, Nat.zero_mul, List.drop_zero]
      exact List.take_of_length_le ((hperm 0).length_eq.trans_le hfit)
    rw [List.range_one, List.flatMap_singleton, hwhole]
    exact hperm 0
  · have hpast : (scopedCategories (executions i) user).length ≤ i * limit :=
      ((hperm i).length_eq.trans_le hfit).trans (Nat.le_mul_of_pos_left limit hi)
    rw [categoryPages, listCategories, List.drop_eq_nil_of_le hpast, List.take_nil]

/-- Paging names every category once, however each page is answered, exactly if one page
holds them all. -/
theorem categoryPages_once_iff (db : Database) (user : UserModel) (limit : ℕ) :
    (∀ executions : ℕ → Database, (∀ i, Reordered db (executions i)) →
      PagesOnce db user (categoryPages executions user limit)) ↔
        (scopedCategories db user).length ≤ limit :=
  ⟨length_le_of_pagesOnce, fun hfit _ h => pagesOnce_of_length_le hfit h⟩

/-- Two categories of one owner. -/
def twoLevels : Database :=
  (ensureCategoryPath Database.empty (.ordinary 1) [("Work", "work"), ("Bills", "bills")]).1

/-- The second page is answered from the last row on. -/
def turnedAround : ℕ → Database
  | 0 => twoLevels
  | _ + 1 => { twoLevels with categories :=
      ⟨twoLevels.categories.rows.reverse,
        (twoLevels.categories.rows.reverse_perm.map _).nodup_iff.mpr twoLevels.categories.nodup⟩ }

/-- Two pages of one row each name the first category twice and the second never. -/
theorem not_categoryPages_once :
    (∀ i, Reordered twoLevels (turnedAround i)) ∧
      ¬ PagesOnce twoLevels (.ordinary 1) (categoryPages turnedAround (.ordinary 1) 1) := by
  constructor
  · rintro (_ | i)
    · exact ⟨_, .refl _, rfl⟩
    · exact ⟨_, List.reverse_perm _, rfl⟩
  · intro h
    have htwice : ((categoryPages turnedAround (.ordinary 1) 1 0).data ≠ []) ∧
        (categoryPages turnedAround (.ordinary 1) 1 0).data =
          (categoryPages turnedAround (.ordinary 1) 1 1).data := by decide +kernel
    obtain ⟨c, hc⟩ := List.exists_mem_of_ne_nil _ htwice.1
    exact absurd (h.eq_of_mem hc (htwice.2 ▸ hc)) (by decide)

end MediaService
