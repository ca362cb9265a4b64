import MediaService.Foundation.Queue
import MediaService.Invariants.HardPurge
import MediaService.Lifecycle.Service
import MediaService.Scenario

/-! A purge is bounded, so what waits to be purged is worked off in batches. The query orders
the rows by their deletion time alone, so which rows of one time come first is the
database's choice, at every purge anew. Batches of one cutoff come to just what one purge of
their summed bound may come to, whatever removals fail in between. Nothing joins those
deleted before a past instant: through any run each purge with that cutoff or a later one
takes its bound off their number, however many were deleted since. -/

namespace MediaService

open Foundation

variable {env : Env} {w : World} {b : Backend} {cutoff cutoff' : Timestamp}

/-! ### The rows that wait -/

/-- Oldest deletion first. -/
def MediaObject.DeletedUpTo (o o' : MediaObject) : Prop :=
  o.deletedAt.getD 0 ≤ o'.deletedAt.getD 0

instance : DecidableRel MediaObject.DeletedUpTo :=
  fun o o' => inferInstanceAs (Decidable (o.deletedAt.getD 0 ≤ o'.deletedAt.getD 0))

instance : Std.Total MediaObject.DeletedUpTo :=
  ⟨fun o o' => Int.le_total (o.deletedAt.getD 0) (o'.deletedAt.getD 0)⟩

instance : IsTrans MediaObject MediaObject.DeletedUpTo :=
  ⟨fun _ _ _ h h' => Int.le_trans h h'⟩

/-- The deleted rows that a purge with this cutoff may take, in the order it takes them. -/
def Database.awaitingPurge (db : Database) (cutoff : Timestamp) : List MediaObject :=
  db.objects.waiting (isPurgeable cutoff) MediaObject.DeletedUpTo

theorem purgeCandidates_eq (db : Database) (cutoff : Timestamp) (limit : ℕ) :
    purgeCandidates db cutoff limit = (db.awaitingPurge cutoff).take limit :=
  rfl

theorem mem_awaitingPurge {db : Database} {o : MediaObject} :
    o ∈ db.awaitingPurge cutoff ↔ o ∈ db.objects ∧ isPurgeable cutoff o = true :=
  Table.mem_sorted

theorem isPurgeable_mono (hle : cutoff ≤ cutoff') {o : MediaObject}
    (ho : isPurgeable cutoff o = true) : isPurgeable cutoff' o = true := by
  obtain ⟨hstatus, t, ht, hlt⟩ := isPurgeable_iff.mp ho
  exact isPurgeable_iff.mpr ⟨hstatus, t, ht, lt_of_lt_of_le hlt hle⟩

/-- Those deleted before the earlier cutoff come first in the order of the later one. -/
theorem awaitingPurge_first (db : Database) (cutoff cutoff' : Timestamp) :
    (db.awaitingPurge cutoff').Pairwise fun o o' =>
      isPurgeable cutoff o' = true → isPurgeable cutoff o = true := by
  have hsorted : (db.awaitingPurge cutoff').Pairwise MediaObject.DeletedUpTo :=
    List.pairwise_insertionSort _ _
  refine hsorted.imp_of_mem fun {o o'} ho _ hle ho' => ?_
  obtain ⟨hstatus, t, ht, -⟩ := isPurgeable_iff.mp (mem_awaitingPurge.mp ho).2
  obtain ⟨-, t', ht', hlt⟩ := isPurgeable_iff.mp ho'
  rw [MediaObject.DeletedUpTo, ht, ht'] at hle
  exact isPurgeable_iff.mpr ⟨hstatus, t, ht, lt_of_le_of_lt hle hlt⟩

theorem awaitingPurge_of_le (hle : cutoff ≤ cutoff') (db : Database) :
    db.awaitingPurge cutoff = (db.awaitingPurge cutoff').filter (isPurgeable cutoff) :=
  Table.waiting_of_imp fun _ => isPurgeable_mono hle

/-- A purge leaves the rows that it does not come to, at its own cutoff and at any before. -/
theorem awaitingPurge_hardPurgeExpired (faults : Faults) {now olderThan : ℤ}
    (hle : cutoff ≤ now - olderThan) (limit : ℕ) :
    (hardPurgeExpired b faults now olderThan limit).1.db.awaitingPurge cutoff =
      (b.db.awaitingPurge cutoff).drop limit := by
  have hown : (hardPurgeExpired b faults now olderThan limit).1.db.awaitingPurge
      (now - olderThan) = (b.db.awaitingPurge (now - olderThan)).drop limit := by
    rw [db_hardPurgeExpired, purgeCandidates_eq]
    exact Table.waiting_without _ _ _
  rw [awaitingPurge_of_le hle, hown, awaitingPurge_of_le hle b.db]
  exact drop_filter_of_first (awaitingPurge_first b.db cutoff (now - olderThan)) limit

/-! ### Batches -/

section Batches

variable {db : Database} {faults : Faults} {limit limit' : ℕ} {os os' : List MediaObject}

/-- A purge of one cutoff, with any order of the rows deleted at one time: what it leaves
and how many rows it takes. -/
def HardPurge (cutoff : Timestamp) (faults : Faults) (limit : ℕ) (b : Backend)
    (r : Backend × ℕ) : Prop :=
  ∃ os, FirstDeleted b.db cutoff limit os ∧ r = (os.foldl (purgeObject faults) b, os.length)

theorem hardPurge_hardPurgeExpired (b : Backend) (faults : Faults) (now olderThan : ℤ)
    (limit : ℕ) :
    HardPurge (now - olderThan) faults limit b (hardPurgeExpired b faults now olderThan limit) :=
  ⟨_, purgeCandidates_first b.db (now - olderThan) limit, rfl⟩

/-- Purges of one cutoff, one after another, each with its own order. -/
inductive PurgesInBatches (cutoff : Timestamp) :
    List (Faults × ℕ) → Backend → Backend × ℕ → Prop
  | nil (b : Backend) : PurgesInBatches cutoff [] b (b, 0)
  | cons {faults : Faults} {limit : ℕ} {batches : List (Faults × ℕ)} {b b' : Backend} {n : ℕ}
      {r : Backend × ℕ} : HardPurge cutoff faults limit b (b', n) →
      PurgesInBatches cutoff batches b' r →
      PurgesInBatches cutoff ((faults, limit) :: batches) b (r.1, n + r.2)

theorem mem_without {ids : List UUID} {o : MediaObject} :
    o ∈ (db.without ids).objects ↔ o ∈ db.objects ∧ o.id ∉ ids := by
  unfold Database.without
  rw [Table.mem_filter, decide_eq_true_eq]

theorem FirstDeleted.mem_iff (h : FirstDeleted db cutoff limit os) {o : MediaObject}
    (ho : o ∈ db.objects) : o.id ∈ os.map MediaObject.id ↔ o ∈ os := by
  refine ⟨fun hin => ?_, List.mem_map_of_mem⟩
  obtain ⟨q, hq, hid⟩ := List.mem_map.mp hin
  obtain rfl := Table.eq_of_key_eq (h.deleted q hq).1 ho hid
  exact hq

/-- How many wait once the rows have gone. -/
theorem FirstDeleted.length_without (h : FirstDeleted db cutoff limit os) :
    ((db.without (os.map MediaObject.id)).objects.rows.filter (isPurgeable cutoff)).length =
      (db.objects.rows.filter (isPurgeable cutoff)).length - os.length := by
  have hleft : (db.without (os.map MediaObject.id)).objects.rows.filter (isPurgeable cutoff) =
      (db.objects.rows.filter (isPurgeable cutoff)).filter
        fun o => !decide (o.id ∈ os.map MediaObject.id) := by
    simp only [Database.without, Table.filter, List.filter_filter, decide_not, Bool.and_comm]
  have htaken : ((db.objects.rows.filter (isPurgeable cutoff)).filter
      fun o => decide (o.id ∈ os.map MediaObject.id)).Perm os := by
    have hrows : (db.objects.rows.filter (isPurgeable cutoff)).Nodup :=
      db.objects.nodup.of_map _ |>.filter _
    refine (List.perm_ext_iff_of_nodup (hrows.filter _) (h.nodup.of_map _)).mpr fun o => ?_
    simp only [List.mem_filter, decide_eq_true_eq]
    constructor
    · exact fun hin => (h.mem_iff hin.1.1).mp hin.2
    · exact fun hin => ⟨h.deleted o hin, List.mem_map_of_mem hin⟩
  have hsplit := List.length_eq_length_filter_add (l := db.objects.rows.filter (isPurgeable cutoff))
    fun o => decide (o.id ∈ os.map MediaObject.id)
  rw [hleft, hsplit, htaken.length_eq, Nat.add_sub_cancel_left]

/-- First rows and the first rows of what they leave are first rows. -/
theorem FirstDeleted.append (h : FirstDeleted db cutoff limit os)
    (h' : FirstDeleted (db.without (os.map MediaObject.id)) cutoff limit' os') :
    FirstDeleted db cutoff (limit + limit') (os ++ os') where
  deleted o ho := by
    rcases List.mem_append.mp ho with ho | ho
    · exact h.deleted o ho
    · obtain ⟨hmem, hp⟩ := h'.deleted o ho
      exact ⟨(mem_without.mp hmem).1, hp⟩
  nodup := by
    rw [List.map_append, List.nodup_append]
    refine ⟨h.nodup, h'.nodup, ?_⟩
    rintro id hin _ hin' rfl
    obtain ⟨o, ho, rfl⟩ := List.mem_map.mp hin'
    exact (mem_without.mp (h'.deleted o ho).1).2 hin
  length := by
    rw [List.length_append, h'.length, h.length_without, h.length]
    omega
  ordered := by
    refine List.pairwise_append.mpr ⟨h.ordered, h'.ordered, fun q hq o ho => ?_⟩
    obtain ⟨hmem, hp⟩ := h'.deleted o ho
    obtain ⟨hrow, hout⟩ := mem_without.mp hmem
    exact h.first o hrow hp (fun hin => hout (List.mem_map_of_mem hin)) q hq
  first o ho hp hout q hq := by
    rw [List.mem_append, not_or] at hout
    rcases List.mem_append.mp hq with hq | hq
    · exact h.first o ho hp hout.1 q hq
    · exact h'.first o (mem_without.mpr ⟨ho, fun hin => hout.1 ((h.mem_iff ho).mp hin)⟩) hp hout.2
        q hq

/-- The first of first rows are first rows themselves. -/
theorem FirstDeleted.take (h : FirstDeleted db cutoff (limit + limit') os) :
    FirstDeleted db cutoff limit (os.take limit) where
  deleted o ho := h.deleted o (List.mem_of_mem_take ho)
  nodup := h.nodup.sublist ((List.take_sublist _ _).map _)
  length := by
    rw [List.length_take, h.length]
    omega
  ordered := h.ordered.sublist (List.take_sublist _ _)
  first o ho hp hout q hq := by
    by_cases hin : o ∈ os
    · have hordered := h.ordered
      rw [← List.take_append_drop limit os] at hin hordered
      have hlater := (List.mem_append.mp hin).resolve_left hout
      exact (List.pairwise_append.mp hordered).2.2 q hq o hlater
    · exact h.first o ho hp hin q (List.mem_of_mem_take hq)

/-- The others come first in what these leave. -/
theorem FirstDeleted.drop (h : FirstDeleted db cutoff (limit + limit') os) :
    FirstDeleted (db.without ((os.take limit).map MediaObject.id)) cutoff limit'
      (os.drop limit) where
  deleted o ho := by
    obtain ⟨hmem, hp⟩ := h.deleted o (List.mem_of_mem_drop ho)
    refine ⟨mem_without.mpr ⟨hmem, fun hin => ?_⟩, hp⟩
    have hnodup := h.nodup
    rw [← List.take_append_drop limit os, List.map_append, List.nodup_append] at hnodup
    exact hnodup.2.2 _ hin _ (List.mem_map_of_mem ho) rfl
  nodup := h.nodup.sublist ((List.drop_sublist _ _).map _)
  length := by
    rw [List.length_drop, h.take.length_without, List.length_take, h.length]
    omega
  ordered := h.ordered.sublist (List.drop_sublist _ _)
  first o ho hp hout q hq := by
    obtain ⟨hrow, htaken⟩ := mem_without.mp ho
    refine h.first o hrow hp (fun hin => ?_) q (List.mem_of_mem_drop hq)
    rw [← List.take_append_drop limit os] at hin
    rcases List.mem_append.mp hin with hin | hin
    · exact htaken (List.mem_map_of_mem hin)
    · exact hout hin

theorem FirstDeleted.db_foldl (h : FirstDeleted db cutoff limit os) (faults : Faults)
    {b : Backend} (hdb : b.db = db) :
    (os.foldl (purgeObject faults) b).db = db.without (os.map MediaObject.id) := by
  rw [← hdb]
  exact (foldl_purgeObject (fun o ho => (h.deleted o ho).2) h.nodup).2

/-- Where no two rows were deleted at one time there is one choice. -/
theorem FirstDeleted.eq_of_distinct (h : FirstDeleted db cutoff limit os)
    (h' : FirstDeleted db cutoff limit os')
    (hdistinct : ∀ o ∈ db.objects, ∀ q ∈ db.objects, isPurgeable cutoff o = true →
      isPurgeable cutoff q = true → o.deletedAt = q.deletedAt → o = q) : os = os' := by
  have hsame : ∀ {o q}, o ∈ db.objects → isPurgeable cutoff o = true → q ∈ db.objects →
      isPurgeable cutoff q = true → o.deletedAt.getD 0 ≤ q.deletedAt.getD 0 →
      q.deletedAt.getD 0 ≤ o.deletedAt.getD 0 → o = q := by
    intro o q ho hpo hq hpq hle hge
    obtain ⟨-, t, ht, -⟩ := isPurgeable_iff.mp hpo
    obtain ⟨-, t', ht', -⟩ := isPurgeable_iff.mp hpq
    refine hdistinct o ho q hq hpo hpq ?_
    rw [ht, ht'] at hle hge ⊢
    exact congrArg some (le_antisymm hle hge)
  have hsub : ∀ {os os'}, FirstDeleted db cutoff limit os → FirstDeleted db cutoff limit os' →
      os ⊆ os' := by
    intro os os' h h' o ho
    by_contra hout
    obtain ⟨hrow, hp⟩ := h.deleted o ho
    -- As many are taken, so the other choice has a row that this one has not.
    obtain ⟨q, hq, hqout⟩ : ∃ q ∈ os', q ∉ os := by
      by_contra hall
      push Not at hall
      have hperm := ((h'.nodup.of_map _).subperm hall).perm_of_length_le
        (by rw [h.length, h'.length])
      exact hout (hperm.mem_iff.mpr ho)
    obtain ⟨hqrow, hqp⟩ := h'.deleted q hq
    obtain rfl := hsame hrow hp hqrow hqp (h.first q hqrow hqp hqout o ho)
      (h'.first o hrow hp hout q hq)
    exact hout hq
  have hperm : os.Perm os' := (List.perm_ext_iff_of_nodup (h.nodup.of_map _)
    (h'.nodup.of_map _)).mpr fun o => ⟨fun ho => hsub h h' ho, fun ho => hsub h' h ho⟩
  refine hperm.eq_of_pairwise (fun o q ho hq hle hge => ?_) h.ordered h'.ordered
  exact hsame (h.deleted o ho).1 (h.deleted o ho).2 (h'.deleted q hq).1 (h'.deleted q hq).2 hle hge

/-- The batches take first rows of the summed bound. -/
theorem PurgesInBatches.exists_first {batches : List (Faults × ℕ)} {r : Backend × ℕ}
    (h : PurgesInBatches cutoff batches b r) :
    ∃ os, FirstDeleted b.db cutoff (batches.map Prod.snd).sum os ∧
      r.1.db = b.db.without (os.map MediaObject.id) ∧ r.2 = os.length ∧
      ∀ faults, (∀ batch ∈ batches, batch.1 = faults) →
        r.1 = os.foldl (purgeObject faults) b := by
  induction h with
  | nil b =>
    refine ⟨[], ?_, (Database.without_nil b.db).symm, rfl, fun _ _ => rfl⟩
    constructor <;> simp
  | @cons faults limit batches b b' n r hpurge _ ih =>
    obtain ⟨os, hfirst, he⟩ := hpurge
    obtain ⟨rfl, rfl⟩ := Prod.mk.inj he
    obtain ⟨os', hfirst', hdb, hcount, hsame⟩ := ih
    have hleft := hfirst.db_foldl faults rfl
    rw [hleft] at hfirst' hdb
    refine ⟨os ++ os', hfirst.append hfirst', ?_, ?_, fun faults' hall => ?_⟩
    · rw [hdb, List.map_append, without_without]
    · rw [hcount, List.length_append]
    · obtain rfl : faults = faults' := hall _ List.mem_cons_self
      rw [hsame faults fun batch hbatch => hall batch (List.mem_cons_of_mem _ hbatch),
        List.foldl_append]

/-- First rows of the summed bound are taken by batches. -/
theorem exists_purgesInBatches (batches : List (Faults × ℕ)) (b : Backend)
    (h : FirstDeleted b.db cutoff (batches.map Prod.snd).sum os) :
    ∃ r, PurgesInBatches cutoff batches b r ∧ r.1.db = b.db.without (os.map MediaObject.id) ∧
      r.2 = os.length ∧ ∀ faults, (∀ batch ∈ batches, batch.1 = faults) →
        r.1 = os.foldl (purgeObject faults) b := by
  induction batches generalizing b os with
  | nil =>
    obtain rfl : os = [] := List.eq_nil_of_length_eq_zero (by rw [h.length]; simp)
    exact ⟨_, .nil b, (Database.without_nil b.db).symm, rfl, fun _ _ => rfl⟩
  | cons batch batches ih =>
    obtain ⟨faults, limit⟩ := batch
    have htake : FirstDeleted b.db cutoff limit (os.take limit) := FirstDeleted.take h
    have hleft := htake.db_foldl faults rfl
    have hrest : FirstDeleted ((os.take limit).foldl (purgeObject faults) b).db cutoff
        (batches.map Prod.snd).sum (os.drop limit) := by
      rw [hleft]
      exact FirstDeleted.drop h
    obtain ⟨r, hbatches, hdb, hcount, hsame⟩ := ih _ hrest
    refine ⟨_, .cons ⟨_, htake, rfl⟩ hbatches, ?_, ?_, fun faults' hall => ?_⟩
    · rw [hdb, hleft, without_without, ← List.map_append, List.take_append_drop]
    · rw [hcount, ← List.length_append, List.take_append_drop]
    · obtain rfl : faults = faults' := hall _ List.mem_cons_self
      rw [hsame faults fun batch hbatch => hall batch (List.mem_cons_of_mem _ hbatch),
        ← List.foldl_append, List.take_append_drop]

/-- Whatever batches of one cutoff come to, one purge with their summed bound may come to, and
the other way round: the same rows and as many, and where the same removals fail throughout
the same store. Where no two waiting rows were deleted at one time, there is one thing that
it may come to. -/
theorem hardPurge_batches (now olderThan : ℤ) (b : Backend) (batches : List (Faults × ℕ))
    (faults : Faults) :
    let cutoff := now - olderThan
    let total := (batches.map Prod.snd).sum
    (∀ many, PurgesInBatches cutoff batches b many →
        ∃ one, HardPurge cutoff faults total b one ∧ many.1.db = one.1.db ∧ many.2 = one.2 ∧
          ((∀ batch ∈ batches, batch.1 = faults) → many = one)) ∧
      (∀ one, HardPurge cutoff faults total b one →
        ∃ many, PurgesInBatches cutoff batches b many ∧ many.1.db = one.1.db ∧
          many.2 = one.2 ∧ ((∀ batch ∈ batches, batch.1 = faults) → many = one)) ∧
      ((∀ o ∈ b.db.objects, ∀ q ∈ b.db.objects, isPurgeable cutoff o = true →
          isPurgeable cutoff q = true → o.deletedAt = q.deletedAt → o = q) →
        ∀ one, HardPurge cutoff faults total b one →
          one = hardPurgeExpired b faults now olderThan total) := by
  intro cutoff total
  refine ⟨fun many hmany => ?_, ?_, ?_⟩
  · obtain ⟨os, hfirst, hdb, hcount, hsame⟩ := hmany.exists_first
    refine ⟨_, ⟨os, hfirst, rfl⟩, hdb.trans (hfirst.db_foldl faults rfl).symm, hcount,
      fun hall => Prod.ext (hsame faults hall) hcount⟩
  · rintro _ ⟨os, hfirst, rfl⟩
    obtain ⟨many, hmany, hdb, hcount, hsame⟩ := exists_purgesInBatches batches b hfirst
    exact ⟨many, hmany, hdb.trans (hfirst.db_foldl faults rfl).symm, hcount,
      fun hall => Prod.ext (hsame faults hall) hcount⟩
  · rintro hdistinct _ ⟨os, hfirst, rfl⟩
    obtain ⟨os', hfirst', he⟩ := hardPurge_hardPurgeExpired b faults now olderThan total
    rw [he, hfirst.eq_of_distinct hfirst' hdistinct]

end Batches

/-! ### Runs -/

/-- A deletion is dated no earlier than the cutoff. -/
def Request.DeletesFrom (cutoff : Timestamp) : Request → Prop
  | .delete _ _ now _ _ => cutoff ≤ now
  | _ => True

/-- What a request purges at most of the rows deleted before the cutoff. -/
def Request.purgeBound (cutoff : Timestamp) : Request → ℕ
  | .hardPurge _ now olderThan limit => if cutoff ≤ now - olderThan then limit else 0
  | _ => 0

/-- Every row that waits waited before. -/
def WaitedBefore (cutoff : Timestamp) (db db' : Database) : Prop :=
  ∀ o' ∈ db'.objects, isPurgeable cutoff o' = true →
    ∃ o ∈ db.objects, o.id = o'.id ∧ isPurgeable cutoff o = true

theorem WaitedBefore.length_le {db db' : Database} (h : WaitedBefore cutoff db db') :
    (db'.awaitingPurge cutoff).length ≤ (db.awaitingPurge cutoff).length := by
  have hnodup : ((db'.awaitingPurge cutoff).map MediaObject.id).Nodup := Table.nodup_sorted
  have hsub : (db'.awaitingPurge cutoff).map MediaObject.id ⊆
      (db.awaitingPurge cutoff).map MediaObject.id := by
    intro id hid
    obtain ⟨o', ho', rfl⟩ := List.mem_map.mp hid
    obtain ⟨hmem, hwait⟩ := mem_awaitingPurge.mp ho'
    obtain ⟨o, ho, hoid, howait⟩ := h o' hmem hwait
    exact List.mem_map.mpr ⟨o, mem_awaitingPurge.mpr ⟨ho, howait⟩, hoid⟩
  have hle := (List.subperm_of_subset hnodup hsub).length_le
  rwa [List.length_map, List.length_map] at hle

theorem isPurgeable_live {o : MediaObject} (ho : o.deletedAt = none) :
    isPurgeable cutoff o = false := by
  simp [isPurgeable, ho]

/-- A rewritten row waits only if it waited, where the rewriting deletes nothing. -/
theorem waits_update {t : Table MediaObject.id} {o o' q : MediaObject} (ho : o ∈ t)
    (hq : q ∈ t.update o') (hwait : isPurgeable cutoff q = true) (hid : o'.id = o.id)
    (hwaits : isPurgeable cutoff o' = true → isPurgeable cutoff o = true) :
    ∃ p ∈ t, p.id = q.id ∧ isPurgeable cutoff p = true := by
  rcases (Table.mem_update (by rw [hid]; exact Table.find_of_mem ho)).mp hq with rfl | ⟨hqt, -⟩
  · exact ⟨o, ho, hid.symm, hwaits hwait⟩
  · exact ⟨q, hqt, rfl, hwait⟩

/-- A move that deletes nothing makes no row wait. -/
theorem Moves.waits {m : Move} {h h' : Holdings} (hm : Moves env m h h')
    (hnone : ∀ o o', m ≠ .softDeleted o o') {q : MediaObject} (hq : q ∈ h'.objects)
    (hwait : isPurgeable cutoff q = true) :
    ∃ p ∈ h.objects, p.id = q.id ∧ isPurgeable cutoff p = true := by
  have hinsert : ∀ {o : MediaObject} {t}, h.objects.insert o = some t → o.deletedAt = none →
      q ∈ t → ∃ p ∈ h.objects, p.id = q.id ∧ isPurgeable cutoff p = true := by
    intro o t ht hlive hqt
    rcases (Table.mem_insert ht).mp hqt with hold | rfl
    · exact ⟨q, hold, rfl, hwait⟩
    · rw [isPurgeable_live hlive] at hwait
      cases hwait
  cases hm with
  | promoted _ _ ho _ ht => exact hinsert ht (by rw [ho]; rfl) hq
  | rejected _ _ ho ht => exact hinsert ht (by rw [ho]; rfl) hq
  | judged ho ho' =>
    rcases ho' with rfl | rfl
    · refine waits_update ho hq hwait rfl fun hready => ?_
      cases (isPurgeable_iff.mp hready).1
    · exact waits_update ho hq hwait rfl id
  | patched ho hlive ho' _ =>
    refine waits_update ho hq hwait (by rw [ho']) fun hwaits => ?_
    rw [isPurgeable_live (by rw [ho']; exact hlive)] at hwaits
    cases hwaits
  | softDeleted _ _ _ => exact absurd rfl (hnone _ _)
  | purged _ => exact ⟨q, (Table.mem_erase.mp hq).1, rfl, hwait⟩
  | _ => exact ⟨q, hq, rfl, hwait⟩

theorem waitedBefore_deleteObject (b : Backend) (faults : Faults) (commitFails : Bool)
    {now : Timestamp} (hnow : cutoff ≤ now) (user : UserModel) (objectId : UUID) :
    WaitedBefore cutoff b.db
      (deleteObject env b faults commitFails now user objectId).1.db := by
  rcases deleteObject_cases env b faults commitFails now user objectId with
    he | ⟨o, st, bucket, hload, -, -, ⟨e, he⟩ | ⟨db', -, hcommit, he⟩⟩
  · rw [he]
    exact fun q hq hwait => ⟨q, hq, rfl, hwait⟩
  · rw [he]
    exact fun q hq hwait => ⟨q, hq, rfl, hwait⟩
  · rw [he]
    obtain ⟨outbox, rfl⟩ := softDeletedDatabase_ok hcommit
    intro q hq hwait
    refine waits_update (loadObject_ok hload).1 hq hwait rfl fun hlate => ?_
    obtain ⟨-, t, ht, hlt⟩ := isPurgeable_iff.mp hlate
    cases ht
    exact absurd hlt (not_lt_of_ge hnow)

/-- Only a deletion makes a row wait, and not before its own date. -/
theorem waitedBefore_serve (hw : WorldInv env w) {r : Request} (hr : r.DeletesFrom cutoff) :
    WaitedBefore cutoff w.backend.db (serve env w r).backend.db := by
  by_cases hdelete : ∃ faults commitFails now user objectId,
      r = .delete faults commitFails now user objectId
  · obtain ⟨faults, commitFails, now, user, objectId, rfl⟩ := hdelete
    rw [serve_backend]
    exact waitedBefore_deleteObject w.backend faults commitFails hr user objectId
  · refine (movesTo_serve hw r).preserves
      (I := fun h => ∀ q ∈ h.objects, isPurgeable cutoff q = true →
        ∃ p ∈ w.backend.db.objects, p.id = q.id ∧ isPurgeable cutoff p = true)
      (fun m h h' hcaused hm hI q hq hwait => ?_) fun q hq hwait => ⟨q, hq, rfl, hwait⟩
    have hnone : ∀ o o', m ≠ .softDeleted o o' := by
      rintro o o' rfl
      obtain ⟨faults, now, user, hr, -⟩ := hcaused
      exact hdelete ⟨faults, false, now, user, o.id, hr⟩
    obtain ⟨p, hp, hid, hwaited⟩ := hm.waits hnone hq hwait
    obtain ⟨p', hp', hid', hwaited'⟩ := hI p hp hwaited
    exact ⟨p', hp', hid'.trans hid, hwaited'⟩

theorem length_awaitingPurge_serve (hw : WorldInv env w) {r : Request}
    (hr : r.DeletesFrom cutoff) :
    ((serve env w r).backend.db.awaitingPurge cutoff).length ≤
      (w.backend.db.awaitingPurge cutoff).length - r.purgeBound cutoff := by
  have hle := (waitedBefore_serve hw hr).length_le
  cases r with
  | hardPurge faults now olderThan limit =>
    by_cases hcutoff : cutoff ≤ now - olderThan
    · rw [Request.purgeBound, if_pos hcutoff, serve_backend]
      simp only [answer]
      rw [awaitingPurge_hardPurgeExpired faults hcutoff, List.length_drop]
    · rw [Request.purgeBound, if_neg hcutoff]
      exact hle
  | _ => exact hle

/-- Through any run from any state the service comes to, with its deletions dated from the
cutoff on, at most as many of the rows deleted before the cutoff are left as the bounds of the
purges with that cutoff or a later one leave of them. Where the bounds reach their number, none
is left that was deleted before it. -/
theorem purge_backlog (env : Env) (before rs : List Request) (cutoff : Timestamp)
    (hfrom : ∀ r ∈ rs, r.DeletesFrom cutoff) :
    let w := run (serve env) World.initial before
    let w' := run (serve env) w rs
    let bound := (rs.map (Request.purgeBound cutoff)).sum
    (w'.backend.db.awaitingPurge cutoff).length ≤
        (w.backend.db.awaitingPurge cutoff).length - bound ∧
      ((w.backend.db.awaitingPurge cutoff).length ≤ bound →
        ∀ o ∈ w'.backend.db.objects, o.status = .deleted → ∀ t, o.deletedAt = some t →
          cutoff ≤ t) := by
  intro w w' bound
  have hbound : (w'.backend.db.awaitingPurge cutoff).length ≤
      (w.backend.db.awaitingPurge cutoff).length - bound := by
    have hw : WorldInv env w := worldInv_run env before
    clear_value w
    induction rs generalizing w with
    | nil => exact Nat.le_refl _
    | cons r rs ih =>
      have hstep := length_awaitingPurge_serve hw (hfrom r List.mem_cons_self)
      have hrest := ih (fun q hq => hfrom q (List.mem_cons_of_mem r hq)) _ (hw.serve r)
      simp only [w', bound, run_cons, List.map_cons, List.sum_cons]
      omega
  refine ⟨hbound, fun hreach o ho hstatus t ht => ?_⟩
  by_contra hearlier
  have hwaits : o ∈ w'.backend.db.awaitingPurge cutoff :=
    mem_awaitingPurge.mpr ⟨ho, isPurgeable_iff.mpr ⟨hstatus, t, ht, lt_of_not_ge hearlier⟩⟩
  have hpos := List.length_pos_of_mem hwaits
  omega

/-- Two uploads of one owner, deleted at once. -/
def deletedUploadsRequests : List Request :=
  cleanUploadRequests Env.default 0 ⟨2⟩ (.ordinary 1) .private pngSignature ++
    cleanUploadRequests Env.default 0 ⟨3⟩ (.ordinary 1) .private pngSignature ++
    [.delete Faults.none false 2 (.ordinary 1) ⟨2⟩, .delete Faults.none false 2 (.ordinary 1) ⟨3⟩]

theorem purge_backlog_two :
    let w := run (serve Env.default) World.initial deletedUploadsRequests
    (w.backend.db.awaitingPurge 5).length = 2 ∧
      ∀ o ∈ (run (serve Env.default) w [.hardPurge Faults.none 9 3 1,
        .hardPurge Faults.none 12 3 1]).backend.db.objects,
        o.status = .deleted → ∀ t, o.deletedAt = some t → 5 ≤ t := by
  have htwo : ((run (serve Env.default) World.initial
      deletedUploadsRequests).backend.db.awaitingPurge 5).length = 2 := by decide +kernel
  refine ⟨htwo, (purge_backlog Env.default deletedUploadsRequests _ 5 ?_).2 (le_of_eq htwo)⟩
  simp [Request.DeletesFrom]

end MediaService
