import MediaService.Lifecycle.Service
import MediaService.Scenario

/-! Referenced bytes under repair. The sweep of storage orphans knows object rows,
initiated sessions and the archives of completed exports, but neither variant
rows nor the exports still at work. It is shown which locations a repairing
reconciliation removes; it spares all referenced bytes exactly if none of those
belongs to a variant or to an unfinished export. -/

namespace MediaService

open Foundation

/-! ### One bucket -/

section Bucket

variable (db : Database) (pending : List Location) (faults : Faults) (limit : ℕ) (bucket : String)

/-- Of a bucket's keys, the locations the sweep finds no owner for. -/
def unclaimedAmong (keys : List String) : List Location :=
  (keys.map (Location.mk bucket)).filter fun l => !isClaimed db pending l

theorem unclaimedAmong_cons (key : String) (keys : List String) :
    unclaimedAmong db pending bucket (key :: keys) =
      if isClaimed db pending ⟨bucket, key⟩ then unclaimedAmong db pending bucket keys
      else ⟨bucket, key⟩ :: unclaimedAmong db pending bucket keys := by
  unfold unclaimedAmong
  rw [List.map_cons, List.filter_cons]
  cases isClaimed db pending ⟨bucket, key⟩ <;> rfl

theorem length_sweepKeys (sw : Sweep) (keys : List String) :
    (sweepKeys db pending faults limit true bucket sw keys).orphans.length =
      sw.orphans.length + min (limit - sw.orphans.length)
        (unclaimedAmong db pending bucket keys).length := by
  induction keys generalizing sw with
  | nil => simp [sweepKeys, unclaimedAmong]
  | cons key keys ih =>
    rw [sweepKeys, unclaimedAmong_cons]
    split
    · omega
    · split
      · exact ih sw
      · dsimp only
        rw [if_pos rfl, ih]
        simp only [List.length_append, List.length_cons, List.length_nil]
        omega

/-- The sweep removes what it comes upon within the limit, where it can. -/
theorem content_sweepKeys (sw : Sweep) (keys : List String) (l : Location) :
    (sweepKeys db pending faults limit true bucket sw keys).storage.content l =
      if l ∈ (unclaimedAmong db pending bucket keys).take (limit - sw.orphans.length) ∧
        faults .remove l = false then none else sw.storage.content l := by
  induction keys generalizing sw with
  | nil => simp [sweepKeys, unclaimedAmong]
  | cons key keys ih =>
    rw [sweepKeys, unclaimedAmong_cons]
    split
    · rename_i hfull
      rw [show limit - sw.orphans.length = 0 by omega]
      simp
    · rename_i hroom
      split
      · exact ih sw
      · obtain ⟨n, hn⟩ : ∃ n, limit - sw.orphans.length = n + 1 :=
          ⟨limit - sw.orphans.length - 1, by omega⟩
        have hn' : limit - (sw.orphans.length + 1) = n := by omega
        dsimp only
        rw [if_pos rfl, ih, hn, List.take_succ_cons]
        simp only [List.length_append, List.length_cons, List.length_nil, Nat.zero_add, hn',
          Storage.content_bestEffortRemove, List.mem_cons]
        by_cases hl : l = ⟨bucket, key⟩
        · subst hl
          cases faults .remove ⟨bucket, key⟩ <;> simp
        · simp [hl]

/-- The sweep of one bucket leaves the listing of every other. -/
theorem listObjectKeys_sweepKeys (env : Env) {bucket' : String} (hne : bucket' ≠ bucket)
    (sw : Sweep) (keys : List String) :
    (sweepKeys db pending faults limit true bucket sw keys).storage.listObjectKeys env bucket' =
      sw.storage.listObjectKeys env bucket' := by
  have hremove : ∀ (st : Storage) (key : String),
      (st.bestEffortRemove faults ⟨bucket, key⟩).listObjectKeys env bucket' =
        st.listObjectKeys env bucket' := by
    intro st key
    unfold Storage.bestEffortRemove Storage.removeObject
    split
    · rfl
    · simp only [Option.getD_some, Storage.listObjectKeys, Table.erase, Table.filter,
        List.filter_filter]
      congr 2
      refine List.filter_congr fun o _ => ?_
      by_cases hb : o.location.bucket = bucket'
      · have hl : o.location ≠ ⟨bucket, key⟩ := fun he => hne (by rw [← hb, he])
        simp [hb, hl]
      · simp [hb]
  induction keys generalizing sw with
  | nil => rfl
  | cons key keys ih =>
    rw [sweepKeys]
    split
    · rfl
    · split
      · exact ih sw
      · exact (ih _).trans (hremove _ _)

end Bucket

/-! ### All buckets -/

section Sweep

variable (env : Env) (b : Backend) (faults : Faults) (now : Timestamp)

/-- The stored locations of a bucket that nothing claims, in listing order. -/
def unclaimedIn (bucket : String) : List Location :=
  unclaimedAmong b.db (pendingKeys b.db now) bucket (b.storage.listObjectKeys env bucket)

/-- What a sweep of the buckets comes upon, but for its limit: what nothing
claims, and in a bucket named before only what could not be removed then. -/
def comesUpon : List String → List String → List Location
  | _, [] => []
  | seen, bucket :: buckets =>
    (if bucket ∈ seen then (unclaimedIn env b now bucket).filter (faults .remove)
      else unclaimedIn env b now bucket) ++ comesUpon (bucket :: seen) buckets

/-- How far a sweep has come: the buckets seen, and what it came upon. -/
structure SweptTo (limit : ℕ) (seen : List String) (found : List Location) (sw : Sweep) : Prop where
  content : ∀ l, sw.storage.content l =
    if l ∈ found.take limit ∧ faults .remove l = false then none else b.storage.content l
  length : sw.orphans.length = min limit found.length
  listing : ∀ bucket ∉ seen, sw.storage.listObjectKeys env bucket =
    b.storage.listObjectKeys env bucket
  found : ∀ bucket ∈ seen, ∀ l ∈ unclaimedIn env b now bucket, l ∈ found

variable {env b faults now}

theorem mem_unclaimedAmong {db : Database} {pending : List Location} {bucket : String}
    {st : Storage} {l : Location} :
    l ∈ unclaimedAmong db pending bucket (st.listObjectKeys env bucket) ↔
      l.bucket = bucket ∧ (st.content l).isSome ∧ isClaimed db pending l = false := by
  simp only [unclaimedAmong, List.mem_filter, List.mem_map, Storage.mem_listObjectKeys,
    Bool.not_eq_true']
  constructor
  · rintro ⟨⟨key, hkey, rfl⟩, hclaim⟩
    exact ⟨rfl, hkey, hclaim⟩
  · rintro ⟨rfl, hsome, hclaim⟩
    exact ⟨⟨l.objectKey, hsome, rfl⟩, hclaim⟩

theorem nodup_unclaimedAmong (db : Database) (pending : List Location) (bucket : String)
    (st : Storage) : (unclaimedAmong db pending bucket (st.listObjectKeys env bucket)).Nodup := by
  refine List.Nodup.filter _ (List.Nodup.map ?_ (Storage.nodup_listObjectKeys env bucket))
  exact fun _ _ he => congrArg Location.objectKey he

/-- In a bucket named again the sweep comes upon what it could not remove. -/
theorem SweptTo.unclaimed_again {limit : ℕ} {seen : List String} {found : List Location}
    {sw : Sweep} (hsw : SweptTo env b faults now limit seen found sw) {bucket : String}
    (hseen : bucket ∈ seen) (hroom : found.length < limit) :
    List.Perm (unclaimedAmong b.db (pendingKeys b.db now) bucket
        (sw.storage.listObjectKeys env bucket))
      ((unclaimedIn env b now bucket).filter (faults .remove)) := by
  unfold unclaimedIn
  rw [List.perm_ext_iff_of_nodup (nodup_unclaimedAmong _ _ _ _)
    (List.Nodup.filter _ (nodup_unclaimedAmong _ _ _ _))]
  intro l
  rw [List.mem_filter, mem_unclaimedAmong, mem_unclaimedAmong, hsw.content,
    List.take_of_length_le hroom.le]
  have hfound := fun h => hsw.found bucket hseen l (mem_unclaimedAmong.mpr h)
  cases hf : faults .remove l with
  | true => simp
  | false =>
    simp only [and_true, Bool.false_eq_true, and_false, iff_false]
    rintro ⟨hb, hsome, hclaim⟩
    split at hsome
    · cases hsome
    · rename_i hnot
      exact hnot (hfound ⟨hb, hsome, hclaim⟩)

/-- What the next bucket adds, as far as there is room for it. -/
theorem SweptTo.next {limit : ℕ} {seen : List String} {found more : List Location}
    {sw : Sweep} (hsw : SweptTo env b faults now limit seen found sw) (bucket : String)
    (hmore : more = if bucket ∈ seen then (unclaimedIn env b now bucket).filter (faults .remove)
      else unclaimedIn env b now bucket) :
    SweptTo env b faults now limit (bucket :: seen) (found ++ more)
      (sweepKeys b.db (pendingKeys b.db now) faults limit true bucket sw
        (sw.storage.listObjectKeys env bucket)) := by
  let upon := unclaimedAmong b.db (pendingKeys b.db now) bucket
    (sw.storage.listObjectKeys env bucket)
  have hroom : limit - sw.orphans.length = limit - found.length := by
    rw [hsw.length]
    omega
  -- either the limit is reached already, or the sweep comes upon `more`
  have hupon : (∀ l, faults .remove l = false →
      (l ∈ upon.take (limit - found.length) ↔ l ∈ more.take (limit - found.length))) ∧
      min (limit - found.length) upon.length = min (limit - found.length) more.length := by
    by_cases hfull : limit ≤ found.length
    · rw [show limit - found.length = 0 by omega]
      simp
    · by_cases hseen : bucket ∈ seen
      · rw [if_pos hseen] at hmore
        have hperm := hsw.unclaimed_again hseen (by omega)
        rw [← hmore] at hperm
        have hstuck : ∀ l ∈ more, faults .remove l = true := by
          intro l hl
          rw [hmore] at hl
          exact (List.mem_filter.mp hl).2
        refine ⟨fun l hl => iff_of_false (fun h => ?_) (fun h => ?_), by rw [hperm.length_eq]⟩
        · rw [hstuck l (hperm.mem_iff.mp (List.mem_of_mem_take h))] at hl
          cases hl
        · rw [hstuck l (List.mem_of_mem_take h)] at hl
          cases hl
      · have heq : upon = more := by
          rw [hmore, if_neg hseen, unclaimedIn, ← hsw.listing bucket hseen]
        rw [heq]
        exact ⟨fun _ _ => Iff.rfl, rfl⟩
  constructor
  · intro l
    rw [content_sweepKeys, hroom, List.take_append, hsw.content]
    simp only [List.mem_append]
    cases hf : faults .remove l with
    | true => simp
    | false =>
      have hl := hupon.1 l hf
      dsimp only [upon] at hl
      simp only [and_true, hl]
      by_cases h₁ : l ∈ found.take limit <;>
        by_cases h₂ : l ∈ more.take (limit - found.length) <;> simp [h₁, h₂]
  · rw [length_sweepKeys, hroom, hupon.2, hsw.length, List.length_append]
    omega
  · intro q hq
    rw [List.mem_cons, not_or] at hq
    rw [listObjectKeys_sweepKeys _ _ _ _ _ env hq.1, hsw.listing q hq.2]
  · intro q hq l hl
    rw [List.mem_append]
    by_cases hseen : q ∈ seen
    · exact .inl (hsw.found q hseen l hl)
    · rcases List.mem_cons.mp hq with rfl | hq
      · right
        rw [hmore, if_neg hseen]
        exact hl
      · exact absurd hq hseen

theorem SweptTo.all {limit : ℕ} {seen : List String} {found : List Location} {sw : Sweep}
    (hsw : SweptTo env b faults now limit seen found sw) (buckets : List String) :
    ∃ seen', SweptTo env b faults now limit seen' (found ++ comesUpon env b faults now seen buckets)
      (buckets.foldl (fun sw bucket => sweepKeys b.db (pendingKeys b.db now) faults limit true
        bucket sw (sw.storage.listObjectKeys env bucket)) sw) := by
  induction buckets generalizing seen found sw with
  | nil =>
    rw [comesUpon, List.append_nil]
    exact ⟨seen, hsw⟩
  | cons bucket buckets ih =>
    rw [comesUpon, ← List.append_assoc]
    exact ih (hsw.next bucket rfl)

/-- A repairing reconciliation removes what the sweep comes upon within its limit
and can remove, and nothing else. -/
theorem content_reconcileOrphans (buckets : List String) (grace : ℤ) (limit : ℕ) (l : Location) :
    (reconcileOrphans env b faults now buckets grace limit true).1.storage.content l =
      if l ∈ (comesUpon env b faults now [] buckets).take limit ∧ faults .remove l = false then none
      else b.storage.content l := by
  have hstart : SweptTo env b faults now limit [] [] ⟨b.storage, [], 0⟩ := by
    refine ⟨fun l => ?_, by simp, fun _ _ => rfl, fun _ h => by cases h⟩
    simp
  obtain ⟨seen, hsw⟩ := hstart.all buckets
  exact hsw.content l

theorem mem_comesUpon {seen buckets : List String} {l : Location}
    (h : l ∈ comesUpon env b faults now seen buckets) :
    (b.storage.content l).isSome ∧ isClaimed b.db (pendingKeys b.db now) l = false := by
  induction buckets generalizing seen with
  | nil => cases h
  | cons bucket buckets ih =>
    rw [comesUpon, List.mem_append] at h
    rcases h with h | h
    · have hin : l ∈ unclaimedIn env b now bucket := by
        split at h
        · exact (List.mem_filter.mp h).1
        · exact h
      exact (mem_unclaimedAmong.mp hin).2
    · exact ih h

end Sweep

/-! ### References -/

/-- A location some row still needs. -/
def IsReferenced (settings : Settings) (db : Database) (now : Timestamp) (l : Location) : Prop :=
  (∃ o ∈ db.objects, o.location = l) ∨ (∃ v ∈ db.variants, v.location = l) ∨
    (∃ s ∈ db.sessions, s.status = .initiated ∧ s.location = l) ∨
    ∃ j ∈ db.exportJobs, (isActiveExport j ∨ j.status = .completed ∧ j.expiresAt.any (now < ·)) ∧
      j.target settings = l

/-- What the sweep can remove within its limit is no variant's and no unfinished
export's. -/
def SweepsNothingOwned (env : Env) (b : Backend) (faults : Faults) (now : Timestamp)
    (buckets : List String) (limit : ℕ) : Prop :=
  ∀ l ∈ (comesUpon env b faults now [] buckets).take limit, faults .remove l = false →
    (∀ v ∈ b.db.variants, v.location ≠ l) ∧
      ∀ j ∈ b.db.exportJobs, isActiveExport j → j.target env.settings ≠ l

/-- The sweep recognises every other reference. -/
theorem isClaimed_of_isReferenced {env : Env} {b : Backend} (hk : WellKept env b.holdings)
    {now : Timestamp} {l : Location} (hl : IsReferenced env.settings b.db now l)
    (hv : ∀ v ∈ b.db.variants, v.location ≠ l)
    (hj : ∀ j ∈ b.db.exportJobs, isActiveExport j → j.target env.settings ≠ l) :
    isClaimed b.db (pendingKeys b.db now) l = true := by
  rw [isClaimed, decide_eq_true_eq]
  simp only [pendingKeys, liveExportKeys, decide_eq_true_eq, List.any_eq_true, List.mem_append,
    List.mem_map, List.mem_filter]
  rcases hl with ⟨o, ho, rfl⟩ | ⟨v, hvm, rfl⟩ | ⟨s, hs, hi, rfl⟩ |
    ⟨j, hjm, hactive | ⟨hc, hexp⟩, rfl⟩
  · exact .inr ⟨o, ho, rfl⟩
  · exact absurd rfl (hv v hvm)
  · exact .inl (.inl ⟨s, ⟨hs, hi⟩, rfl⟩)
  · exact absurd rfl (hj j hjm hactive)
  · obtain ⟨hbucket, hkey, -⟩ := hk.export_placed j hjm hc
    exact .inl (.inr ⟨j, ⟨hjm, hc, hexp⟩, by rw [hbucket, hkey]; rfl⟩)

/-- From any reachable database and over any storage, a repairing reconciliation
leaves all referenced bytes, if and only if what it comes upon within its limit
and can remove is no variant's and no unfinished export's. -/
theorem reconcile_keeps_referenced_iff (env : Env) (rs : List Request) (storage : Storage)
    (faults : Faults) (now : Timestamp) (buckets : List String) (grace : ℤ) (limit : ℕ) :
    let b : Backend := ⟨(run (serve env) World.initial rs).backend.db, storage⟩
    (∀ l, IsReferenced env.settings b.db now l →
      (reconcileOrphans env b faults now buckets grace limit true).1.storage.content l =
        b.storage.content l) ↔
      SweepsNothingOwned env b faults now buckets limit := by
  intro b
  have hk : WellKept env b.holdings := by
    have hrun := (worldInv_run env rs).kept
    exact ⟨hrun.session_key, hrun.object_session, hrun.variant_key, hrun.variant_object,
      hrun.export_placed⟩
  constructor
  · intro h l hl hf
    have hgone : IsReferenced env.settings b.db now l → False := by
      intro href
      have hkept := h l href
      rw [content_reconcileOrphans, if_pos ⟨hl, hf⟩] at hkept
      have hsome := (mem_comesUpon (List.mem_of_mem_take hl)).1
      rw [← hkept] at hsome
      cases hsome
    refine ⟨fun v hv hvl => hgone (.inr (.inl ⟨v, hv, hvl⟩)), fun j hj hactive hjl => ?_⟩
    exact hgone (.inr (.inr (.inr ⟨j, hj, .inl hactive, hjl⟩)))
  · intro h l href
    rw [content_reconcileOrphans, if_neg]
    rintro ⟨hl, hf⟩
    have hclaim := (mem_comesUpon (List.mem_of_mem_take hl)).2
    rw [isClaimed_of_isReferenced hk href (h l hl hf).1 (h l hl hf).2] at hclaim
    cases hclaim

/-- A private image gets its thumbnail, which the worker writes and registers. -/
def thumbnailed : List Request :=
  let generated := cleanUploadRequests Env.default 0 ⟨2⟩ (.ordinary 1) .private pngSignature ++
    [.generate 1 ⟨3⟩ (.ordinary 1) ⟨2⟩ thumbRequest]
  let jobs := (run (serve Env.default) World.initial generated).variantJobs
  generated ++
    (jobs.flatMap fun job => job.specs.map fun spec => .writeVariant spec [1] "image/webp") ++
    [.registerVariant 2 ⟨4⟩ ⟨2⟩ (thumbRegistration "private-media" (by decide))]

/-- The thumbnail is there, and a repairing reconciliation of its bucket removes it. -/
theorem not_reconcile_keeps_referenced :
    let b := (run (serve Env.default) World.initial thumbnailed).backend
    ¬ ∀ l, IsReferenced Env.default.settings b.db 3 l →
      (reconcileOrphans Env.default b Faults.none 3 ["private-media"] 0 10
        true).1.storage.content l =
        b.storage.content l := by
  intro b h
  have hvariant : ∃ v ∈ b.db.variants, b.storage.content v.location ≠ none ∧
      (reconcileOrphans Env.default b Faults.none 3 ["private-media"] 0 10
        true).1.storage.content v.location = none := by
    decide +kernel
  obtain ⟨v, hv, hthere, hgone⟩ := hvariant
  exact hthere ((h v.location (.inr (.inl ⟨v, hv, rfl⟩))).symm.trans hgone)

end MediaService
