import Mathlib.Algebra.Order.BigOperators.Group.List
import Mathlib.Algebra.Order.Group.Nat
import MediaService.Foundation.Run
import MediaService.Scenario

/-! The life of an outbox event over any run of the delivery. Each run that
completes makes one attempt at every event it claims; the attempts an event has
had, its status and its due time move together. Before the last attempt an event
is pending and comes due only after the delay its attempts set; the last one
leaves it failed, a success delivered, and neither is claimed again. -/

namespace MediaService

open Foundation

/-! ### One attempt -/

section Settle

variable {maxAttempts base : ℕ} {now : Timestamp} {e e' : OutboxRow} {accepted : Bool}

theorem settle_cases (h : settle maxAttempts base now e accepted = .ok e') :
    accepted = true ∧ e' = { e with status := .delivered, deliveredAt := some now } ∨
      accepted = false ∧ maxAttempts ≤ e.attempts + 1 ∧
        e' = { e with attempts := e.attempts + 1, status := .failed } ∨
      accepted = false ∧ e.attempts + 1 < maxAttempts ∧
        e' = { e with
          attempts := e.attempts + 1
          nextAttemptAt := now + (base * 2 ^ e.attempts : ℕ) * 1000000 } := by
  unfold settle at h
  cases accepted with
  | true =>
    rw [if_pos rfl] at h
    cases h
    exact .inl ⟨rfl, rfl⟩
  | false =>
    simp only [Bool.false_eq_true, if_false, Nat.add_sub_cancel] at h
    by_cases hlast : maxAttempts ≤ e.attempts + 1
    · rw [if_pos hlast] at h
      cases h
      exact .inr (.inl ⟨rfl, hlast, rfl⟩)
    · rw [if_neg hlast, addSeconds] at h
      split at h
      · cases h
      · rename_i t ht
        split at ht
        · cases ht
          cases h
          exact .inr (.inr ⟨rfl, by omega, rfl⟩)
        · cases ht

/-- A row is settled unless its next due time is past the last instant. -/
theorem settle_isOk_iff : (∃ e', settle maxAttempts base now e accepted = .ok e') ↔
    accepted = true ∨ maxAttempts ≤ e.attempts + 1 ∨
      now + (base * 2 ^ e.attempts : ℕ) * 1000000 ≤ datetimeMax := by
  unfold settle
  cases accepted with
  | true => exact ⟨fun _ => .inl rfl, fun _ => ⟨_, rfl⟩⟩
  | false =>
    simp only [Bool.false_eq_true, if_false, Nat.add_sub_cancel, false_or]
    by_cases hlast : maxAttempts ≤ e.attempts + 1
    · rw [if_pos hlast]
      exact ⟨fun _ => .inl hlast, fun _ => ⟨_, rfl⟩⟩
    · rw [if_neg hlast, addSeconds]
      by_cases hfits : now + (base * 2 ^ e.attempts : ℕ) * 1000000 ≤ datetimeMax
      · rw [if_pos hfits]
        exact ⟨fun _ => .inr hfits, fun _ => ⟨_, rfl⟩⟩
      · rw [if_neg hfits]
        constructor
        · rintro ⟨_, h⟩
          cases h
        · exact fun h => absurd h (not_or.mpr ⟨hlast, hfits⟩)

theorem id_of_settle (h : settle maxAttempts base now e accepted = .ok e') : e'.id = e.id := by
  rcases settle_cases h with ⟨-, rfl⟩ | ⟨-, -, rfl⟩ | ⟨-, -, rfl⟩ <;> rfl

end Settle

theorem mem_claimDue {st : OutboxStore} {now : Timestamp} {limit : ℕ} {e : OutboxRow}
    (h : e ∈ claimDue st now limit) :
    e ∈ st.events ∧ e.status = .pending ∧ e.nextAttemptAt ≤ now := by
  have hsorted := Table.mem_sorted.mp (List.mem_of_mem_take h)
  rwa [decide_eq_true_eq] at hsorted

theorem claimDue_nodup (st : OutboxStore) (now : Timestamp) (limit : ℕ) :
    ((claimDue st now limit).map OutboxRow.id).Nodup :=
  Table.nodup_sorted.sublist ((List.take_sublist _ _).map _)

theorem mem_targets {st : OutboxStore} {e : OutboxRow} {sub : Subscription} :
    sub ∈ targets st e ↔
      sub ∈ st.subscriptions ∧ sub.active = true ∧ sub.wants e.eventType = true := by
  rw [targets, activeSubscriptions, List.mem_filter, List.mem_filter, and_assoc, Table.mem_def]

theorem targets_nodup (st : OutboxStore) (e : OutboxRow) :
    ((targets st e).map Subscription.id).Nodup :=
  st.subscriptions.nodup.sublist ((List.filter_sublist.trans List.filter_sublist).map _)

section Deliver

variable {lib : UrlLibrary} {policy : WebhookPolicy} {maxAttempts base : ℕ} {st st' : OutboxStore}
  {d : Delivery} {e : OutboxRow} {a : DeliveryAttempt} {report : OutboxDeliveryReport}
  {attempts : List DeliveryAttempt}

/-- The posts of an event are its targets', in order. -/
theorem deliverEvent_targets {posts : List (Subscription × PostResult)}
    (h : deliverEvent lib policy st d e = .ok posts) : posts.map Prod.fst = targets st e := by
  refine map_of_mapM_eq_ok (fun sub p hp => ?_) h
  obtain ⟨r, -, rfl⟩ := map_eq_ok.mp hp
  rfl

theorem attemptEvent_cases
    (h : attemptEvent lib policy maxAttempts base st d e = .ok a) :
    a.now = d.now ∧ a.event = e ∧ deliverEvent lib policy st d e = .ok a.posts ∧
      settle maxAttempts base d.now e (a.posts.all fun p => p.2.accepted) = .ok a.settled := by
  unfold attemptEvent at h
  cases hposts : deliverEvent lib policy st d e with
  | error err =>
    rw [hposts] at h
    cases h
  | ok posts =>
    rw [hposts] at h
    obtain ⟨settled, hsettled, rfl⟩ := map_eq_ok.mp h
    exact ⟨rfl, rfl, rfl, hsettled⟩

theorem deliverPending_cases
    (h : deliverPending lib policy maxAttempts base st d = .ok (st', report, attempts)) :
    attempts.map DeliveryAttempt.event = claimDue st d.now d.limit ∧
      (∀ a ∈ attempts, attemptEvent lib policy maxAttempts base st d a.event = .ok a) ∧
      st' = { st with
        events := (attempts.map DeliveryAttempt.settled).foldl Table.update st.events } := by
  unfold deliverPending at h
  split at h
  · cases h
  · rename_i attempts' hattempts
    cases h
    refine ⟨map_of_mapM_eq_ok (fun e a ha => (attemptEvent_cases ha).2.1) hattempts, ?_, ?_⟩
    · intro a ha
      obtain ⟨e, -, he⟩ := mem_of_mapM_eq_ok hattempts ha
      rw [(attemptEvent_cases he).2.1]
      exact he
    · rw [List.foldl_map]

theorem deliverPending_ids
    (h : deliverPending lib policy maxAttempts base st d = .ok (st', report, attempts)) :
    (attempts.map fun a => a.event.id).Nodup ∧
      ∀ a ∈ attempts, a.settled.id = a.event.id := by
  obtain ⟨hevents, hattempt, -⟩ := deliverPending_cases h
  constructor
  · have hnodup := claimDue_nodup st d.now d.limit
    rw [← hevents, List.map_map] at hnodup
    exact hnodup
  · exact fun a ha => id_of_settle (attemptEvent_cases (hattempt a ha)).2.2.2

/-- What the run attempts was pending and due, and is settled by its attempt. -/
theorem deliverPending_mem
    (h : deliverPending lib policy maxAttempts base st d = .ok (st', report, attempts))
    (ha : a ∈ attempts) :
    st.events.find a.event.id = some a.event ∧ a.event.status = .pending ∧
      a.event.nextAttemptAt ≤ a.now ∧ st'.events.find a.event.id = some a.settled := by
  obtain ⟨hevents, hattempt, rfl⟩ := deliverPending_cases h
  obtain ⟨hnodup, hid⟩ := deliverPending_ids h
  have hclaimed : a.event ∈ claimDue st d.now d.limit := hevents ▸ List.mem_map_of_mem ha
  obtain ⟨hmem, hpending, hdue⟩ := mem_claimDue hclaimed
  have hfind := Table.find_of_mem hmem
  refine ⟨hfind, hpending, (attemptEvent_cases (hattempt a ha)).1 ▸ hdue, ?_⟩
  have hsettled : ((attempts.map DeliveryAttempt.settled).map OutboxRow.id).Nodup := by
    rw [List.map_map, List.map_congr_left (g := fun a => a.event.id) hid]
    exact hnodup
  rw [← hid a ha] at hfind ⊢
  exact Table.find_foldl_update_of_mem hsettled (List.mem_map_of_mem ha) (by rw [hfind]; rfl)

/-- What the run does not attempt it leaves. -/
theorem deliverPending_find
    (h : deliverPending lib policy maxAttempts base st d = .ok (st', report, attempts)) {k : UUID}
    (hk : ∀ a ∈ attempts, a.event.id ≠ k) : st'.events.find k = st.events.find k := by
  obtain ⟨-, -, rfl⟩ := deliverPending_cases h
  obtain ⟨-, hid⟩ := deliverPending_ids h
  refine Table.find_foldl_update_of_ne (fun r hr => ?_) st.events
  obtain ⟨a, ha, rfl⟩ := List.mem_map.mp hr
  rw [hid a ha]
  exact hk a ha

end Deliver

/-! ### Runs -/

/-- The outbox, and the attempts of the runs that completed, in order; a run that
does not complete settles nothing. -/
structure Mailroom where
  store : OutboxStore
  history : List DeliveryAttempt

/-- What happens to an outbox: an event is recorded, the subscriptions change, a
run delivers. -/
inductive OutboxAction where
  | record (freshId : UUID) (createdAt now : Timestamp) (eventType : String) (objectId : UUID)
      (payload : List (String × String))
  | subscriptions (t : Table Subscription.id)
  | deliver (policy : WebhookPolicy) (d : Delivery)

section Runs

variable (lib : UrlLibrary) (maxAttempts base : ℕ)

/-- The attempts an action makes. -/
def attemptsOf (st : OutboxStore) : OutboxAction → List DeliveryAttempt
  | .deliver policy d =>
    match deliverPending lib policy maxAttempts base st d with
    | .ok (_, _, attempts) => attempts
    | .error _ => []
  | _ => []

def outboxStep (st : OutboxStore) : OutboxAction → OutboxStore
  | .record freshId createdAt now eventType objectId payload =>
    match st.events.insert (recordedRow freshId createdAt now eventType objectId payload) with
    | none => st
    | some t => { st with events := t }
  | .subscriptions t => { st with subscriptions := t }
  | .deliver policy d =>
    match deliverPending lib policy maxAttempts base st d with
    | .ok (st', _, _) => st'
    | .error _ => st

def mailStep (m : Mailroom) (act : OutboxAction) : Mailroom :=
  ⟨outboxStep lib maxAttempts base m.store act,
    m.history ++ attemptsOf lib maxAttempts base m.store act⟩

end Runs

/-- The attempts at one event. -/
def historyOf (m : Mailroom) (eventId : UUID) : List DeliveryAttempt :=
  m.history.filter fun a => a.event.id = eventId

/-- When the next attempt may come. -/
def DeliveryAttempt.nextDue (base : ℕ) (a : DeliveryAttempt) : Timestamp :=
  a.now + (base * 2 ^ (a.settled.attempts - 1) : ℕ) * 1000000

/-- How often an attempt posts to a subscription. -/
def DeliveryAttempt.postsTo (a : DeliveryAttempt) (subscriptionId : UUID) : ℕ :=
  a.posts.countP fun p => p.1.id = subscriptionId ∧ p.2 ≠ .blocked

/-- A row beside the attempts it has had. -/
structure Tracked (maxAttempts base : ℕ) (hs : List DeliveryAttempt) (e : OutboxRow) : Prop where
  length_eq : hs.length = e.attempts + if e.status = .delivered then 1 else 0
  attempts : if e.status = .failed then e.attempts = maxAttempts else e.attempts < maxAttempts
  due : e.status = .pending → ∀ a ∈ hs, a.nextDue base ≤ e.nextAttemptAt
  spaced : hs.Pairwise fun a a' => a.nextDue base ≤ a'.now
  postsTo_le : ∀ a ∈ hs, ∀ s, a.postsTo s ≤ 1

section Tracked

variable {lib : UrlLibrary} {policy : WebhookPolicy} {maxAttempts base : ℕ} {st : OutboxStore}
  {d : Delivery} {e : OutboxRow} {hs : List DeliveryAttempt} {a : DeliveryAttempt}

theorem Tracked.length_le (h : Tracked maxAttempts base hs e) : hs.length ≤ maxAttempts := by
  have hlength := h.length_eq
  have hattempts := h.attempts
  split at hlength
  · rename_i hdelivered
    rw [hdelivered, if_neg (by decide)] at hattempts
    omega
  · split at hattempts <;> omega

theorem tracked_recorded (hmax : 1 ≤ maxAttempts) (freshId : UUID) (createdAt now : Timestamp)
    (eventType : String) (objectId : UUID) (payload : List (String × String)) :
    Tracked maxAttempts base [] (recordedRow freshId createdAt now eventType objectId payload) where
  length_eq := rfl
  attempts := hmax
  due := by simp
  spaced := List.Pairwise.nil
  postsTo_le := by simp

theorem postsTo_le_one (h : deliverEvent lib policy st d e = .ok a.posts) (s : UUID) :
    a.postsTo s ≤ 1 := by
  have hnodup := targets_nodup st e
  rw [← deliverEvent_targets h, List.map_map] at hnodup
  calc a.postsTo s ≤ a.posts.countP fun p => p.1.id = s :=
        List.countP_mono_left fun p _ hp => by
          rw [decide_eq_true_eq] at hp ⊢
          exact hp.1
    _ = (a.posts.map fun p => p.1.id).count s := by
        rw [List.count, List.countP_map]
        exact List.countP_congr fun p _ => by simp
    _ ≤ 1 := List.nodup_iff_count_le_one.mp hnodup s

/-- An attempt at a pending event that is due. -/
theorem Tracked.attempt (h : Tracked maxAttempts base hs a.event)
    (ha : attemptEvent lib policy maxAttempts base st d a.event = .ok a)
    (hpending : a.event.status = .pending) (hdue : a.event.nextAttemptAt ≤ a.now) :
    Tracked maxAttempts base (hs ++ [a]) a.settled := by
  obtain ⟨hnow, -, hposts, hsettle⟩ := attemptEvent_cases ha
  have hlength := h.length_eq
  have hattempts := h.attempts
  have hbefore := h.due hpending
  rw [hpending, if_neg (by decide)] at hlength hattempts
  have hspaced : (hs ++ [a]).Pairwise fun a a' => a.nextDue base ≤ a'.now := by
    refine List.pairwise_append.mpr ⟨h.spaced, List.pairwise_singleton _ _, ?_⟩
    intro b hb c hc
    rw [List.mem_singleton.mp hc]
    exact (hbefore b hb).trans hdue
  have hle : ∀ b ∈ hs ++ [a], ∀ s, b.postsTo s ≤ 1 := by
    intro b hb
    rcases List.mem_append.mp hb with hb | hb
    · exact h.postsTo_le b hb
    · rw [List.mem_singleton.mp hb]
      exact postsTo_le_one hposts
  rcases settle_cases hsettle with ⟨-, he⟩ | ⟨-, hlast, he⟩ | ⟨-, hmore, he⟩
  · refine ⟨?_, ?_, ?_, hspaced, hle⟩
    · rw [List.length_append, hlength, he, if_pos rfl]
      rfl
    · rw [he, if_neg (by simp)]
      exact hattempts
    · rw [he]
      simp
  · refine ⟨?_, ?_, ?_, hspaced, hle⟩
    · rw [List.length_append, hlength, he, if_neg (by simp)]
      rfl
    · rw [he, if_pos rfl]
      exact Nat.le_antisymm hattempts hlast
    · rw [he]
      simp
  · refine ⟨?_, ?_, ?_, hspaced, hle⟩
    · rw [List.length_append, hlength, he, hpending, if_neg (by decide)]
      rfl
    · rw [he, if_neg (by simp [hpending])]
      exact hmore
    · -- the new due time is what this attempt sets, and past what it was due at
      intro _ b hb
      have hnext : a.settled.nextAttemptAt = a.nextDue base := by
        rw [DeliveryAttempt.nextDue, he, hnow, Nat.add_sub_cancel]
      rw [hnext]
      rcases List.mem_append.mp hb with hb | hb
      · have hdelay : 0 ≤ ((base * 2 ^ (a.settled.attempts - 1) : ℕ) : ℤ) * 1000000 := by omega
        exact ((hbefore b hb).trans hdue).trans (Int.le_add_of_nonneg_right hdelay)
      · rw [List.mem_singleton.mp hb]

end Tracked

/-! ### Every action -/

/-- Each stored event is tracked by its attempts, and only stored events have any. -/
def MailInv (maxAttempts base : ℕ) (m : Mailroom) : Prop :=
  ∀ k, match m.store.events.find k with
    | none => historyOf m k = []
    | some e => Tracked maxAttempts base (historyOf m k) e

section Step

variable {lib : UrlLibrary} {maxAttempts base : ℕ}

variable (lib maxAttempts base) in
/-- What an action does to one event: it attempts it; or it does not, and leaves
it or records it. -/
theorem outboxStep_cases (st : OutboxStore) (act : OutboxAction) (k : UUID) :
    (∃ policy d a, act = .deliver policy d ∧ a ∈ attemptsOf lib maxAttempts base st act ∧
      a.event.id = k ∧ attemptEvent lib policy maxAttempts base st d a.event = .ok a ∧
      st.events.find k = some a.event ∧ a.event.status = .pending ∧
      a.event.nextAttemptAt ≤ a.now ∧
      (outboxStep lib maxAttempts base st act).events.find k = some a.settled ∧
      (attemptsOf lib maxAttempts base st act).filter (fun a => a.event.id = k) = [a]) ∨
    ((∀ a ∈ attemptsOf lib maxAttempts base st act, a.event.id ≠ k) ∧
      ((outboxStep lib maxAttempts base st act).events.find k = st.events.find k ∨
        st.events.find k = none ∧ ∃ createdAt now eventType objectId payload,
          (outboxStep lib maxAttempts base st act).events.find k =
            some (recordedRow k createdAt now eventType objectId payload))) := by
  cases act with
  | record freshId createdAt now eventType objectId payload =>
    refine .inr ⟨by simp [attemptsOf], ?_⟩
    simp only [outboxStep]
    cases hinsert : st.events.insert
        (recordedRow freshId createdAt now eventType objectId payload) with
    | none => exact .inl rfl
    | some t =>
      dsimp only
      rw [Table.find_insert hinsert]
      split
      · rename_i hk
        refine .inr ⟨?_, createdAt, now, eventType, objectId, payload, ?_⟩
        · rw [hk]
          exact Table.find_none_of_insert hinsert
        · rw [hk]
          rfl
      · exact .inl rfl
  | subscriptions t => exact .inr ⟨by simp [attemptsOf], .inl rfl⟩
  | deliver policy d =>
    simp only [outboxStep, attemptsOf]
    cases hrun : deliverPending lib policy maxAttempts base st d with
    | error e => exact .inr ⟨by simp, .inl rfl⟩
    | ok result =>
      obtain ⟨st', report, attempts⟩ := result
      dsimp only
      by_cases hk : ∃ a ∈ attempts, a.event.id = k
      · obtain ⟨a, ha, rfl⟩ := hk
        obtain ⟨hfind, hpending, hdue, hsettled⟩ := deliverPending_mem hrun ha
        obtain ⟨-, hattempt, -⟩ := deliverPending_cases hrun
        refine .inl ⟨policy, d, a, rfl, ha, rfl, hattempt a ha, hfind, hpending, hdue, hsettled, ?_⟩
        exact Table.filter_key_eq (t := ⟨attempts, (deliverPending_ids hrun).1⟩) ha
      · have hne : ∀ a ∈ attempts, a.event.id ≠ k := fun a ha he => hk ⟨a, ha, he⟩
        exact .inr ⟨hne, .inl (deliverPending_find hrun hne)⟩

theorem mailInv_step (hmax : 1 ≤ maxAttempts) {m : Mailroom} (h : MailInv maxAttempts base m)
    (act : OutboxAction) : MailInv maxAttempts base (mailStep lib maxAttempts base m act) := by
  intro k
  have hk := h k
  have hhistory : historyOf (mailStep lib maxAttempts base m act) k = historyOf m k ++
      (attemptsOf lib maxAttempts base m.store act).filter fun a => a.event.id = k :=
    List.filter_append _ _
  rw [hhistory]
  simp only [mailStep]
  rcases outboxStep_cases lib maxAttempts base m.store act k
    with ⟨policy, d, a, -, -, -, ha, hfind, hpending, hdue, hsettled, hfilter⟩ | ⟨hne, hstore⟩
  · rw [hfind] at hk
    rw [hsettled, hfilter]
    exact hk.attempt ha hpending hdue
  · rw [List.filter_eq_nil_iff.mpr fun a ha => by simpa using hne a ha, List.append_nil]
    rcases hstore with hsame | ⟨hnone, createdAt, now, eventType, objectId, payload, hnew⟩
    · rw [hsame]
      exact hk
    · rw [hnone] at hk
      rw [hnew, hk]
      exact tracked_recorded hmax k createdAt now eventType objectId payload

end Step

/-! ### The law -/

/-- How often an event was posted to a subscription. -/
def postCount (m : Mailroom) (eventId subscriptionId : UUID) : ℕ :=
  ((historyOf m eventId).map fun a => a.postsTo subscriptionId).sum

/-- What holds whenever the outbox is looked at: attempts stay within the limit and
reach it exactly at a failure, no subscription is posted an event more often than
that, and two attempts at an event are a growing delay apart. -/
structure OutboxLawful (maxAttempts base : ℕ) (m : Mailroom) : Prop where
  attempts_le : ∀ e ∈ m.store.events, e.attempts ≤ maxAttempts
  failed_iff : ∀ e ∈ m.store.events, e.status = .failed ↔ e.attempts = maxAttempts
  postCount_le : ∀ eventId subscriptionId, postCount m eventId subscriptionId ≤ maxAttempts
  spaced : ∀ eventId, (historyOf m eventId).Pairwise fun a a' => a.nextDue base ≤ a'.now

/-- What holds of every action: a settled event is neither claimed nor posted and
stays as it is, and an event becomes delivered only in a run that posts it to every
active subscription that wants it and has a success from each. -/
structure ActionLawful (lib : UrlLibrary) (maxAttempts base : ℕ) (m : Mailroom)
    (act : OutboxAction) : Prop where
  settled_unclaimed : ∀ e ∈ m.store.events, e.status ≠ .pending → ∀ policy d,
    act = .deliver policy d → e ∉ claimDue m.store d.now d.limit
  settled_unposted : ∀ e ∈ m.store.events, e.status ≠ .pending →
    ∀ a ∈ attemptsOf lib maxAttempts base m.store act, a.event.id ≠ e.id
  settled_kept : ∀ e ∈ m.store.events, e.status ≠ .pending →
    e ∈ (outboxStep lib maxAttempts base m.store act).events
  delivered_accepted : ∀ e ∈ m.store.events, e.status ≠ .delivered →
    ∀ e' ∈ (outboxStep lib maxAttempts base m.store act).events, e'.id = e.id →
      e'.status = .delivered → ∃ policy d, act = .deliver policy d ∧
        ∃ a ∈ attemptsOf lib maxAttempts base m.store act, a.event = e ∧
          ∀ sub ∈ m.store.subscriptions, sub.active = true → sub.wants e.eventType = true →
            (sub, .issued (d.client e.id sub.id)) ∈ a.posts ∧
              (d.client e.id sub.id).accepted = true

section Law

variable {lib : UrlLibrary} {maxAttempts base : ℕ}

theorem MailInv.lawful {m : Mailroom} (h : MailInv maxAttempts base m) :
    OutboxLawful maxAttempts base m := by
  have htracked : ∀ e ∈ m.store.events, Tracked maxAttempts base (historyOf m e.id) e := by
    intro e he
    have hk := h e.id
    rwa [Table.find_of_mem he] at hk
  have hany : ∀ k, (historyOf m k).length ≤ maxAttempts ∧
      ((historyOf m k).Pairwise fun a a' => a.nextDue base ≤ a'.now) ∧
      ∀ a ∈ historyOf m k, ∀ s, a.postsTo s ≤ 1 := by
    intro k
    have hk := h k
    cases hfind : m.store.events.find k with
    | none =>
      rw [hfind] at hk
      rw [hk]
      simp
    | some e =>
      rw [hfind] at hk
      exact ⟨hk.length_le, hk.spaced, hk.postsTo_le⟩
  refine ⟨fun e he => ?_, fun e he => ?_, fun k s => ?_, fun k => (hany k).2.1⟩
  · have hattempts := (htracked e he).attempts
    split at hattempts
    · exact hattempts.le
    · exact hattempts.le
  · have hattempts := (htracked e he).attempts
    split at hattempts
    · exact ⟨fun _ => hattempts, fun _ => by assumption⟩
    · rename_i hne
      exact ⟨fun he => absurd he hne, fun he => by omega⟩
  · have hsum : postCount m k s ≤ ((historyOf m k).map fun a => a.postsTo s).length * 1 := by
      refine List.sum_le_card_nsmul _ 1 fun n hn => ?_
      obtain ⟨a, ha, rfl⟩ := List.mem_map.mp hn
      exact (hany k).2.2 a ha s
    rw [List.length_map] at hsum
    have := (hany k).1
    omega

/-- A target of an attempt that was accepted answered with success. -/
theorem accepted_of_attempt {policy : WebhookPolicy} {st : OutboxStore} {d : Delivery}
    {a : DeliveryAttempt}
    (ha : attemptEvent lib policy maxAttempts base st d a.event = .ok a)
    (hall : (a.posts.all fun p => p.2.accepted) = true) {sub : Subscription}
    (hsub : sub ∈ targets st a.event) :
    (sub, .issued (d.client a.event.id sub.id)) ∈ a.posts ∧
      (d.client a.event.id sub.id).accepted = true := by
  obtain ⟨-, -, hposts, -⟩ := attemptEvent_cases ha
  obtain ⟨p, hp, hpost⟩ := exists_of_mapM_eq_ok hposts hsub
  obtain ⟨r, hr, rfl⟩ := map_eq_ok.mp hpost
  have haccepted : r.accepted = true := List.all_eq_true.mp hall _ hp
  unfold postOne at hr
  split at hr
  · cases hr
  · cases hr
    cases haccepted
  · split at hr
    · cases hr
    · cases hr
      exact ⟨hp, haccepted⟩

theorem actionLawful (m : Mailroom) (act : OutboxAction) :
    ActionLawful lib maxAttempts base m act := by
  have hunposted : ∀ e ∈ m.store.events, e.status ≠ .pending →
      (∀ a ∈ attemptsOf lib maxAttempts base m.store act, a.event.id ≠ e.id) ∧
        (outboxStep lib maxAttempts base m.store act).events.find e.id = some e := by
    intro e he hstatus
    have hfind := Table.find_of_mem he
    rcases outboxStep_cases lib maxAttempts base m.store act
      e.id with ⟨policy, d, a, -, -, -, -, ha, hpending, -⟩ | ⟨hne, hsame | ⟨hnone, -⟩⟩
    · rw [hfind, Option.some.injEq] at ha
      exact absurd (ha ▸ hpending) hstatus
    · exact ⟨hne, hsame.trans hfind⟩
    · rw [hfind] at hnone
      cases hnone
  refine ⟨?_, ?_, ?_, ?_⟩
  · intro e _ hstatus policy d _ hclaimed
    exact hstatus (mem_claimDue hclaimed).2.1
  · exact fun e he hstatus => (hunposted e he hstatus).1
  · exact fun e he hstatus => Table.mem_of_find (hunposted e he hstatus).2
  · intro e he hstatus e' he' hid hdelivered
    have hfind := Table.find_of_mem he
    have hfind' := Table.find_of_mem he'
    rw [hid] at hfind'
    rcases outboxStep_cases lib maxAttempts base m.store act
      e.id with ⟨policy, d, a, hact, hmem, -, ha, hevent, hpending, -, hsettled, -⟩ |
        ⟨-, hsame | ⟨hnone, -⟩⟩
    · rw [hfind, Option.some.injEq] at hevent
      rw [hfind', Option.some.injEq] at hsettled
      refine ⟨policy, d, hact, a, hmem, hevent.symm, fun sub hsub hactive hwants => ?_⟩
      rcases settle_cases (attemptEvent_cases ha).2.2.2 with ⟨hall, -⟩ | ⟨-, -, hset⟩ | ⟨-, -, hset⟩
      · rw [hevent] at hwants ⊢
        exact accepted_of_attempt ha hall (mem_targets.mpr ⟨hsub, hactive, hwants⟩)
      · rw [hsettled, hset] at hdelivered
        cases hdelivered
      · rw [hsettled, hset] at hdelivered
        exact absurd (hpending.symm.trans hdelivered) (by decide)
    · rw [hsame, hfind, Option.some.injEq] at hfind'
      exact absurd (hfind' ▸ hdelivered) hstatus
    · rw [hfind] at hnone
      cases hnone

end Law

/-- Over any run of the outbox, from rows as `record_event` stages them. -/
theorem outbox_lifecycle (lib : UrlLibrary) {maxAttempts base : ℕ} (hmax : 1 ≤ maxAttempts)
    {st : OutboxStore}
    (hst : ∀ e ∈ st.events, ∃ createdAt now eventType objectId payload,
      e = recordedRow e.id createdAt now eventType objectId payload)
    (acts : List OutboxAction) :
    Always (mailStep lib maxAttempts base) (OutboxLawful maxAttempts base) ⟨st, []⟩ acts ∧
      Guarded (mailStep lib maxAttempts base) (ActionLawful lib maxAttempts base)
        ⟨st, []⟩ acts := by
  have hstart : MailInv maxAttempts base ⟨st, []⟩ := by
    intro k
    cases hfind : st.events.find k with
    | none => simp [historyOf]
    | some e =>
      dsimp only
      obtain ⟨createdAt, now, eventType, objectId, payload, he⟩ := hst e (Table.mem_of_find hfind)
      rw [he]
      exact tracked_recorded hmax e.id createdAt now eventType objectId payload
  constructor
  · have hinv : Always (mailStep lib maxAttempts base) (MailInv maxAttempts base) ⟨st, []⟩ acts :=
      always_of_inv (I := MailInv maxAttempts base) (fun m act h => mailInv_step hmax h act)
        hstart acts
    exact hinv.mono fun m h => h.lawful
  · exact guarded_of_forall (fun act _ m => actionLawful m act) _

/-- A run in which the subscriber gives the outcome. -/
def clusterRun (now : Timestamp) (outcome : ClientOutcome) : OutboxAction :=
  .deliver clusterPolicy {
    now := now
    limit := 100
    resolver := fun _ _ _ => .error .osError
    client := fun _ _ => outcome }

def clusterStore : OutboxStore := ⟨⟨[readyEvent 1], by decide⟩, ⟨[clusterSubscription], by decide⟩⟩

/-- One failure, one run before the event is due again, and a success. -/
def clusterRuns : List OutboxAction :=
  [clusterRun 0 .httpError, clusterRun 29999999 (.response 200),
    clusterRun 30000000 (.response 200)]

theorem outbox_lifecycle_retried :
    ((run (mailStep .ascii 2 30) ⟨clusterStore, []⟩ clusterRuns).store.events.rows.map fun e =>
        (e.status, e.attempts)) = [(.delivered, 1)] ∧
      Always (mailStep .ascii 2 30) (OutboxLawful 2 30) ⟨clusterStore, []⟩ clusterRuns ∧
      Guarded (mailStep .ascii 2 30) (ActionLawful .ascii 2 30) ⟨clusterStore, []⟩ clusterRuns := by
  refine ⟨by decide +kernel, outbox_lifecycle .ascii (by decide) ?_ clusterRuns⟩
  intro e he
  rw [List.mem_singleton.mp he]
  exact ⟨0, 0, "object.ready", ⟨2⟩, [("status", "ready")], rfl⟩

end MediaService
