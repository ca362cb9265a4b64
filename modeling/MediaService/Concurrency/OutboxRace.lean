import Mathlib.Algebra.BigOperators.Fin
import Mathlib.Algebra.Order.BigOperators.Group.Finset
import MediaService.Foundation.Interleaving
import MediaService.Invariants.OutboxDelivery

/-! Deliveries that overlap. A run reads what is due, then the subscriptions, posts one
event after the other and commits all its settlements at the end, of each row the columns
it changed; nothing keeps the next run from starting meanwhile, and any run may raise at
any point. Attempts are lost from the count then and a settlement may be written over by
another, but no event is: it stays pending, and comes due again, until some run has had
every answer it wanted or the attempts that failed are as many as the last one takes. -/

namespace MediaService

open Foundation

/-! ### The runs, step by step -/

/-- Whether every subscription an attempt posted to answered with success. -/
def DeliveryAttempt.accepted (a : DeliveryAttempt) : Bool := a.posts.all fun p => p.2.accepted

/-- The outbox, its rows as they were recorded, and the attempts that runs made, whether or
not they committed. -/
structure SharedOutbox where
  store : OutboxStore
  recorded : Table OutboxRow.id
  made : List DeliveryAttempt

def SharedOutbox.empty : SharedOutbox := ⟨⟨∅, ∅⟩, ∅, []⟩

/-- What a run does next. -/
inductive DeliveryPlace where
  | start
  | claimed (now : Timestamp) (events : List OutboxRow)
  | posting (now : Timestamp) (seen : OutboxStore) (waiting : List OutboxRow)
      (done : List DeliveryAttempt)
  | committed
  | raised

/-- One turn: an event is recorded or the subscriptions change meanwhile, or the run takes
its next step, with what it meets outside. -/
inductive OutboxTurn where
  | record (freshId : UUID) (createdAt now : Timestamp) (eventType : String) (objectId : UUID)
      (payload : List (String × String))
  | subscriptions (t : Table Subscription.id)
  | proceed (policy : WebhookPolicy) (d : Delivery) (fails : Bool)

/-- The row after a flush: the columns in which the settled row differs from the claimed. -/
def writeChanged (claimed settled row : OutboxRow) : OutboxRow :=
  { row with
    status := if settled.status = claimed.status then row.status else settled.status
    attempts := if settled.attempts = claimed.attempts then row.attempts else settled.attempts
    nextAttemptAt :=
      if settled.nextAttemptAt = claimed.nextAttemptAt then row.nextAttemptAt
      else settled.nextAttemptAt
    deliveredAt :=
      if settled.deliveredAt = claimed.deliveredAt then row.deliveredAt
      else settled.deliveredAt }

/-- The commit of a run. -/
def commitAttempts (t : Table OutboxRow.id) (done : List DeliveryAttempt) : Table OutboxRow.id :=
  done.foldl (fun t a => t.modify a.event.id (writeChanged a.event a.settled) fun _ => rfl) t

section Steps

variable (lib : UrlLibrary) (maxAttempts base : ℕ)

/-- An insert, which the id of a stored row refuses. -/
def recordRow (m : SharedOutbox) (row : OutboxRow) : SharedOutbox :=
  match m.store.events.insert row, m.recorded.insert row with
  | some t, some t' => ⟨{ m.store with events := t }, t', m.made⟩
  | _, _ => m

def deliveryStep (m : SharedOutbox) : DeliveryPlace → OutboxTurn → SharedOutbox × DeliveryPlace
  | place, .record freshId createdAt now eventType objectId payload =>
    (recordRow m (recordedRow freshId createdAt now eventType objectId payload), place)
  | place, .subscriptions t => ({ m with store := { m.store with subscriptions := t } }, place)
  | .start, .proceed _ d fails =>
    (m, if fails then .raised else .claimed d.now (claimDue m.store d.now d.limit))
  | .claimed now events, .proceed _ _ fails =>
    (m, if fails then .raised else .posting now m.store events [])
  | .posting now seen (e :: waiting) done, .proceed policy d fails =>
    match attemptEvent lib policy maxAttempts base seen { d with now := now } e with
    | .error _ => (m, .raised)
    | .ok a =>
      ({ m with made := m.made ++ [a] },
        if fails then .raised else .posting now seen waiting (done ++ [a]))
  | .posting _ _ [] done, .proceed _ _ fails =>
    if fails then (m, .raised)
    else
      ({ m with store := { m.store with events := commitAttempts m.store.events done } },
        .committed)
  | .committed, .proceed _ _ _ => (m, .committed)
  | .raised, .proceed _ _ _ => (m, .raised)

/-- Runs that take turns. -/
abbrev OutboxRace (ι : Type*) := Parties ι SharedOutbox DeliveryPlace

def outboxTurn {ι : Type*} [DecidableEq ι] :
    OutboxRace ι → ι × OutboxTurn → OutboxRace ι :=
  turn fun _ => deliveryStep lib maxAttempts base

def outboxStart (ι : Type*) : OutboxRace ι := ⟨SharedOutbox.empty, fun _ => .start⟩

end Steps

namespace DeliveryPlace

/-- The rows a run has claimed and not posted yet. -/
def waiting : DeliveryPlace → List OutboxRow
  | .claimed _ events => events
  | .posting _ _ waiting _ => waiting
  | _ => []

/-- The attempts a run has made and not committed yet. -/
def done : DeliveryPlace → List DeliveryAttempt
  | .posting _ _ _ done => done
  | _ => []

end DeliveryPlace

/-! ### What holds of an event -/

/-- How many attempts at an event have failed. -/
def failuresOf (made : List DeliveryAttempt) (eventId : UUID) : ℕ :=
  made.countP fun a => a.event.id = eventId ∧ a.accepted = false

/-- A row of an event beside the row it was recorded as and the attempts made. -/
structure EventLaw (maxAttempts base : ℕ) (made : List DeliveryAttempt) (o e : OutboxRow) :
    Prop where
  message : (e.id, e.createdAt, e.eventType, e.objectId, e.payload) =
    (o.id, o.createdAt, o.eventType, o.objectId, o.payload)
  counted : e.attempts ≤ failuresOf made o.id
  pending : e.status = .pending → e.attempts < maxAttempts ∧ e.deliveredAt = none
  due : e.status = .pending → e.nextAttemptAt = o.nextAttemptAt ∨
    ∃ a ∈ made, a.event.id = o.id ∧ a.accepted = false ∧ e.nextAttemptAt = a.nextDue base
  failed : e.status = .failed → maxAttempts ≤ failuresOf made o.id
  delivered : e.status = .delivered ∨ e.deliveredAt.isSome →
    ∃ a ∈ made, a.event.id = o.id ∧ a.accepted = true

/-- An attempt at an event that a run has made on a row it claimed. -/
structure AttemptLaw (maxAttempts base : ℕ) (made : List DeliveryAttempt) (o : OutboxRow)
    (a : DeliveryAttempt) : Prop where
  logged : a ∈ made
  event : a.event.id = o.id
  pending : a.event.status = .pending
  unset : a.event.deliveredAt = none
  settled : settle maxAttempts base a.now a.event a.accepted = .ok a.settled
  counted : a.accepted = false → a.event.attempts + 1 ≤ failuresOf made o.id

section Law

variable {maxAttempts base : ℕ} {made made' : List DeliveryAttempt} {o e : OutboxRow}
  {a : DeliveryAttempt}

theorem failuresOf_mono (h : made <+: made') (k : UUID) : failuresOf made k ≤ failuresOf made' k :=
  List.Sublist.countP_le h.sublist

theorem EventLaw.mono (h : EventLaw maxAttempts base made o e) (hmade : made <+: made') :
    EventLaw maxAttempts base made' o e where
  message := h.message
  counted := h.counted.trans (failuresOf_mono hmade _)
  pending := h.pending
  due hpending := (h.due hpending).imp_right fun hlogged => by
    obtain ⟨a, ha, hfacts⟩ := hlogged
    exact ⟨a, hmade.subset ha, hfacts⟩
  failed hfailed := (h.failed hfailed).trans (failuresOf_mono hmade _)
  delivered hdelivered := by
    obtain ⟨a, ha, hfacts⟩ := h.delivered hdelivered
    exact ⟨a, hmade.subset ha, hfacts⟩

theorem AttemptLaw.mono (h : AttemptLaw maxAttempts base made o a) (hmade : made <+: made') :
    AttemptLaw maxAttempts base made' o a where
  logged := hmade.subset h.logged
  event := h.event
  pending := h.pending
  unset := h.unset
  settled := h.settled
  counted hfailed := (h.counted hfailed).trans (failuresOf_mono hmade _)

theorem eventLaw_recorded (hmax : 1 ≤ maxAttempts) (freshId : UUID) (createdAt now : Timestamp)
    (eventType : String) (objectId : UUID) (payload : List (String × String)) :
    EventLaw maxAttempts base made (recordedRow freshId createdAt now eventType objectId payload)
      (recordedRow freshId createdAt now eventType objectId payload) where
  message := rfl
  counted := Nat.zero_le _
  pending _ := ⟨hmax, rfl⟩
  due _ := .inl rfl
  failed h := by cases h
  delivered h := by rcases h with h | h <;> cases h

/-- An attempt on a claimed row. -/
theorem EventLaw.attempted (h : EventLaw maxAttempts base made o a.event)
    (hpending : a.event.status = .pending)
    (hsettled : settle maxAttempts base a.now a.event a.accepted = .ok a.settled) :
    AttemptLaw maxAttempts base (made ++ [a]) o a := by
  have hid : a.event.id = o.id := congrArg Prod.fst h.message
  refine ⟨by simp, hid, hpending, (h.pending hpending).2, hsettled, fun hfailed => ?_⟩
  have hcounted := h.counted
  simp only [failuresOf, List.countP_append, List.countP_singleton] at hcounted ⊢
  rw [if_pos (by simp [hid, hfailed])]
  omega

/-- What a commit writes of an attempt keeps the law of the row it finds, whoever wrote
there since it was claimed. -/
theorem EventLaw.write (h : EventLaw maxAttempts base made o e)
    (ha : AttemptLaw maxAttempts base made o a) :
    EventLaw maxAttempts base made o (writeChanged a.event a.settled e) := by
  have hpending := ha.pending
  rcases settle_cases ha.settled with ⟨haccepted, hs⟩ | ⟨hfailed, hlast, hs⟩ |
    ⟨hfailed, hmore, hs⟩
  · have hlogged : ∃ a ∈ made, a.event.id = o.id ∧ a.accepted = true :=
      ⟨a, ha.logged, ha.event, haccepted⟩
    have hwrite : writeChanged a.event a.settled e =
        { e with status := .delivered, deliveredAt := some a.now } := by
      simp [writeChanged, hs, hpending, ha.unset]
    rw [hwrite]
    exact ⟨h.message, h.counted, by simp, by simp, by simp, fun _ => hlogged⟩
  · have hcounted := ha.counted hfailed
    have hwrite : writeChanged a.event a.settled e =
        { e with status := .failed, attempts := a.event.attempts + 1 } := by
      simp [writeChanged, hs, hpending]
    rw [hwrite]
    refine ⟨h.message, hcounted, by simp, by simp, fun _ => hlast.trans hcounted,
      fun hdelivered => h.delivered (.inr ?_)⟩
    exact hdelivered.resolve_left (by simp)
  · have hcounted := ha.counted hfailed
    have hdue : a.nextDue base = a.settled.nextAttemptAt := by
      rw [DeliveryAttempt.nextDue, hs, Nat.add_sub_cancel]
    have hwrite : writeChanged a.event a.settled e =
        { e with
          attempts := a.event.attempts + 1
          nextAttemptAt := if a.settled.nextAttemptAt = a.event.nextAttemptAt then
            e.nextAttemptAt else a.settled.nextAttemptAt } := by
      simp [writeChanged, hs]
    rw [hwrite]
    refine ⟨h.message, hcounted, fun hp => ⟨hmore, (h.pending hp).2⟩, fun hp => ?_,
      h.failed, h.delivered⟩
    dsimp only
    split
    · exact h.due hp
    · exact .inr ⟨a, ha.logged, ha.event, hfailed, hdue.symm⟩

theorem status_writeChanged (ha : AttemptLaw maxAttempts base made o a)
    (h : e.status ≠ .pending) : (writeChanged a.event a.settled e).status ≠ .pending := by
  rcases settle_cases ha.settled with ⟨-, hs⟩ | ⟨-, -, hs⟩ | ⟨-, -, hs⟩
  · simp [writeChanged, hs, ha.pending]
  · simp [writeChanged, hs, ha.pending]
  · simpa [writeChanged, hs] using h

end Law

/-! ### Commits -/

/-- Every row is still there, and none that was settled is pending again. -/
def SettledStay (t t' : Table OutboxRow.id) : Prop :=
  ∀ e ∈ t, ∃ e' ∈ t', e'.id = e.id ∧ (e.status ≠ .pending → e'.status ≠ .pending)

theorem SettledStay.refl (t : Table OutboxRow.id) : SettledStay t t :=
  fun e he => ⟨e, he, rfl, id⟩

theorem SettledStay.trans {t t' t'' : Table OutboxRow.id} (h : SettledStay t t')
    (h' : SettledStay t' t'') : SettledStay t t'' := by
  intro e he
  obtain ⟨e', he', hid, hsettled⟩ := h e he
  obtain ⟨e'', he'', hid', hsettled'⟩ := h' e' he'
  exact ⟨e'', he'', hid'.trans hid, fun hs => hsettled' (hsettled hs)⟩

section Commit

variable {maxAttempts base : ℕ} {made : List DeliveryAttempt} {recorded t : Table OutboxRow.id}
  {done : List DeliveryAttempt}

theorem commitAttempts_lawful
    (hdone : ∀ a ∈ done, ∃ o ∈ recorded, AttemptLaw maxAttempts base made o a)
    (ht : ∀ e ∈ t, ∃ o ∈ recorded, EventLaw maxAttempts base made o e) :
    ∀ e ∈ commitAttempts t done, ∃ o ∈ recorded, EventLaw maxAttempts base made o e := by
  induction done generalizing t with
  | nil => exact ht
  | cons a done ih =>
    obtain ⟨o, ho, ha⟩ := hdone a List.mem_cons_self
    refine ih (fun a' ha' => hdone a' (List.mem_cons_of_mem a ha')) fun e' he' => ?_
    obtain ⟨e, he, rfl⟩ := Table.mem_mapRows.mp he'
    obtain ⟨o', ho', hlaw⟩ := ht e he
    refine ⟨o', ho', ?_⟩
    split
    · rename_i hid
      have hsame : o' = o := by
        refine Table.eq_of_key_eq ho' ho ?_
        rw [← ha.event, ← hid]
        exact (congrArg Prod.fst hlaw.message).symm
      subst hsame
      exact hlaw.write ha
    · exact hlaw

theorem commitAttempts_stay
    (hdone : ∀ a ∈ done, ∃ o ∈ recorded, AttemptLaw maxAttempts base made o a) :
    SettledStay t (commitAttempts t done) := by
  induction done generalizing t with
  | nil => exact .refl t
  | cons a done ih =>
    obtain ⟨o, -, ha⟩ := hdone a List.mem_cons_self
    refine SettledStay.trans (fun e he => ?_)
      (ih fun a' ha' => hdone a' (List.mem_cons_of_mem a ha'))
    refine ⟨_, Table.mem_mapRows.mpr ⟨e, he, rfl⟩, ?_⟩
    split
    · exact ⟨rfl, status_writeChanged ha⟩
    · exact ⟨rfl, id⟩

end Commit

/-! ### Turns -/

/-- The shared state only grows by what a turn adds. -/
structure SharedOutbox.Grows (m m' : SharedOutbox) : Prop where
  recorded : ∀ o ∈ m.recorded, o ∈ m'.recorded
  made : m.made <+: m'.made

/-- The rows are those recorded, each by its law. -/
structure OutboxKept (maxAttempts base : ℕ) (m : SharedOutbox) : Prop where
  lawful : ∀ e ∈ m.store.events, ∃ o ∈ m.recorded, EventLaw maxAttempts base m.made o e
  stored : ∀ o ∈ m.recorded, ∃ e ∈ m.store.events, e.id = o.id

/-- What a run holds was claimed while pending. -/
structure InHand (maxAttempts base : ℕ) (m : SharedOutbox) (place : DeliveryPlace) : Prop where
  waiting : ∀ e ∈ place.waiting, e.status = .pending ∧
    ∃ o ∈ m.recorded, EventLaw maxAttempts base m.made o e
  done : ∀ a ∈ place.done, ∃ o ∈ m.recorded, AttemptLaw maxAttempts base m.made o a

section Turns

variable {lib : UrlLibrary} {maxAttempts base : ℕ} {m m' : SharedOutbox} {place : DeliveryPlace}

theorem InHand.mono (h : InHand maxAttempts base m place) (hm : m.Grows m') :
    InHand maxAttempts base m' place where
  waiting e he := by
    obtain ⟨hpending, o, ho, hlaw⟩ := h.waiting e he
    exact ⟨hpending, o, hm.recorded o ho, hlaw.mono hm.made⟩
  done a ha := by
    obtain ⟨o, ho, hlaw⟩ := h.done a ha
    exact ⟨o, hm.recorded o ho, hlaw.mono hm.made⟩

theorem inHand_empty (hwaiting : place.waiting = []) (hdone : place.done = []) :
    InHand maxAttempts base m place where
  waiting e he := by simp [hwaiting] at he
  done a ha := by simp [hdone] at ha

/-- A row that is recorded is new, or nothing changes. -/
theorem recordRow_cases (m : SharedOutbox) (row : OutboxRow) :
    recordRow m row = m ∨ ∃ t t', m.store.events.insert row = some t ∧
      m.recorded.insert row = some t' ∧
      recordRow m row = ⟨{ m.store with events := t }, t', m.made⟩ := by
  unfold recordRow
  split
  · rename_i t t' ht ht'
    exact .inr ⟨t, t', ht, ht', rfl⟩
  · exact .inl rfl

/-- What the next step of a run can do. -/
inductive Proceeds (lib : UrlLibrary) (maxAttempts base : ℕ) (m : SharedOutbox) :
    DeliveryPlace → SharedOutbox × DeliveryPlace → Prop
  | quits {place place' : DeliveryPlace} : place' = .raised ∨ place' = .committed →
      Proceeds lib maxAttempts base m place (m, place')
  | claims {now : Timestamp} {limit : ℕ} :
      Proceeds lib maxAttempts base m .start (m, .claimed now (claimDue m.store now limit))
  | reads {now : Timestamp} {events : List OutboxRow} :
      Proceeds lib maxAttempts base m (.claimed now events) (m, .posting now m.store events [])
  | posts {policy : WebhookPolicy} {d : Delivery} {now : Timestamp} {seen : OutboxStore}
      {e : OutboxRow} {waiting : List OutboxRow} {done : List DeliveryAttempt}
      {a : DeliveryAttempt} {place' : DeliveryPlace} : a.now = now →
      attemptEvent lib policy maxAttempts base seen d e = .ok a →
      place' = .posting now seen waiting (done ++ [a]) ∨ place' = .raised →
      Proceeds lib maxAttempts base m (.posting now seen (e :: waiting) done)
        ({ m with made := m.made ++ [a] }, place')
  | commits {now : Timestamp} {seen : OutboxStore} {done : List DeliveryAttempt} :
      Proceeds lib maxAttempts base m (.posting now seen [] done)
        ({ m with store := { m.store with events := commitAttempts m.store.events done } },
          .committed)

theorem deliveryStep_proceeds (lib : UrlLibrary) (maxAttempts base : ℕ) (m : SharedOutbox)
    (place : DeliveryPlace) (policy : WebhookPolicy) (d : Delivery) (fails : Bool) :
    Proceeds lib maxAttempts base m place
      (deliveryStep lib maxAttempts base m place (.proceed policy d fails)) := by
  cases place with
  | start =>
    rw [deliveryStep]
    cases fails with
    | false => exact .claims
    | true => exact .quits (.inl rfl)
  | claimed now events =>
    rw [deliveryStep]
    cases fails with
    | false => exact .reads
    | true => exact .quits (.inl rfl)
  | posting now seen waiting done =>
    cases waiting with
    | nil =>
      rw [deliveryStep]
      cases fails with
      | false => exact .commits
      | true => exact .quits (.inl rfl)
    | cons e waiting =>
      rw [deliveryStep]
      split
      · exact .quits (.inl rfl)
      · rename_i a ha
        refine .posts (attemptEvent_cases ha).1 ha ?_
        cases fails with
        | false => exact .inl rfl
        | true => exact .inr rfl
  | committed => exact .quits (.inr rfl)
  | raised => exact .quits (.inl rfl)

theorem grows_deliveryStep (lib : UrlLibrary) (maxAttempts base : ℕ) (m : SharedOutbox)
    (place : DeliveryPlace) (turn : OutboxTurn) :
    m.Grows (deliveryStep lib maxAttempts base m place turn).1 := by
  cases turn with
  | record freshId createdAt now eventType objectId payload =>
    rw [deliveryStep]
    rcases recordRow_cases m (recordedRow freshId createdAt now eventType objectId payload) with
      he | ⟨t, t', -, ht', he⟩
    · rw [he]
      exact ⟨fun _ ho => ho, List.prefix_rfl⟩
    · rw [he]
      exact ⟨fun o ho => (Table.mem_insert ht').mpr (.inl ho), List.prefix_rfl⟩
  | subscriptions t => exact ⟨fun _ ho => ho, List.prefix_rfl⟩
  | proceed policy d fails =>
    have hstep := deliveryStep_proceeds lib maxAttempts base m place policy d fails
    generalize deliveryStep lib maxAttempts base m place (.proceed policy d fails) = r at hstep ⊢
    cases hstep with
    | posts _ _ _ => exact ⟨fun _ ho => ho, List.prefix_append _ _⟩
    | _ => exact ⟨fun _ ho => ho, List.prefix_rfl⟩

theorem OutboxKept.record (h : OutboxKept maxAttempts base m) (hmax : 1 ≤ maxAttempts)
    (freshId : UUID) (createdAt now : Timestamp) (eventType : String) (objectId : UUID)
    (payload : List (String × String)) :
    OutboxKept maxAttempts base
      (recordRow m (recordedRow freshId createdAt now eventType objectId payload)) := by
  rcases recordRow_cases m (recordedRow freshId createdAt now eventType objectId payload) with
    he | ⟨t, t', ht, ht', he⟩
  · rw [he]
    exact h
  · rw [he]
    refine ⟨fun e hmem => ?_, fun o ho => ?_⟩
    · rcases (Table.mem_insert ht).mp hmem with hold | rfl
      · obtain ⟨o, ho, hlaw⟩ := h.lawful e hold
        exact ⟨o, (Table.mem_insert ht').mpr (.inl ho), hlaw⟩
      · exact ⟨_, (Table.mem_insert ht').mpr (.inr rfl), eventLaw_recorded hmax _ _ _ _ _ _⟩
    · rcases (Table.mem_insert ht').mp ho with hold | rfl
      · obtain ⟨e, hmem, hid⟩ := h.stored o hold
        exact ⟨e, (Table.mem_insert ht).mpr (.inl hmem), hid⟩
      · exact ⟨_, (Table.mem_insert ht).mpr (.inr rfl), rfl⟩

theorem OutboxKept.mono_made (h : OutboxKept maxAttempts base m) (a : DeliveryAttempt) :
    OutboxKept maxAttempts base { m with made := m.made ++ [a] } where
  lawful e he := by
    obtain ⟨o, ho, hlaw⟩ := h.lawful e he
    exact ⟨o, ho, hlaw.mono (List.prefix_append _ _)⟩
  stored := h.stored

/-- One turn keeps the outbox, and what the run that takes it holds. -/
theorem OutboxKept.step (hmax : 1 ≤ maxAttempts) (h : OutboxKept maxAttempts base m)
    (hplace : InHand maxAttempts base m place) (turn : OutboxTurn) :
    OutboxKept maxAttempts base (deliveryStep lib maxAttempts base m place turn).1 ∧
      InHand maxAttempts base (deliveryStep lib maxAttempts base m place turn).1
        (deliveryStep lib maxAttempts base m place turn).2 := by
  have hgrows := grows_deliveryStep lib maxAttempts base m place turn
  cases turn with
  | record freshId createdAt now eventType objectId payload =>
    exact ⟨h.record hmax freshId createdAt now eventType objectId payload, hplace.mono hgrows⟩
  | subscriptions t => exact ⟨⟨h.lawful, h.stored⟩, hplace.mono hgrows⟩
  | proceed policy d fails =>
    have hstep := deliveryStep_proceeds lib maxAttempts base m place policy d fails
    generalize deliveryStep lib maxAttempts base m place (.proceed policy d fails) = r
      at hstep hgrows ⊢
    cases hstep with
    | quits hend =>
      rcases hend with rfl | rfl
      · exact ⟨h, inHand_empty rfl rfl⟩
      · exact ⟨h, inHand_empty rfl rfl⟩
    | claims =>
      refine ⟨h, fun e he => ?_, fun a ha => by cases ha⟩
      obtain ⟨hmem, hpending, -⟩ := mem_claimDue he
      exact ⟨hpending, h.lawful e hmem⟩
    | reads => exact ⟨h, hplace.waiting, fun a ha => by cases ha⟩
    | @posts _ _ now seen e waiting done a place' _ ha hplace' =>
      obtain ⟨-, hevent, -, hsettled⟩ := attemptEvent_cases ha
      obtain ⟨hpending, o, ho, hlaw⟩ := hplace.waiting e List.mem_cons_self
      subst hevent
      have hattempt := hlaw.attempted hpending (by
        rw [← hsettled]
        exact congrArg (settle maxAttempts base · a.event _) (attemptEvent_cases ha).1)
      refine ⟨h.mono_made a, ?_⟩
      have hheld := hplace.mono hgrows
      rcases hplace' with rfl | rfl
      · refine ⟨fun e he => hheld.waiting e (List.mem_cons_of_mem _ he), fun a' ha' => ?_⟩
        rcases List.mem_append.mp ha' with hold | hnew
        · exact hheld.done a' hold
        · rw [List.mem_singleton.mp hnew]
          exact ⟨o, ho, hattempt⟩
      · exact inHand_empty rfl rfl
    | commits =>
      refine ⟨⟨commitAttempts_lawful hplace.done h.lawful, fun o ho => ?_⟩,
        inHand_empty rfl rfl⟩
      obtain ⟨e, he, hid⟩ := h.stored o ho
      obtain ⟨e', he', hid', -⟩ := commitAttempts_stay hplace.done e he
      exact ⟨e', he', hid'.trans hid⟩

/-- A run that is posting has just read the subscriptions, or was posting before and holds
no event that it did not hold then. -/
theorem posting_of_step {turn : OutboxTurn} {now : Timestamp} {seen : OutboxStore}
    {waiting : List OutboxRow} {done : List DeliveryAttempt}
    (h : (deliveryStep lib maxAttempts base m place turn).2 = .posting now seen waiting done) :
    (∃ policy d, turn = .proceed policy d false ∧ place = .claimed now waiting ∧
      seen = m.store) ∨
      ∃ held made, place = .posting now seen held made ∧ waiting ⊆ held := by
  cases turn with
  | record freshId createdAt now eventType objectId payload =>
    exact .inr ⟨_, _, h, List.Subset.refl _⟩
  | subscriptions t => exact .inr ⟨_, _, h, List.Subset.refl _⟩
  | proceed policy d fails =>
    have hstep := deliveryStep_proceeds lib maxAttempts base m place policy d fails
    cases fails with
    | false =>
      generalize deliveryStep lib maxAttempts base m place (.proceed policy d false) = r
        at hstep h
      cases hstep with
      | quits hend => rcases hend with rfl | rfl <;> cases h
      | claims => cases h
      | reads =>
        cases h
        exact .inl ⟨policy, d, rfl, rfl, rfl⟩
      | posts _ _ hplace' =>
        rcases hplace' with rfl | rfl
        · cases h
          exact .inr ⟨_, _, rfl, List.subset_cons_self _ _⟩
        · cases h
      | commits => cases h
    | true =>
      -- A run that raises is not posting.
      cases place with
      | posting now seen held done =>
        cases held with
        | nil => cases h
        | cons e held =>
          rw [deliveryStep] at h
          split at h <;> cases h
      | _ => cases h

variable (lib maxAttempts base) in
/-- An attempt is made by a run that is posting, on the event that comes next. -/
theorem made_step (m : SharedOutbox) (place : DeliveryPlace) (turn : OutboxTurn) :
    (deliveryStep lib maxAttempts base m place turn).1.made = m.made ∨
      ∃ now seen e waiting done a policy d, place = .posting now seen (e :: waiting) done ∧
        a.now = now ∧ attemptEvent lib policy maxAttempts base seen d e = .ok a ∧
        (deliveryStep lib maxAttempts base m place turn).1.made = m.made ++ [a] := by
  cases turn with
  | record freshId createdAt now eventType objectId payload =>
    left
    rw [deliveryStep]
    rcases recordRow_cases m (recordedRow freshId createdAt now eventType objectId payload) with
      he | ⟨t, t', -, -, he⟩
    · rw [he]
    · rw [he]
  | subscriptions t => exact .inl rfl
  | proceed policy d fails =>
    have hstep := deliveryStep_proceeds lib maxAttempts base m place policy d fails
    generalize deliveryStep lib maxAttempts base m place (.proceed policy d fails) = r at hstep ⊢
    cases hstep with
    | posts hnow ha _ => exact .inr ⟨_, _, _, _, _, _, _, _, rfl, hnow, ha, rfl⟩
    | _ => exact .inl rfl

theorem settledStay_step (hplace : InHand maxAttempts base m place) (turn : OutboxTurn) :
    SettledStay m.store.events
      (deliveryStep lib maxAttempts base m place turn).1.store.events := by
  cases turn with
  | record freshId createdAt now eventType objectId payload =>
    rw [deliveryStep]
    rcases recordRow_cases m (recordedRow freshId createdAt now eventType objectId payload) with
      he | ⟨t, t', ht, -, he⟩
    · rw [he]
      exact .refl _
    · rw [he]
      exact fun e hmem => ⟨e, (Table.mem_insert ht).mpr (.inl hmem), rfl, id⟩
  | subscriptions t => exact .refl _
  | proceed policy d fails =>
    have hstep := deliveryStep_proceeds lib maxAttempts base m place policy d fails
    generalize deliveryStep lib maxAttempts base m place (.proceed policy d fails) = r at hstep ⊢
    cases hstep with
    | commits => exact commitAttempts_stay hplace.done
    | _ => exact .refl _

/-- How often an event was attempted. -/
def attemptsAt (made : List DeliveryAttempt) (eventId : UUID) : ℕ :=
  made.countP fun a => a.event.id = eventId

/-- How often a run still holds an event to post. -/
def DeliveryPlace.copies (eventId : UUID) (place : DeliveryPlace) : ℕ :=
  place.waiting.countP fun e => e.id = eventId

/-- An attempt at a settled event uses up a copy that a run still held of it. -/
theorem attemptsAt_step {e : OutboxRow} (he : e ∈ m.store.events) (hsettled : e.status ≠ .pending)
    (turn : OutboxTurn) :
    attemptsAt (deliveryStep lib maxAttempts base m place turn).1.made e.id +
        (deliveryStep lib maxAttempts base m place turn).2.copies e.id ≤
      attemptsAt m.made e.id + place.copies e.id := by
  cases turn with
  | record freshId createdAt now eventType objectId payload =>
    rw [deliveryStep]
    rcases recordRow_cases m (recordedRow freshId createdAt now eventType objectId payload) with
      heq | ⟨t, t', -, -, heq⟩
    · rw [heq]
    · rw [heq]
  | subscriptions t => exact le_refl _
  | proceed policy d fails =>
    have hstep := deliveryStep_proceeds lib maxAttempts base m place policy d fails
    generalize deliveryStep lib maxAttempts base m place (.proceed policy d fails) = r at hstep ⊢
    cases hstep with
    | quits hend =>
      rcases hend with rfl | rfl <;> simp [DeliveryPlace.copies, DeliveryPlace.waiting]
    | @claims now limit =>
      have hnone : (claimDue m.store now limit).countP (fun e' => e'.id = e.id) = 0 := by
        refine List.countP_eq_zero.mpr fun e' he' hid => ?_
        obtain ⟨hmem, hpending, -⟩ := mem_claimDue he'
        rw [Table.eq_of_key_eq hmem he (of_decide_eq_true hid)] at hpending
        exact hsettled hpending
      simp [DeliveryPlace.copies, DeliveryPlace.waiting, hnone]
    | reads => exact le_refl _
    | @posts _ _ now seen e' waiting done a place' _ ha hplace' =>
      obtain ⟨-, hevent, -, -⟩ := attemptEvent_cases ha
      have hcopies : place'.copies e.id ≤ waiting.countP fun e' => e'.id = e.id := by
        rcases hplace' with rfl | rfl
        · exact le_refl _
        · exact Nat.zero_le _
      simp only [attemptsAt, DeliveryPlace.copies, DeliveryPlace.waiting, List.countP_append,
        List.countP_cons, List.countP_nil, hevent] at hcopies ⊢
      omega
    | commits => simp [DeliveryPlace.copies, DeliveryPlace.waiting]

end Turns

/-! ### Interleavings -/

section Race

variable {ι : Type*} [DecidableEq ι] {lib : UrlLibrary} {maxAttempts base : ℕ}
  {s : OutboxRace ι}

/-- The outbox is kept, and what every run holds. -/
def RaceKept (maxAttempts base : ℕ) (s : OutboxRace ι) : Prop :=
  OutboxKept maxAttempts base s.shared ∧ ∀ i, InHand maxAttempts base s.shared (s.place i)

omit [DecidableEq ι] in
theorem raceKept_start : RaceKept maxAttempts base (outboxStart ι) :=
  ⟨⟨fun e he => absurd he (Table.not_mem_empty e), fun o ho => absurd ho (Table.not_mem_empty o)⟩,
    fun _ => inHand_empty rfl rfl⟩

theorem RaceKept.turn (hmax : 1 ≤ maxAttempts) (h : RaceKept maxAttempts base s)
    (m : ι × OutboxTurn) : RaceKept maxAttempts base (outboxTurn lib maxAttempts base s m) := by
  refine turn_inv (G := OutboxKept maxAttempts base)
    (L := fun _ m place => InHand maxAttempts base m place) ?_ ?_ ?_ h m
  · exact fun _ m place t hm hplace => (hm.step hmax hplace t).1
  · exact fun _ m place t hm hplace => (hm.step hmax hplace t).2
  · exact fun _ _ m place _ t _ _ _ hother => hother.mono (grows_deliveryStep _ _ _ m place t)

theorem raceKept_run (lib : UrlLibrary) (hmax : 1 ≤ maxAttempts) (h : RaceKept maxAttempts base s)
    (ms : List (ι × OutboxTurn)) :
    RaceKept maxAttempts base (run (outboxTurn lib maxAttempts base) s ms) :=
  (always_of_inv (I := RaceKept maxAttempts base) (fun _ m hs => hs.turn hmax m) h ms).last

/-- Having claimed these events, the run `i` reads the subscriptions with the turn that comes
after `past`. -/
def ReadsAfter (lib : UrlLibrary) (maxAttempts base : ℕ) (ms past : List (ι × OutboxTurn)) (i : ι)
    (now : Timestamp) (events : List OutboxRow) : Prop :=
  (∃ policy d rest, ms = past ++ (i, .proceed policy d false) :: rest) ∧
    (run (outboxTurn lib maxAttempts base) (outboxStart ι) past).place i = .claimed now events

/-- How an attempt came about: a run that had claimed its event posted it to all the
subscriptions it is for, of those stored when the run read them, and holds what each post
came to. -/
def PostedToAll (lib : UrlLibrary) (maxAttempts base : ℕ) (ms : List (ι × OutboxTurn))
    (a : DeliveryAttempt) : Prop :=
  ∃ i past events, ReadsAfter lib maxAttempts base ms past i a.now events ∧ a.event ∈ events ∧
    a.posts.map Prod.fst = targets
      (run (outboxTurn lib maxAttempts base) (outboxStart ι) past).shared.store a.event ∧
    ∃ (policy : WebhookPolicy) (d : Delivery), ∀ p ∈ a.posts, postOne lib policy
      (d.resolver a.event.id p.1.id) (d.client a.event.id p.1.id) p.1.url = .ok p.2

theorem ReadsAfter.append {ms past : List (ι × OutboxTurn)} {i : ι} {now : Timestamp}
    {events : List OutboxRow} (h : ReadsAfter lib maxAttempts base ms past i now events)
    (m : ι × OutboxTurn) : ReadsAfter lib maxAttempts base (ms ++ [m]) past i now events := by
  obtain ⟨⟨policy, d, rest, rfl⟩, hplace⟩ := h
  exact ⟨⟨policy, d, rest ++ [m], by simp⟩, hplace⟩

theorem PostedToAll.append {ms : List (ι × OutboxTurn)} {a : DeliveryAttempt}
    (h : PostedToAll lib maxAttempts base ms a) (m : ι × OutboxTurn) :
    PostedToAll lib maxAttempts base (ms ++ [m]) a := by
  obtain ⟨i, past, events, hread, hposts⟩ := h
  exact ⟨i, past, events, hread.append m, hposts⟩

/-- A run that is posting reads nothing again and holds nothing it did not claim. -/
theorem posting_run (ms : List (ι × OutboxTurn)) {i : ι} {now : Timestamp} {seen : OutboxStore}
    {waiting : List OutboxRow} {done : List DeliveryAttempt}
    (h : (run (outboxTurn lib maxAttempts base) (outboxStart ι) ms).place i =
      .posting now seen waiting done) :
    ∃ past events, ReadsAfter lib maxAttempts base ms past i now events ∧ waiting ⊆ events ∧
      seen = (run (outboxTurn lib maxAttempts base) (outboxStart ι) past).shared.store := by
  induction ms using List.reverseRecOn generalizing waiting done with
  | nil => cases h
  | append_singleton ms m ih =>
    obtain ⟨j, t⟩ := m
    rw [run_append, run_cons, run_nil] at h
    by_cases hij : i = j
    · subst hij
      have hstep := h
      rw [outboxTurn, turn_place_self] at hstep
      rcases posting_of_step hstep with ⟨policy, d, rfl, hplace, rfl⟩ | ⟨held, made, hplace, hsub⟩
      · exact ⟨ms, waiting, ⟨⟨policy, d, [], rfl⟩, hplace⟩, List.Subset.refl _, rfl⟩
      · obtain ⟨past, events, hread, hheld, hseen⟩ := ih hplace
        exact ⟨past, events, hread.append _, fun _ he => hheld (hsub he), hseen⟩
    · rw [outboxTurn, turn_place_ne _ hij] at h
      obtain ⟨past, events, hread, hheld, hseen⟩ := ih h
      exact ⟨past, events, hread.append _, hheld, hseen⟩

theorem posted_run (lib : UrlLibrary) (maxAttempts base : ℕ) (ms : List (ι × OutboxTurn)) :
    ∀ a ∈ (run (outboxTurn lib maxAttempts base) (outboxStart ι) ms).shared.made,
      PostedToAll lib maxAttempts base ms a := by
  induction ms using List.reverseRecOn with
  | nil => exact fun a ha => by cases ha
  | append_singleton ms m ih =>
    obtain ⟨i, t⟩ := m
    intro a ha
    rw [run_append] at ha
    rcases made_step lib maxAttempts base
      (run (outboxTurn lib maxAttempts base) (outboxStart ι) ms).shared
      ((run (outboxTurn lib maxAttempts base) (outboxStart ι) ms).place i) t with
      hsame | ⟨now, seen, e, waiting, done, a', policy, d, hplace, rfl, hattempt, hmade⟩
    · exact (ih a (hsame ▸ ha)).append _
    · rcases List.mem_append.mp (hmade ▸ ha) with hold | hnew
      · exact (ih a hold).append _
      · obtain rfl := List.mem_singleton.mp hnew
        obtain ⟨past, events, hread, hheld, rfl⟩ := posting_run ms hplace
        obtain ⟨-, rfl, hposts, -⟩ := attemptEvent_cases hattempt
        refine ⟨i, past, events, hread.append _, hheld List.mem_cons_self,
          deliverEvent_targets hposts, policy, d, fun p hp => ?_⟩
        obtain ⟨sub, -, hsub⟩ := mem_of_mapM_eq_ok hposts hp
        obtain ⟨r, hr, rfl⟩ := map_eq_ok.mp hsub
        exact hr

/-- The copies of an event that the runs hold. -/
def copiesHeld [Fintype ι] (eventId : UUID) (s : OutboxRace ι) : ℕ :=
  ∑ i, (s.place i).copies eventId

/-- From an event's settlement on: it stays settled, and is attempted no more often than the
runs hold copies of it that they claimed before. -/
theorem settled_run [Fintype ι] (hmax : 1 ≤ maxAttempts) (h : RaceKept maxAttempts base s)
    {e : OutboxRow} (he : e ∈ s.shared.store.events) (hsettled : e.status ≠ .pending)
    (ms : List (ι × OutboxTurn)) :
    (∃ e' ∈ (run (outboxTurn lib maxAttempts base) s ms).shared.store.events,
      e'.id = e.id ∧ e'.status ≠ .pending) ∧
      attemptsAt (run (outboxTurn lib maxAttempts base) s ms).shared.made e.id ≤
        attemptsAt s.shared.made e.id + copiesHeld e.id s := by
  induction ms generalizing s e with
  | nil => exact ⟨⟨e, he, rfl, hsettled⟩, Nat.le_add_right _ _⟩
  | cons m ms ih =>
    obtain ⟨i, t⟩ := m
    obtain ⟨e', he', hid, hsettled'⟩ := settledStay_step (h.2 i) t e he
    have hstep := @attemptsAt_step lib maxAttempts base s.shared (s.place i) e he hsettled t
    have hsum := @sum_place_turn ι SharedOutbox DeliveryPlace OutboxTurn _
      (fun _ => deliveryStep lib maxAttempts base) ℤ _ _ (fun place => place.copies e.id) s i t
    obtain ⟨hstays, hattempts⟩ := ih (h.turn hmax (i, t)) he' (hsettled' hsettled)
    rw [hid] at hstays hattempts
    refine ⟨hstays, hattempts.trans ?_⟩
    have hheld : (copiesHeld e.id (outboxTurn lib maxAttempts base s (i, t)) : ℤ) =
        copiesHeld e.id s +
          (((deliveryStep lib maxAttempts base s.shared (s.place i) t).2.copies e.id : ℤ) -
            ((s.place i).copies e.id : ℤ)) := by
      rw [copiesHeld, copiesHeld, Nat.cast_sum, Nat.cast_sum]
      exact hsum
    change attemptsAt (deliveryStep lib maxAttempts base s.shared (s.place i) t).1.made e.id + _ ≤ _
    omega

/-- In any interleaving of runs that deliver and raise, requests that record events and
changes of the subscriptions, with as many runs at once as there are: every recorded event
is stored; a pending one has attempts left, and is due when it was recorded to be or after
the delay of an attempt that failed; a delivered one had an attempt that was accepted, a
failed one as many failures as the last attempt takes; every attempt posts to all the
subscriptions its event is for, as its run read them; and a settled event stays settled,
with no attempts after that but by runs that had claimed it before. -/
theorem outbox_overlap [Fintype ι] (lib : UrlLibrary) {maxAttempts base : ℕ}
    (hmax : 1 ≤ maxAttempts) (before after : List (ι × OutboxTurn)) :
    let s := run (outboxTurn lib maxAttempts base) (outboxStart ι) before
    let s' := run (outboxTurn lib maxAttempts base) (outboxStart ι) (before ++ after)
    OutboxKept maxAttempts base s'.shared ∧
      (∀ a ∈ s'.shared.made, PostedToAll lib maxAttempts base (before ++ after) a) ∧
      ∀ e ∈ s.shared.store.events, e.status ≠ .pending →
        (∃ e' ∈ s'.shared.store.events, e'.id = e.id ∧ e'.status ≠ .pending) ∧
          attemptsAt s'.shared.made e.id ≤ attemptsAt s.shared.made e.id + copiesHeld e.id s := by
  intro s s'
  have hs : RaceKept maxAttempts base s := raceKept_run lib hmax raceKept_start before
  refine ⟨(raceKept_run lib hmax raceKept_start (before ++ after)).1,
    posted_run lib maxAttempts base (before ++ after), fun e he hsettled => ?_⟩
  have hrun := @settled_run ι _ lib maxAttempts base s _ hmax hs e he hsettled after
  rw [← run_append] at hrun
  exact hrun

/-- Two runs claim one event; the first has it accepted and commits, and the second, which
fails, counts its attempt on the settled row. -/
def overlappingTurns : List (Bool × OutboxTurn) :=
  let proceed (outcome : ClientOutcome) : OutboxTurn :=
    .proceed clusterPolicy ⟨0, 100, fun _ _ _ => .error .osError, fun _ _ => outcome⟩ false
  [(false, .record ⟨1⟩ 0 0 "object.ready" ⟨2⟩ [("status", "ready")]),
    (false, .subscriptions clusterStore.subscriptions),
    (false, proceed .httpError), (true, proceed .httpError),
    (false, proceed .httpError), (true, proceed .httpError),
    (false, proceed (.response 200)), (false, proceed .httpError),
    (true, proceed .httpError), (true, proceed .httpError)]

theorem outbox_overlap_twice :
    let s := run (outboxTurn .ascii 2 30) (outboxStart Bool) overlappingTurns
    (s.shared.store.events.rows.map fun e => (e.status, e.attempts)) = [(.delivered, 1)] ∧
      attemptsAt s.shared.made ⟨1⟩ = 2 ∧ OutboxKept 2 30 s.shared ∧
      ∀ a ∈ s.shared.made, PostedToAll .ascii 2 30 overlappingTurns a := by
  intro s
  have h := @outbox_overlap Bool _ _ .ascii 2 30 (by decide) overlappingTurns []
  rw [List.append_nil] at h
  exact ⟨by decide +kernel, by decide +kernel, h.1, h.2.1⟩

end Race

end MediaService
