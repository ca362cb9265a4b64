import MediaService.Invariants.OutboxDelivery

/-! What a webhook target can do to the run that posts to it. The check rejects a
target or admits it, but it also raises: on a lookup that fails in its encoding,
and on an answer that is no address. Nor does the client promise to raise only
what the run catches. A run settles its batch exactly if none of this happens, and
the address a request reaches is the one inspected only where the client does not
look the name up again. -/

namespace MediaService

open Foundation

/-! ### The check, declaratively -/

/-- The addresses the policy lets a webhook go to. -/
def Permits (policy : WebhookPolicy) (ip : IpAddress) : Prop :=
  isAlwaysBlocked ip = false ∧ (policy.production = true → ip.isPrivate = false)

instance (policy : WebhookPolicy) (ip : IpAddress) : Decidable (Permits policy ip) :=
  inferInstanceAs (Decidable (_ ∧ _))

/-- The text is an address the policy permits. -/
def PermitsText (policy : WebhookPolicy) (raw : String) : Prop :=
  ∃ ip, IpAddress.ofString (withoutScope raw) = some ip ∧ Permits policy ip

/-- The target is not on the allowlist and its scheme is in order. -/
def Gated (lib : UrlLibrary) (policy : WebhookPolicy) (url host : String) : Prop :=
  ∃ scheme, splitTarget lib url = .ok (host, scheme) ∧
    lib.lower host ∉ policy.allowedInternalHosts ∧ (policy.production = true → scheme = "https")

/-- The check looks the name up: the host passes the gate and is no literal. -/
def LooksUp (lib : UrlLibrary) (policy : WebhookPolicy) (url host : String) : Prop :=
  Gated lib policy url host ∧ IpAddress.ofString host = none

/-- The target is one the guard admits: allowlisted, or a permitted literal, or a
name all of whose addresses are permitted. -/
def Admits (lib : UrlLibrary) (policy : WebhookPolicy) (resolver : Resolver)
    (url : String) : Prop :=
  (∃ host scheme, splitTarget lib url = .ok (host, scheme) ∧
      lib.lower host ∈ policy.allowedInternalHosts) ∨
    (∃ host ip, Gated lib policy url host ∧ IpAddress.ofString host = some ip ∧
      Permits policy ip) ∨
    (∃ host addrs, LooksUp lib policy url host ∧ resolver host = .ok addrs ∧ addrs ≠ [] ∧
      ∀ raw ∈ addrs, PermitsText policy raw)

/-- The lookup leaves the check with an exception: it fails in its encoding, or
answers with a text that is no address before any address that is rejected. -/
def LookupRaises (lib : UrlLibrary) (policy : WebhookPolicy) (resolver : Resolver)
    (url : String) : Prop :=
  ∃ host, LooksUp lib policy url host ∧
    ((∃ message, resolver host = .error (.unicodeError message)) ∨
      ∃ before raw after, resolver host = .ok (before ++ raw :: after) ∧
        (∀ r ∈ before, PermitsText policy r) ∧ IpAddress.ofString (withoutScope raw) = none)

section Check

variable (lib : UrlLibrary) {policy : WebhookPolicy} {resolver : Resolver} {url host : String}

theorem rejectIfBlocked_cases (ip : IpAddress) (host : String) (policy : WebhookPolicy) :
    rejectIfBlocked lib ip host policy.production = .ok () ∧ Permits policy ip ∨
      (∃ message, rejectIfBlocked lib ip host policy.production =
        .error (.webhookTargetError message)) ∧ ¬ Permits policy ip := by
  unfold rejectIfBlocked Permits
  cases hblocked : isAlwaysBlocked ip with
  | true => exact .inr ⟨⟨_, if_pos rfl⟩, fun h => by cases h.1⟩
  | false =>
    rw [if_neg (by decide)]
    by_cases hprivate : policy.production = true ∧ ip.isPrivate = true
    · refine .inr ⟨⟨_, if_pos hprivate⟩, fun h => ?_⟩
      have := h.2 hprivate.1
      simp [hprivate.2] at this
    · refine .inl ⟨if_neg hprivate, rfl, fun hproduction => ?_⟩
      exact Bool.eq_false_iff.mpr fun hp => hprivate ⟨hproduction, hp⟩

theorem rejectAddresses_append (host : String) {before : List String}
    (hbefore : ∀ r ∈ before, PermitsText policy r) (rest : List String) :
    rejectAddresses lib host policy.production (before ++ rest) =
      rejectAddresses lib host policy.production rest := by
  induction before with
  | nil => rfl
  | cons raw before ih =>
    obtain ⟨⟨ip, hparse, hpermits⟩, hbefore⟩ := List.forall_mem_cons.mp hbefore
    rw [List.cons_append, rejectAddresses, hparse]
    rcases rejectIfBlocked_cases lib ip host policy with ⟨hok, -⟩ | ⟨-, hnot⟩
    · dsimp only
      rw [hok]
      exact ih hbefore
    · exact absurd hpermits hnot

/-- An answer is inspected in order, up to the first address that is rejected or
the first text that is none. -/
theorem rejectAddresses_cases (host : String) (policy : WebhookPolicy) (addrs : List String) :
    rejectAddresses lib host policy.production addrs = .ok () ∧
        (∀ raw ∈ addrs, PermitsText policy raw) ∨
      (∃ message, rejectAddresses lib host policy.production addrs =
        .error (.webhookTargetError message)) ∨
      (∃ message, rejectAddresses lib host policy.production addrs =
          .error (.valueError message)) ∧
        (∃ before raw after, addrs = before ++ raw :: after ∧
          (∀ r ∈ before, PermitsText policy r) ∧
          IpAddress.ofString (withoutScope raw) = none) := by
  induction addrs with
  | nil => exact .inl ⟨rfl, by simp⟩
  | cons raw addrs ih =>
    rw [rejectAddresses]
    cases hparse : IpAddress.ofString (withoutScope raw) with
    | none => exact .inr (.inr ⟨⟨_, rfl⟩, [], raw, addrs, rfl, by simp, hparse⟩)
    | some ip =>
      dsimp only
      rcases rejectIfBlocked_cases lib ip host policy with ⟨hok, hpermits⟩ | ⟨⟨m, herr⟩, -⟩
      · have hraw : PermitsText policy raw := ⟨ip, hparse, hpermits⟩
        rw [hok]
        rcases ih with ⟨hrest, hall⟩ | hrest | ⟨hrest, before, r, after, rfl, hbefore, hr⟩
        · exact .inl ⟨hrest, List.forall_mem_cons.mpr ⟨hraw, hall⟩⟩
        · exact .inr (.inl hrest)
        · exact .inr (.inr ⟨hrest, raw :: before, r, after, rfl,
            List.forall_mem_cons.mpr ⟨hraw, hbefore⟩, hr⟩)
      · rw [herr]
        exact .inr (.inl ⟨m, rfl⟩)

/-- Off the allowlist and past the gate, a literal is judged and a name looked up. -/
theorem checkWebhookUrl_gated (h : Gated lib policy url host) :
    checkWebhookUrl lib policy (some resolver) url =
      match IpAddress.ofString host with
      | some literal => rejectIfBlocked lib literal host policy.production
      | none =>
        match resolveIps lib host resolver with
        | .error e => .error e
        | .ok addrs => rejectAddresses lib host policy.production addrs := by
  obtain ⟨scheme, hsplit, hallow, hscheme⟩ := h
  have hhttps : ¬ (policy.production = true ∧ scheme ≠ "https") := fun h => h.2 (hscheme h.1)
  rw [checkWebhookUrl, hsplit]
  exact (if_neg hallow).trans (if_neg hhttps)

theorem urlGuard_of_admits (h : Admits lib policy resolver url) :
    urlGuard lib policy resolver url = .ok true := by
  have hcheck : checkWebhookUrl lib policy (some resolver) url = .ok () := by
    rcases h with ⟨host, scheme, hsplit, hallow⟩ | ⟨host, ip, hgated, hip, hpermits⟩ |
      ⟨host, addrs, ⟨hgated, hname⟩, hanswer, hne, hall⟩
    · rw [checkWebhookUrl, hsplit]
      exact if_pos hallow
    · rw [checkWebhookUrl_gated lib hgated, hip]
      rcases rejectIfBlocked_cases lib ip host policy with ⟨hok, -⟩ | ⟨-, hnot⟩
      · exact hok
      · exact absurd hpermits hnot
    · obtain ⟨raw, rest, rfl⟩ := List.exists_cons_of_ne_nil hne
      have happend := rejectAddresses_append lib host hall []
      rw [List.append_nil] at happend
      rw [checkWebhookUrl_gated lib hgated, hname, resolveIps, hanswer]
      exact happend
  rw [urlGuard, hcheck]

theorem urlGuard_of_raises (h : LookupRaises lib policy resolver url) :
    ∃ e, urlGuard lib policy resolver url = .error e := by
  obtain ⟨host, ⟨hgated, hname⟩, ⟨message, herr⟩ |
    ⟨before, raw, after, hanswer, hbefore, hraw⟩⟩ := h
  · refine ⟨.unicodeError message, ?_⟩
    rw [urlGuard, checkWebhookUrl_gated lib hgated, hname, resolveIps, herr]
  · have hresolve : resolveIps lib host resolver = .ok (before ++ raw :: after) := by
      rw [resolveIps, hanswer]
      cases before <;> rfl
    have herr : ∃ message, rejectAddresses lib host policy.production (before ++ raw :: after) =
        .error (.valueError message) := by
      rw [rejectAddresses_append lib host hbefore, rejectAddresses, hraw]
      exact ⟨_, rfl⟩
    obtain ⟨message, herr⟩ := herr
    refine ⟨.valueError message, ?_⟩
    rw [urlGuard, checkWebhookUrl_gated lib hgated, hname, hresolve]
    dsimp only
    rw [herr]

variable (policy resolver) in
/-- What the guard comes to, on a URL that splits. -/
theorem urlGuard_cases (hurl : ∀ message, lib.urlsplit url ≠ .error message) :
    urlGuard lib policy resolver url = .ok true ∧ Admits lib policy resolver url ∨
      urlGuard lib policy resolver url = .ok false ∨
      LookupRaises lib policy resolver url := by
  cases hsplit : splitTarget lib url with
  | error e =>
    have hrejected : ∃ message, e = .webhookTargetError message := by
      unfold splitTarget at hsplit
      split at hsplit
      · rename_i message hm
        exact absurd hm (hurl message)
      · dsimp only at hsplit
        repeat' split at hsplit
        all_goals
          cases hsplit
          try exact ⟨_, rfl⟩
    obtain ⟨message, rfl⟩ := hrejected
    refine .inr (.inl ?_)
    rw [urlGuard, checkWebhookUrl, hsplit]
  | ok target =>
    obtain ⟨host, scheme⟩ := target
    by_cases hallow : lib.lower host ∈ policy.allowedInternalHosts
    · have hadmits : Admits lib policy resolver url := .inl ⟨host, scheme, hsplit, hallow⟩
      exact .inl ⟨urlGuard_of_admits lib hadmits, hadmits⟩
    by_cases hscheme : policy.production = true ∧ scheme ≠ "https"
    · refine .inr (.inl ?_)
      rw [urlGuard, checkWebhookUrl, hsplit]
      dsimp only
      rw [if_neg hallow, if_pos hscheme]
    have hgated : Gated lib policy url host :=
      ⟨scheme, hsplit, hallow, fun hp => by_contra fun hs => hscheme ⟨hp, hs⟩⟩
    cases hip : IpAddress.ofString host with
    | some ip =>
      rcases rejectIfBlocked_cases lib ip host policy with ⟨-, hpermits⟩ | ⟨⟨m, herr⟩, -⟩
      · have hadmits : Admits lib policy resolver url :=
          .inr (.inl ⟨host, ip, hgated, hip, hpermits⟩)
        exact .inl ⟨urlGuard_of_admits lib hadmits, hadmits⟩
      · refine .inr (.inl ?_)
        rw [urlGuard, checkWebhookUrl_gated lib hgated, hip]
        dsimp only
        rw [herr]
    | none =>
      cases hanswer : resolver host with
      | error e =>
        cases e with
        | osError =>
          refine .inr (.inl ?_)
          rw [urlGuard, checkWebhookUrl_gated lib hgated, hip, resolveIps, hanswer]
        | unicodeError message =>
          exact .inr (.inr ⟨host, ⟨hgated, hip⟩, .inl ⟨message, hanswer⟩⟩)
      | ok addrs =>
        cases addrs with
        | nil =>
          refine .inr (.inl ?_)
          rw [urlGuard, checkWebhookUrl_gated lib hgated, hip, resolveIps, hanswer]
        | cons raw rest =>
          rcases rejectAddresses_cases lib host policy (raw :: rest) with ⟨-, hall⟩ | ⟨m, herr⟩ |
            ⟨-, before, r, after, hsplits, hbefore, hr⟩
          · have hadmits : Admits lib policy resolver url :=
              .inr (.inr ⟨host, raw :: rest, ⟨hgated, hip⟩, hanswer, by simp, hall⟩)
            exact .inl ⟨urlGuard_of_admits lib hadmits, hadmits⟩
          · refine .inr (.inl ?_)
            rw [urlGuard, checkWebhookUrl_gated lib hgated, hip, resolveIps, hanswer]
            dsimp only
            rw [herr]
          · exact .inr (.inr ⟨host, ⟨hgated, hip⟩,
              .inr ⟨before, r, after, hsplits ▸ hanswer, hbefore, hr⟩⟩)

end Check

/-! ### Isolation of subscribers -/

/-- `create_subscription` accepts the URL, under some settings. -/
def Registrable (lib : UrlLibrary) (url : String) : Prop :=
  ∃ settings st freshId now req st' sub,
    createSubscription lib settings st freshId now req = .ok (st', sub) ∧ sub.url = url

/-- A subscriber's post is made and answered with success. -/
def Succeeds (lib : UrlLibrary) (policy : WebhookPolicy) (d : Delivery) (e : OutboxRow)
    (sub : Subscription) : Prop :=
  Admits lib policy (d.resolver e.id sub.id) sub.url ∧ (d.client e.id sub.id).accepted = true

/-- Nothing leaves the run at this event: no lookup for one of its targets raises, the
client raises only what is caught where it is called, and the next due time is an
instant. -/
structure Deliverable (lib : UrlLibrary) (policy : WebhookPolicy) (maxAttempts base : ℕ)
    (st : OutboxStore) (d : Delivery) (e : OutboxRow) : Prop where
  lookup : ∀ sub ∈ targets st e, ¬ LookupRaises lib policy (d.resolver e.id sub.id) sub.url
  client : ∀ sub ∈ targets st e, Admits lib policy (d.resolver e.id sub.id) sub.url →
    d.client e.id sub.id ≠ .otherError
  delay : (∀ sub ∈ targets st e, Succeeds lib policy d e sub) ∨ maxAttempts ≤ e.attempts + 1 ∨
    d.now + (base * 2 ^ e.attempts : ℕ) * 1000000 ≤ datetimeMax

/-- The event is delivered, failed for good, or due again. -/
def Settles (maxAttempts base : ℕ) (now : Timestamp) (e e' : OutboxRow) : Prop :=
  e' = { e with status := .delivered, deliveredAt := some now } ∨
    maxAttempts ≤ e.attempts + 1 ∧ e' = { e with attempts := e.attempts + 1, status := .failed } ∨
    e.attempts + 1 < maxAttempts ∧ e' = { e with
      attempts := e.attempts + 1
      nextAttemptAt := now + (base * 2 ^ e.attempts : ℕ) * 1000000 }

section Isolation

variable {lib : UrlLibrary} {policy : WebhookPolicy} {maxAttempts base : ℕ}

theorem Registrable.splits {url : String} (h : Registrable lib url) (message : String) :
    lib.urlsplit url ≠ .error message := by
  intro herr
  obtain ⟨settings, st, freshId, now, req, st', sub, hcreate, rfl⟩ := h
  unfold createSubscription at hcreate
  split at hcreate
  · cases hcreate
  · cases hcreate
  · cases hcreate
  · rename_i hcheck
    dsimp only at hcreate
    split at hcreate
    · cases hcreate
    · cases hcreate
      rw [checkWebhookUrl, splitTarget, herr] at hcheck
      cases hcheck

/-- What the check at registration lets pass can be registered. -/
theorem registrable_of_check (settings : WebhookSettings) (req : SubscriptionCreateRequest)
    (h : (checkWebhookUrl lib (.fromSettings lib settings) none req.url).toOption = some ()) :
    Registrable lib req.url := by
  let sub : Subscription := ⟨⟨0⟩, req.url, req.secret, req.eventTypes, true, 0⟩
  obtain ⟨t, ht⟩ : ∃ t, (∅ : Table Subscription.id).insert sub = some t :=
    Option.isSome_iff_exists.mp (Table.insert_isSome.mpr (Table.find_empty _))
  refine ⟨settings, ⟨∅, ∅⟩, sub.id, 0, req, ⟨∅, t⟩, sub, ?_, rfl⟩
  rw [createSubscription, toOption_eq_some.mp h]
  dsimp only
  rw [ht]

variable (policy) in
/-- One post stays in the run unless its lookup raises or its client does. -/
theorem postOne_cases (resolver : Resolver) (outcome : ClientOutcome) {url : String}
    (hurl : ∀ message, lib.urlsplit url ≠ .error message) :
    (∃ r, postOne lib policy resolver outcome url = .ok r ∧
        (r.accepted = true ↔ Admits lib policy resolver url ∧ outcome.accepted = true) ∧
        ¬ LookupRaises lib policy resolver url ∧
        (Admits lib policy resolver url → outcome ≠ .otherError)) ∨
      (∃ e, postOne lib policy resolver outcome url = .error e) ∧
        (LookupRaises lib policy resolver url ∨
          Admits lib policy resolver url ∧ outcome = .otherError) := by
  unfold postOne
  rcases urlGuard_cases lib policy resolver hurl with
    ⟨hguard, hadmits⟩ | hguard | hraises
  · have hquiet : ¬ LookupRaises lib policy resolver url := by
      intro hraises
      obtain ⟨e, he⟩ := urlGuard_of_raises lib hraises
      rw [hguard] at he
      cases he
    rw [hguard]
    by_cases houtcome : outcome = .otherError
    · exact .inr ⟨⟨.client, if_pos houtcome⟩, .inr ⟨hadmits, houtcome⟩⟩
    · refine .inl ⟨.issued outcome, if_neg houtcome, ?_, hquiet, fun _ => houtcome⟩
      exact ⟨fun h => ⟨hadmits, h⟩, fun h => h.2⟩
  · have hnot : ¬ Admits lib policy resolver url := by
      intro hadmits
      rw [urlGuard_of_admits lib hadmits] at hguard
      cases hguard
    have hquiet : ¬ LookupRaises lib policy resolver url := by
      intro hraises
      obtain ⟨e, he⟩ := urlGuard_of_raises lib hraises
      rw [hguard] at he
      cases he
    rw [hguard]
    refine .inl ⟨.blocked, rfl, ?_, hquiet, fun hadmits => absurd hadmits hnot⟩
    constructor
    · intro h
      cases h
    · exact fun h => absurd h.1 hnot
  · obtain ⟨e, he⟩ := urlGuard_of_raises lib hraises
    rw [he]
    exact .inr ⟨⟨.target e, rfl⟩, .inl hraises⟩

variable {st : OutboxStore} {d : Delivery} {e : OutboxRow}

variable (policy d e) in
/-- An event's posts are all made, or one of them leaves the run. -/
theorem deliverEvent_cases (hurl : ∀ sub ∈ st.subscriptions, Registrable lib sub.url) :
    (∃ posts, deliverEvent lib policy st d e = .ok posts ∧
        ((posts.all fun p => p.2.accepted) = true ↔
          ∀ sub ∈ targets st e, Succeeds lib policy d e sub)) ∧
      (∀ sub ∈ targets st e, ¬ LookupRaises lib policy (d.resolver e.id sub.id) sub.url ∧
        (Admits lib policy (d.resolver e.id sub.id) sub.url → d.client e.id sub.id ≠ .otherError)) ∨
    (∃ err, deliverEvent lib policy st d e = .error err) ∧
      ∃ sub ∈ targets st e, LookupRaises lib policy (d.resolver e.id sub.id) sub.url ∨
        Admits lib policy (d.resolver e.id sub.id) sub.url ∧
          d.client e.id sub.id = .otherError := by
  have hpost := fun sub (hsub : sub ∈ targets st e) =>
    postOne_cases policy (d.resolver e.id sub.id) (d.client e.id sub.id)
      (hurl sub (mem_targets.mp hsub).1).splits
  cases hposts : deliverEvent lib policy st d e with
  | ok posts =>
    have hstep : ∀ sub ∈ targets st e, ∃ r, (sub, r) ∈ posts ∧
        (r.accepted = true ↔ Succeeds lib policy d e sub) ∧
        ¬ LookupRaises lib policy (d.resolver e.id sub.id) sub.url ∧
        (Admits lib policy (d.resolver e.id sub.id) sub.url →
          d.client e.id sub.id ≠ .otherError) := by
      intro sub hsub
      obtain ⟨p, hp, hpeq⟩ := exists_of_mapM_eq_ok hposts hsub
      obtain ⟨r, hr, rfl⟩ := map_eq_ok.mp hpeq
      rcases hpost sub hsub with ⟨r', hr', hrest⟩ | ⟨⟨err, herr⟩, -⟩
      · rw [hr, Except.ok.injEq] at hr'
        exact ⟨r, hp, hr' ▸ hrest⟩
      · rw [hr] at herr
        cases herr
    refine .inl ⟨⟨posts, rfl, ?_⟩, fun sub hsub => ?_⟩
    · rw [List.all_eq_true]
      constructor
      · intro hall sub hsub
        obtain ⟨r, hr, haccepted, -⟩ := hstep sub hsub
        exact haccepted.mp (hall _ hr)
      · intro hall p hp
        obtain ⟨sub, hsub, hpeq⟩ := mem_of_mapM_eq_ok hposts hp
        obtain ⟨r, hr, rfl⟩ := map_eq_ok.mp hpeq
        rcases hpost sub hsub with ⟨r', hr', haccepted, -⟩ | ⟨⟨err, herr⟩, -⟩
        · rw [hr, Except.ok.injEq] at hr'
          exact hr' ▸ haccepted.mpr (hall sub hsub)
        · rw [hr] at herr
          cases herr
    · obtain ⟨r, -, -, hquiet⟩ := hstep sub hsub
      exact hquiet
  | error err =>
    obtain ⟨sub, hsub, hfail⟩ := exists_of_mapM_eq_error hposts
    refine .inr ⟨⟨err, rfl⟩, sub, hsub, ?_⟩
    rcases hpost sub hsub with ⟨r, hr, -⟩ | ⟨-, hraises⟩
    · rw [map_eq_error, hr] at hfail
      cases hfail
    · exact hraises

/-- The attempt at an event is made exactly if nothing leaves the run there. -/
theorem attemptEvent_isOk_iff (hurl : ∀ sub ∈ st.subscriptions, Registrable lib sub.url) :
    (∃ a, attemptEvent lib policy maxAttempts base st d e = .ok a) ↔
      Deliverable lib policy maxAttempts base st d e := by
  unfold attemptEvent
  rcases deliverEvent_cases policy d e hurl with
    ⟨⟨posts, hposts, hall⟩, hquiet⟩ | ⟨⟨err, herr⟩, sub, hsub, hraises⟩
  · rw [hposts]
    have hsettle : (∃ e', settle maxAttempts base d.now e (posts.all fun p => p.2.accepted) =
        .ok e') ↔ (∀ sub ∈ targets st e, Succeeds lib policy d e sub) ∨
          maxAttempts ≤ e.attempts + 1 ∨
          d.now + (base * 2 ^ e.attempts : ℕ) * 1000000 ≤ datetimeMax := by
      rw [← hall]
      exact settle_isOk_iff
    constructor
    · rintro ⟨a, ha⟩
      obtain ⟨e', he', -⟩ := map_eq_ok.mp ha
      exact ⟨fun sub hsub => (hquiet sub hsub).1, fun sub hsub => (hquiet sub hsub).2,
        hsettle.mp ⟨e', he'⟩⟩
    · intro h
      obtain ⟨e', he'⟩ := hsettle.mpr h.delay
      exact ⟨_, map_eq_ok.mpr ⟨e', he', rfl⟩⟩
  · rw [herr]
    constructor
    · rintro ⟨a, ha⟩
      cases ha
    · intro h
      rcases hraises with hraises | ⟨hadmits, hother⟩
      · exact absurd hraises (h.lookup sub hsub)
      · exact absurd hother (h.client sub hsub hadmits)

end Isolation

/-- A run settles every event it claims, and commits, exactly if at each of them
nothing leaves the run. -/
theorem deliverPending_settles_iff (lib : UrlLibrary) (policy : WebhookPolicy)
    (maxAttempts base : ℕ) {st : OutboxStore}
    (hsubs : ∀ sub ∈ st.subscriptions, Registrable lib sub.url) (d : Delivery) :
    (∃ st' report attempts,
        deliverPending lib policy maxAttempts base st d = .ok (st', report, attempts) ∧
        ∀ e ∈ claimDue st d.now d.limit, ∃ e', st'.events.find e.id = some e' ∧
          Settles maxAttempts base d.now e e') ↔
      ∀ e ∈ claimDue st d.now d.limit, Deliverable lib policy maxAttempts base st d e := by
  constructor
  · rintro ⟨st', report, attempts, hrun, -⟩ e he
    obtain ⟨hevents, hattempt, -⟩ := deliverPending_cases hrun
    rw [← hevents] at he
    obtain ⟨a, ha, rfl⟩ := List.mem_map.mp he
    exact (attemptEvent_isOk_iff hsubs).mp ⟨a, hattempt a ha⟩
  · intro h
    obtain ⟨attempts, hattempts⟩ := exists_mapM_eq_ok fun e he =>
      (attemptEvent_isOk_iff hsubs).mpr (h e he)
    have hrun : ∃ st' report, deliverPending lib policy maxAttempts base st d =
        .ok (st', report, attempts) := by
      rw [deliverPending, hattempts]
      exact ⟨_, _, rfl⟩
    obtain ⟨st', report, hrun⟩ := hrun
    refine ⟨st', report, attempts, hrun, fun e he => ?_⟩
    obtain ⟨hevents, hattempt, -⟩ := deliverPending_cases hrun
    rw [← hevents] at he
    obtain ⟨a, ha, rfl⟩ := List.mem_map.mp he
    obtain ⟨-, -, -, hsettled⟩ := deliverPending_mem hrun ha
    refine ⟨a.settled, hsettled, ?_⟩
    rcases settle_cases (attemptEvent_cases (hattempt a ha)).2.2.2 with
      ⟨-, heq⟩ | ⟨-, hlast, heq⟩ | ⟨-, hmore, heq⟩
    · exact .inl heq
    · exact .inr (.inl ⟨hlast, heq⟩)
    · exact .inr (.inr ⟨hmore, heq⟩)

def WebhookSettings.default : WebhookSettings := ⟨"local", false, []⟩

/-- The body that registers a subscription's URL. -/
def registration (url : String) (h : 1 ≤ url.length ∧ url.length ≤ 2048)
    (hscheme : "http://".toList <+: url.toList ∨ "https://".toList <+: url.toList) :
    SubscriptionCreateRequest where
  url := url
  secret := "0123456789abcdef"
  eventTypes := []
  url_length := h
  secret_length := by decide
  url_scheme := hscheme

/-- The subscriber answers with success. -/
def clusterDelivery : Delivery where
  now := 0
  limit := 100
  resolver _ _ _ := .error .osError
  client _ _ := .response 200

/-- With an allowlisted subscriber that answers, the one event is settled. -/
theorem deliverPending_settles_cluster :
    ∃ st' report attempts,
      deliverPending .ascii clusterPolicy 8 30 clusterStore clusterDelivery =
          .ok (st', report, attempts) ∧
        ∀ e ∈ claimDue clusterStore clusterDelivery.now clusterDelivery.limit,
          ∃ e', st'.events.find e.id = some e' ∧ Settles 8 30 clusterDelivery.now e e' := by
  refine (deliverPending_settles_iff .ascii clusterPolicy 8 30 ?_ clusterDelivery).mpr ?_
  · intro sub hsub
    rw [List.mem_singleton.mp hsub]
    exact registrable_of_check .default
      (registration clusterSubscription.url (by decide) (by decide)) (by decide +kernel)
  · intro e he
    have hsplit : (splitTarget .ascii clusterSubscription.url).toOption =
        some ("media_worker", "http") := by decide +kernel
    have htarget : ∀ sub ∈ targets clusterStore e, sub = clusterSubscription :=
      fun sub hsub => List.mem_singleton.mp (mem_targets.mp hsub).1
    refine ⟨fun sub hsub => ?_, fun _ _ _ h => (by cases h), .inl fun sub hsub => ⟨?_, rfl⟩⟩
    · rw [htarget sub hsub]
      rintro ⟨host, ⟨⟨scheme, hsplit', hallow, -⟩, -⟩, -⟩
      rw [hsplit'] at hsplit
      cases hsplit
      exact hallow (by decide)
    · rw [htarget sub hsub]
      exact .inl ⟨_, _, toOption_eq_some.mp hsplit, by decide⟩

/-- A subscriber on a public host, at a port that is no number. -/
def brokenSubscription : Subscription :=
  { clusterSubscription with
    id := ⟨21⟩
    url := "http://example.com:abc/hook"
    eventTypes := ["object.ready"] }

/-- One event for the healthy subscriber alone, and one for both. -/
def brokenStore : OutboxStore :=
  ⟨⟨[{ readyEvent 1 with eventType := "variant.ready" }, readyEvent 2], by decide⟩,
    ⟨[clusterSubscription, brokenSubscription], by decide⟩⟩

/-- Names have a public address; the healthy subscriber answers, and the client
refuses the other's URL. -/
def brokenDelivery : Delivery where
  now := 0
  limit := 100
  resolver _ _ _ := .ok ["93.184.216.34"]
  client _ subscriptionId := if subscriptionId = brokenSubscription.id then .otherError
    else .response 200

/-- Both URLs are accepted, and the run settles nothing. -/
theorem not_settles_unparsable_port :
    (∀ sub ∈ brokenStore.subscriptions, Registrable .ascii sub.url) ∧
      ¬ ∃ st' report attempts,
        deliverPending .ascii clusterPolicy 8 30 brokenStore brokenDelivery =
          .ok (st', report, attempts) := by
  constructor
  · intro sub hsub
    rcases List.mem_cons.mp hsub with rfl | hsub
    · exact registrable_of_check .default
        (registration clusterSubscription.url (by decide) (by decide)) (by decide +kernel)
    · rw [List.mem_singleton.mp hsub]
      exact registrable_of_check .default
        (registration brokenSubscription.url (by decide) (by decide)) (by decide +kernel)
  · rintro ⟨st', report, attempts, hrun⟩
    have hnone : (deliverPending .ascii clusterPolicy 8 30 brokenStore
        brokenDelivery).toOption.isNone = true := by decide +kernel
    rw [hrun] at hnone
    cases hnone

/-! ### Addresses inspected and addresses used -/

/-- Where the client connects: to the literal, or to an address of its own lookup. -/
def ConnectsTo (lib : UrlLibrary) (url : String) (resolver : Resolver) (ip : IpAddress) : Prop :=
  ∃ host scheme, splitTarget lib url = .ok (host, scheme) ∧
    (IpAddress.ofString host = some ip ∨
      IpAddress.ofString host = none ∧ ∃ addrs raw, resolver host = .ok addrs ∧ raw ∈ addrs ∧
        IpAddress.ofString (withoutScope raw) = some ip)

section Rebinding

variable {lib : UrlLibrary} {policy : WebhookPolicy} {url : String}

/-- The guard answers `True` for the targets it admits, and for no others. -/
theorem urlGuard_iff {resolver : Resolver} :
    urlGuard lib policy resolver url = .ok true ↔ Admits lib policy resolver url := by
  refine ⟨fun hguard => ?_, urlGuard_of_admits lib⟩
  have hurl : ∀ message, lib.urlsplit url ≠ .error message := by
    intro message hm
    rw [urlGuard, checkWebhookUrl, splitTarget, hm] at hguard
    cases hguard
  rcases urlGuard_cases lib policy resolver hurl with
    ⟨-, hadmits⟩ | hfalse | hraises
  · exact hadmits
  · rw [hguard] at hfalse
    cases hfalse
  · obtain ⟨e, he⟩ := urlGuard_of_raises lib hraises
    rw [hguard] at he
    cases he

theorem admits_of_issued {resolver : Resolver} {outcome outcome' : ClientOutcome}
    (h : postOne lib policy resolver outcome url = .ok (.issued outcome')) :
    Admits lib policy resolver url := by
  refine urlGuard_iff.mp ?_
  unfold postOne at h
  split at h
  · cases h
  · cases h
  · assumption

theorem Gated.host_eq {host host' scheme : String} (h : Gated lib policy url host)
    (hsplit : splitTarget lib url = .ok (host', scheme)) : host = host' := by
  obtain ⟨scheme', hsplit', -⟩ := h
  rw [hsplit] at hsplit'
  cases hsplit'
  rfl

/-- Off the allowlist an admitted target is a permitted literal or a name inspected. -/
theorem connects_of_admits {resolver resolver' : Resolver} (h : Admits lib policy resolver url)
    (hoff : ∀ host scheme, splitTarget lib url = .ok (host, scheme) →
      lib.lower host ∉ policy.allowedInternalHosts)
    {ip : IpAddress} (hip : ConnectsTo lib url resolver' ip) : Permits policy ip ∨
      ∃ host addrs addrs' raw, LooksUp lib policy url host ∧ resolver host = .ok addrs ∧
        (∀ raw ∈ addrs, PermitsText policy raw) ∧ resolver' host = .ok addrs' ∧ raw ∈ addrs' ∧
        IpAddress.ofString (withoutScope raw) = some ip := by
  obtain ⟨host, scheme, hsplit, hip⟩ := hip
  rcases h with ⟨host', scheme', hsplit', hallow⟩ | ⟨host', ip', hgated, hip', hpermits⟩ |
    ⟨host', addrs, ⟨hgated, hname⟩, hanswer, -, hall⟩
  · exact absurd hallow (hoff host' scheme' hsplit')
  · obtain rfl := hgated.host_eq hsplit
    rcases hip with hip | ⟨hname, -⟩
    · rw [hip, Option.some.injEq] at hip'
      exact .inl (hip' ▸ hpermits)
    · rw [hname] at hip'
      cases hip'
  · obtain rfl := hgated.host_eq hsplit
    rcases hip with hip | ⟨-, addrs', raw, hanswer', hraw, hip⟩
    · rw [hip] at hname
      cases hname
    · exact .inr ⟨host', addrs, addrs', raw, ⟨hgated, hname⟩, hanswer, hall, hanswer', hraw, hip⟩

/-- Off the allowlist an admitted target connects to permitted addresses only, as long as
the lookup answers as it did. -/
theorem permits_of_admits {resolver : Resolver} (h : Admits lib policy resolver url)
    (hoff : ∀ host scheme, splitTarget lib url = .ok (host, scheme) →
      lib.lower host ∉ policy.allowedInternalHosts)
    {ip : IpAddress} (hip : ConnectsTo lib url resolver ip) : Permits policy ip := by
  rcases connects_of_admits h hoff hip with hpermits |
    ⟨host, addrs, addrs', raw, -, hanswer, hall, hanswer', hraw, hip⟩
  · exact hpermits
  · rw [hanswer, Except.ok.injEq] at hanswer'
    obtain ⟨ip', hip', hpermits⟩ := hall raw (hanswer' ▸ hraw)
    rw [hip, Option.some.injEq] at hip'
    exact hip' ▸ hpermits

/-- A public address is permitted everywhere, and the loopback address nowhere. -/
theorem permits_samples (policy : WebhookPolicy) :
    PermitsText policy "93.184.216.34" ∧
      IpAddress.ofString (withoutScope "127.0.0.1") = some (.v4 0x7f000001) ∧
      ¬ Permits policy (.v4 0x7f000001) := by
  refine ⟨⟨.v4 0x5db8d822, by decide +kernel, by decide +kernel, fun _ => by decide +kernel⟩,
    by decide +kernel, fun h => ?_⟩
  have hblocked : isAlwaysBlocked (.v4 0x7f000001) = true := by decide +kernel
  rw [Permits, hblocked] at h
  cases h.1

end Rebinding

/-- A target off the allowlist only ever receives requests at permitted addresses,
whatever the lookups answer, exactly if its name is never looked up; and it does as
long as the client's lookup answers as the guard's did. -/
theorem posts_permitted_iff (lib : UrlLibrary) (policy : WebhookPolicy) (url : String)
    (hhost : ∀ host scheme, splitTarget lib url = .ok (host, scheme) →
      lib.lower host ∉ policy.allowedInternalHosts) :
    ((∀ (answers : ℕ → Resolver) (outcome outcome' : ClientOutcome) (ip : IpAddress),
        postOne lib policy (answers 0) outcome url = .ok (.issued outcome') →
        ConnectsTo lib url (answers 1) ip → Permits policy ip) ↔
      ∀ host, ¬ LooksUp lib policy url host) ∧
      ∀ (answers : ℕ → Resolver) (outcome outcome' : ClientOutcome) (ip : IpAddress),
        answers 1 = answers 0 →
        postOne lib policy (answers 0) outcome url = .ok (.issued outcome') →
        ConnectsTo lib url (answers 1) ip → Permits policy ip := by
  refine ⟨⟨fun h host hlooks => ?_, fun hnone answers outcome outcome' ip hpost hconnect => ?_⟩,
    fun answers outcome outcome' ip hstable hpost hconnect => ?_⟩
  · -- the guard hears of a public address, the client of the loopback one
    obtain ⟨hpublic, hparse, hloopback⟩ := permits_samples policy
    let answers : ℕ → Resolver := fun n _ => .ok [if n = 0 then "93.184.216.34" else "127.0.0.1"]
    have hadmits : Admits lib policy (answers 0) url :=
      .inr (.inr ⟨host, ["93.184.216.34"], hlooks, rfl, by simp,
        fun raw hraw => (List.mem_singleton.mp hraw) ▸ hpublic⟩)
    obtain ⟨⟨scheme, hsplit, -⟩, hname⟩ := id hlooks
    refine hloopback (h answers (.response 200) (.response 200) _ ?_
      ⟨host, scheme, hsplit, .inr ⟨hname, ["127.0.0.1"], "127.0.0.1", rfl, by simp, hparse⟩⟩)
    rw [postOne, urlGuard_of_admits lib hadmits]
    rfl
  · rcases connects_of_admits (admits_of_issued hpost) hhost hconnect with
      hpermits | ⟨host, -, -, -, hlooks, -⟩
    · exact hpermits
    · exact absurd hlooks (hnone host)
  · exact permits_of_admits (admits_of_issued hpost) hhost (hstable ▸ hconnect)

/-- A name in production, off the allowlist. -/
def hookUrl : String := "https://hooks.example.com/"

def strictPolicy : WebhookPolicy := ⟨true, []⟩

/-- The name has one public address. -/
def publicAnswer : Resolver := fun _ => .ok ["93.184.216.34"]

/-- A name that keeps its address is posted to there. -/
theorem posts_permitted_stable : Permits strictPolicy (.v4 0x5db8d822) := by
  have hsplit : (splitTarget .ascii hookUrl).toOption = some ("hooks.example.com", "https") := by
    decide +kernel
  have hissued : (postOne .ascii strictPolicy publicAnswer (.response 200) hookUrl).toOption =
      some (.issued (.response 200)) := by decide +kernel
  exact (posts_permitted_iff .ascii strictPolicy hookUrl fun _ _ _ => List.not_mem_nil).2
    (fun _ => publicAnswer) (.response 200) (.response 200) _ rfl (toOption_eq_some.mp hissued)
    ⟨_, _, toOption_eq_some.mp hsplit, .inr ⟨by decide +kernel, _, "93.184.216.34", rfl,
      List.mem_singleton.mpr rfl, by decide +kernel⟩⟩

/-- The second lookup answers with the metadata endpoint. -/
def rebinding : ℕ → Resolver
  | 0 => publicAnswer
  | _ => fun _ => .ok ["169.254.169.254"]

/-- The guard lets the request pass, and it goes to the metadata endpoint. -/
theorem not_posts_permitted_rebinding :
    (∀ host scheme, splitTarget .ascii hookUrl = .ok (host, scheme) →
        UrlLibrary.ascii.lower host ∉ strictPolicy.allowedInternalHosts) ∧
      postOne .ascii strictPolicy (rebinding 0) (.response 200) hookUrl =
        .ok (.issued (.response 200)) ∧
      ConnectsTo .ascii hookUrl (rebinding 1) (.v4 0xa9fea9fe) ∧
      ¬ Permits strictPolicy (.v4 0xa9fea9fe) := by
  have hsplit : (splitTarget .ascii hookUrl).toOption = some ("hooks.example.com", "https") := by
    decide +kernel
  have hissued : (postOne .ascii strictPolicy publicAnswer (.response 200) hookUrl).toOption =
      some (.issued (.response 200)) := by decide +kernel
  refine ⟨fun _ _ _ h => absurd h List.not_mem_nil, toOption_eq_some.mp hissued, ?_,
    by decide +kernel⟩
  exact ⟨_, _, toOption_eq_some.mp hsplit, .inr ⟨by decide +kernel, _, "169.254.169.254", rfl,
    List.mem_singleton.mpr rfl, by decide +kernel⟩⟩

end MediaService
