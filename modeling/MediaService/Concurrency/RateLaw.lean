import MediaService.Core.RateLimit
import MediaService.Foundation.Interleaving

/-! The counters of the rate limits under interleaved requests. The request that starts
a counter is the only one that sets its time, and none repairs what it leaves undone: a
key whose time was not set then never expires. So counters expire, and a caller who was
quiet for a window is let through again, exactly if every command that starts a counter
is answered when it was carried out and the time is set after that. -/

namespace MediaService

open Foundation

variable {ι : Type*} [DecidableEq ι] {cfg : RateLimitConfig} {requests : ι → LimitedRequest}

/-! ### Many requests -/

abbrev LimitRace (ι : Type*) := Parties ι LimitState LimitPlace

abbrev limitTurn (cfg : RateLimitConfig) (requests : ι → LimitedRequest) :
    LimitRace ι → ι × LimitTurn → LimitRace ι :=
  turn fun i s place m => limitStep ((requests i).call cfg) s place m

/-- An empty store, and requests that are still to come. -/
def limitStart (cfg : RateLimitConfig) (requests : ι → LimitedRequest) (now : Timestamp) :
    LimitRace ι :=
  ⟨⟨.empty now, fun _ => none⟩, fun i => ((requests i).call cfg).start⟩

def LimitCall.uses (call : LimitCall) (key : String) : Prop := ∃ w ∈ call.windows, w.key = key

/-- The request is about to set the time of the key. -/
def LimitPlace.sets (key : String) : LimitPlace → Prop
  | .expire w _ => w.key = key
  | _ => False

/-- The request is over, or not there yet. -/
def LimitPlace.quiet (call : LimitCall) : LimitPlace → Prop
  | .answered _ | .crashed => True
  | place => place = call.start

/-- Nobody is using the key or has used it for a full window of any request that does. -/
def Idle (cfg : RateLimitConfig) (requests : ι → LimitedRequest) (s : LimitRace ι)
    (key : String) : Prop :=
  ∀ j, ((requests j).call cfg).uses key → (s.place j).quiet ((requests j).call cfg) ∧
    ∀ t, s.shared.touched key = some t →
      t + seconds ((requests j).call cfg).windowSeconds ≤ s.shared.store.now

/-- Every counter has a time at which it expires, or a request that is about to set it;
and a request whose keys have been idle for a full window is let through. -/
structure CountersExpire (cfg : RateLimitConfig) (requests : ι → LimitedRequest)
    (s : LimitRace ι) : Prop where
  expires : ∀ key c, s.shared.store.get key = some c →
    c.expiresAt ≠ none ∨ ∃ i, (s.place i).sets key
  readmits : ∀ i, 1 ≤ (requests i).limiter.limit →
    (∀ key, ((requests i).call cfg).uses key → Idle cfg requests s key) →
    (checkWindows s.shared.store ((requests i).call cfg).windowSeconds
      ((requests i).call cfg).windows).2 = none

/-- A command that starts a counter is answered if it is carried out, and one that sets
the time of a counter is carried out. -/
def SetsTime (s : LimitRace ι) (m : ι × LimitTurn) : Prop :=
  match s.place m.1 with
  | .incr w _ => (s.shared.store.tick m.2.elapsed).get w.key = none →
      m.2.fate.executed = true → m.2.fate = .replies
  | .expire _ _ => m.2.fate.executed = true
  | _ => True

/-! ### What every turn keeps -/

/-- Windows of the call that are still to check. -/
def LimitPlace.of (call : LimitCall) : LimitPlace → Prop
  | .incr w rest | .expire w rest => w :: rest <:+ call.windows
  | _ => True

structure LimitInv (cfg : RateLimitConfig) (requests : ι → LimitedRequest) (s : LimitRace ι) :
    Prop where
  of_call : ∀ i, (s.place i).of ((requests i).call cfg)
  positive : ∀ key c, s.shared.store.get key = some c → 1 ≤ c.count
  /-- A time is at most a window away from the last use of the key. -/
  bound : ∀ key c t, s.shared.store.get key = some c → c.expiresAt = some t →
    ∃ used i, s.shared.touched key = some used ∧ ((requests i).call cfg).uses key ∧
      t ≤ used + seconds ((requests i).call cfg).windowSeconds
  touched_le : ∀ key (t : ℤ), s.shared.touched key = some t → t ≤ s.shared.store.now
  /-- The counter a request is about to set the time of has none. -/
  pending : ∀ i key, (s.place i).sets key →
    ∃ c, s.shared.store.get key = some c ∧ c.expiresAt = none
  unique : ∀ i j key, (s.place i).sets key → (s.place j).sets key → i = j

omit [DecidableEq ι] in
theorem limitInv_start (cfg : RateLimitConfig) (requests : ι → LimitedRequest) (now : Timestamp) :
    LimitInv cfg requests (limitStart cfg requests now) := by
  have hplace : ∀ i, ∃ w rest, (limitStart cfg requests now).place i = .incr w rest ∧
      ((requests i).call cfg).windows = w :: rest := by
    intro i
    have hne : ((requests i).call cfg).windows ≠ [] := by
      cases requests i <;> simp [LimitedRequest.call, RateLimiter.apply, RateLimiter.applyAnon]
    obtain ⟨w, rest, hw⟩ := List.exists_cons_of_ne_nil hne
    exact ⟨w, rest, by simp only [limitStart, LimitCall.start, hw, LimitPlace.next], hw⟩
  have hsets : ∀ i key, ¬ ((limitStart cfg requests now).place i).sets key := by
    intro i key
    obtain ⟨w, rest, h, -⟩ := hplace i
    rw [h]
    exact id
  refine ⟨fun i => ?_, fun key c h => ?_, fun key c t h => ?_, fun key t h => ?_,
    fun i key h => absurd h (hsets i key), fun i j key h => absurd h (hsets i key)⟩
  · obtain ⟨w, rest, h, hw⟩ := hplace i
    rw [h, LimitPlace.of, hw]
  · cases h
  · cases h
  · cases h

theorem uses_of_suffix {call : LimitCall} {w : RateWindow} {rest : List RateWindow}
    (h : w :: rest <:+ call.windows) : call.uses w.key :=
  ⟨w, h.subset List.mem_cons_self, rfl⟩

/-- What a turn does: it counts a window, or sets a time, or neither. -/
inductive LimitEffect (call : LimitCall) (s : LimitState) (m : LimitTurn) :
    LimitPlace → LimitState × LimitPlace → Prop
  | counts {w rest place} : m.fate.executed = true →
      place = call.resume m.fate (if ((s.store.tick m.elapsed).counted w.key).count = 1 then
        .expire w rest
        else call.judge ((s.store.tick m.elapsed).counted w.key).count w rest) →
      LimitEffect call s m (.incr w rest)
        (s.touch w.key ((s.store.tick m.elapsed).incr w.key).1, place)
  | sets {w rest} : m.fate.executed = true → LimitEffect call s m (.expire w rest)
      (s.touch w.key ((s.store.tick m.elapsed).expire w.key (seconds call.windowSeconds)),
        call.resume m.fate (call.judge 1 w rest))
  | misses {w rest place' place} : place' = .incr w rest ∨ place' = .expire w rest →
      m.fate.executed = false → (place = .crashed ∨ ∃ refusal, place = .answered refusal) →
      LimitEffect call s m place' (s.touch w.key (s.store.tick m.elapsed), place)
  | rests {place} : place = .crashed ∨ (∃ refusal, place = .answered refusal) →
      LimitEffect call s m place ({ s with store := s.store.tick m.elapsed }, place)

theorem limitEffect (call : LimitCall) (s : LimitState) (place : LimitPlace) (m : LimitTurn) :
    LimitEffect call s m place (limitStep call s place m) := by
  have hover : ∀ place', m.fate.executed = false →
      call.resume m.fate place' = .crashed ∨
        ∃ refusal, call.resume m.fate place' = .answered refusal := by
    intro place' h
    cases hfate : m.fate with
    | replies =>
      rw [hfate] at h
      cases h
    | fails executed => exact .inr ⟨_, rfl⟩
    | crashes executed => exact .inl rfl
  cases place with
  | incr w rest =>
    unfold limitStep
    dsimp only
    cases hexec : m.fate.executed with
    | true => exact .counts hexec rfl
    | false => exact .misses (.inl rfl) hexec (hover _ hexec)
  | expire w rest =>
    unfold limitStep
    dsimp only
    cases hexec : m.fate.executed with
    | true => exact .sets hexec
    | false => exact .misses (.inr rfl) hexec (hover _ hexec)
  | answered refusal => exact .rests (.inr ⟨refusal, rfl⟩)
  | crashed => exact .rests (.inl rfl)

theorem not_sets_next (key : String) (windows : List RateWindow) :
    ¬ (LimitPlace.next windows).sets key := by
  cases windows <;> exact id

theorem not_sets_judge (call : LimitCall) (key : String) (count : ℕ) (w : RateWindow)
    (rest : List RateWindow) : ¬ (call.judge count w rest).sets key := by
  unfold LimitCall.judge
  split
  · exact id
  · exact not_sets_next key rest

theorem not_sets_over {place : LimitPlace} {key : String}
    (h : place = .crashed ∨ ∃ refusal, place = .answered refusal) : ¬ place.sets key := by
  rcases h with rfl | ⟨refusal, rfl⟩ <;> exact id

theorem not_sets_resume {call : LimitCall} {place : LimitPlace}
    (h : ∀ key, ¬ place.sets key) (fate : CommandFate) (key : String) :
    ¬ (call.resume fate place).sets key := by
  cases fate with
  | replies => exact h key
  | fails executed => exact id
  | crashes executed => exact id

theorem of_over {call : LimitCall} {place : LimitPlace}
    (h : place = .crashed ∨ ∃ refusal, place = .answered refusal) : place.of call := by
  rcases h with rfl | ⟨refusal, rfl⟩ <;> trivial

theorem of_judge {call : LimitCall} {w : RateWindow} {rest : List RateWindow}
    (h : w :: rest <:+ call.windows) (count : ℕ) : (call.judge count w rest).of call := by
  unfold LimitCall.judge
  split
  · trivial
  · cases rest with
    | nil => trivial
    | cons w' rest => exact (List.suffix_cons w (w' :: rest)).trans h

theorem of_resume {call : LimitCall} {place : LimitPlace} (h : place.of call)
    (fate : CommandFate) : (call.resume fate place).of call := by
  cases fate with
  | replies => exact h
  | fails executed => trivial
  | crashes executed => trivial

/-- A request sets a time next only where its own command has just started the counter. -/
theorem sets_of_counts {call : LimitCall} {fate : CommandFate} {key : String} {c : Counter}
    {w : RateWindow} {rest : List RateWindow}
    (h : (call.resume fate (if c.count = 1 then .expire w rest
      else call.judge c.count w rest)).sets key) :
    fate = .replies ∧ c.count = 1 ∧ key = w.key := by
  cases fate with
  | replies =>
    unfold LimitCall.resume at h
    split_ifs at h with hone
    · exact ⟨rfl, hone, h.symm⟩
    · exact absurd h (not_sets_judge call key c.count w rest)
  | fails executed => exact h.elim
  | crashes executed => exact h.elim

section Turn

variable {s : LimitRace ι}

omit [DecidableEq ι] in
theorem LimitInv.counted_one_iff (h : LimitInv cfg requests s) (elapsed : ℕ) (key : String) :
    ((s.shared.store.tick elapsed).counted key).count = 1 ↔
      (s.shared.store.tick elapsed).get key = none := by
  cases hget : (s.shared.store.tick elapsed).get key with
  | none => simp [Counters.counted_of_none hget]
  | some c =>
    have := h.positive key c (Counters.get_of_get_tick hget)
    rw [Counters.counted_of_some hget]
    simp only [reduceCtorEq, iff_false]
    omega

omit [DecidableEq ι] in
/-- Nobody else is about to set the time of a key that is not there. -/
theorem LimitInv.not_sets_of_none (h : LimitInv cfg requests s) {elapsed : ℕ} {key : String}
    (hnone : (s.shared.store.tick elapsed).get key = none) (j : ι) : ¬ (s.place j).sets key := by
  intro hsets
  obtain ⟨c, hget, hc⟩ := h.pending j key hsets
  rw [Counters.get_tick_of_eternal hget hc] at hnone
  cases hnone

/-- A turn that uses one key keeps what holds of the counters, if it does so for that
key and for the party whose turn it is. -/
theorem LimitInv.touch (h : LimitInv cfg requests s) {i : ι} {key : String} {elapsed : ℕ}
    {store : Counters String} {place : LimitPlace} (hnow : store.now = s.shared.store.now + elapsed)
    (huses : ((requests i).call cfg).uses key) (hof : place.of ((requests i).call cfg))
    (hother : ∀ k ≠ key, store.get k = (s.shared.store.tick elapsed).get k)
    (hkey : ∀ c, store.get key = some c → 1 ≤ c.count ∧ ∀ t, c.expiresAt = some t →
      t ≤ store.now + seconds ((requests i).call cfg).windowSeconds ∨
        ∃ c', s.shared.store.get key = some c' ∧ c'.expiresAt = some t)
    (hpending : ∀ j ≠ i, (s.place j).sets key → ∃ c, store.get key = some c ∧ c.expiresAt = none)
    (hown : ∀ k, place.sets k → k = key ∧ (∀ j, ¬ (s.place j).sets key) ∧
      ∃ c, store.get key = some c ∧ c.expiresAt = none) :
    LimitInv cfg requests ⟨s.shared.touch key store, Function.update s.place i place⟩ := by
  have hplace : ∀ j ≠ i, Function.update s.place i place j = s.place j := fun j hj =>
    Function.update_of_ne hj _ _
  have hself : Function.update s.place i place i = place := Function.update_self ..
  have htouched : ∀ k ≠ key, (s.shared.touch key store).touched k = s.shared.touched k :=
    fun k hk => Function.update_of_ne hk _ _
  have hused : (s.shared.touch key store).touched key = some store.now := Function.update_self ..
  refine ⟨fun j => ?_, fun k c hc => ?_, fun k c t hc ht => ?_, fun k t ht => ?_,
    fun j k hj => ?_, fun j j' k hj hj' => ?_⟩
  · change (Function.update s.place i place j).of _
    by_cases hj : j = i
    · rw [hj, hself]
      exact hof
    · rw [hplace j hj]
      exact h.of_call j
  · by_cases hk : k = key
    · subst hk
      exact (hkey c hc).1
    · exact h.positive k c (Counters.get_of_get_tick ((hother k hk).symm.trans hc))
  · by_cases hk : k = key
    · subst hk
      refine ⟨store.now, ?_⟩
      rcases (hkey c hc).2 t ht with hle | ⟨c', hc', ht'⟩
      · exact ⟨i, hused, huses, hle⟩
      · obtain ⟨used, j, hu, hj, hle⟩ := h.bound k c' t hc' ht'
        have := h.touched_le k used hu
        exact ⟨j, hused, hj, by omega⟩
    · obtain ⟨used, j, hu, hj, hle⟩ :=
        h.bound k c t (Counters.get_of_get_tick ((hother k hk).symm.trans hc)) ht
      exact ⟨used, j, (htouched k hk).trans hu, hj, hle⟩
  · change t ≤ store.now
    by_cases hk : k = key
    · subst hk
      rw [hused] at ht
      exact (Option.some.inj ht).ge
    · have := h.touched_le k t ((htouched k hk).symm.trans ht)
      omega
  · change (Function.update s.place i place j).sets k at hj
    by_cases hj' : j = i
    · rw [hj', hself] at hj
      obtain ⟨rfl, -, hc⟩ := hown k hj
      exact hc
    · rw [hplace j hj'] at hj
      by_cases hk : k = key
      · subst hk
        exact hpending j hj' hj
      · obtain ⟨c, hc, hnone⟩ := h.pending j k hj
        exact ⟨c, (hother k hk).trans (Counters.get_tick_of_eternal hc hnone elapsed), hnone⟩
  · change (Function.update s.place i place j).sets k at hj
    change (Function.update s.place i place j').sets k at hj'
    by_cases hji : j = i
    · by_cases hji' : j' = i
      · rw [hji, hji']
      · rw [hji, hself] at hj
        rw [hplace j' hji'] at hj'
        obtain ⟨rfl, hno, -⟩ := hown k hj
        exact absurd hj' (hno j')
    · rw [hplace j hji] at hj
      by_cases hji' : j' = i
      · rw [hji', hself] at hj'
        obtain ⟨rfl, hno, -⟩ := hown k hj'
        exact absurd hj (hno j)
      · rw [hplace j' hji'] at hj'
        exact h.unique j j' k hj hj'

omit [DecidableEq ι] in
/-- Time that passes keeps it, too. -/
theorem LimitInv.tick (h : LimitInv cfg requests s) (elapsed : ℕ) :
    LimitInv cfg requests
      ⟨{ s.shared with store := s.shared.store.tick elapsed }, s.place⟩ where
  of_call := h.of_call
  positive key c hc := h.positive key c (Counters.get_of_get_tick hc)
  bound key c t hc := h.bound key c t (Counters.get_of_get_tick hc)
  touched_le key t ht := by
    have := h.touched_le key t ht
    change t ≤ s.shared.store.now + elapsed
    omega
  pending i key hi := by
    obtain ⟨c, hc, hnone⟩ := h.pending i key hi
    exact ⟨c, Counters.get_tick_of_eternal hc hnone elapsed, hnone⟩
  unique := h.unique

/-- What a turn does to the store and to the place of its party. -/
theorem limitTurn_effect (cfg : RateLimitConfig) (requests : ι → LimitedRequest) (s : LimitRace ι)
    (i : ι) (m : LimitTurn) :
    ∃ r, LimitEffect ((requests i).call cfg) s.shared m (s.place i) r ∧
      limitTurn cfg requests s (i, m) = ⟨r.1, Function.update s.place i r.2⟩ :=
  ⟨_, limitEffect _ _ _ _, rfl⟩

theorem LimitInv.turn (h : LimitInv cfg requests s) (m : ι × LimitTurn) :
    LimitInv cfg requests (limitTurn cfg requests s m) := by
  obtain ⟨i, m⟩ := m
  obtain ⟨r, heffect, hturn⟩ := limitTurn_effect cfg requests s i m
  rw [hturn]
  have hof := h.of_call i
  generalize hplace : s.place i = place at heffect hof
  cases heffect with
  | @counts w rest place' hexec hplace' =>
    have hsuffix : w :: rest <:+ _ := hof
    refine h.touch rfl (uses_of_suffix hsuffix) ?_
      (fun k hk => Counters.get_incr_ne hk) (fun c hc => ?_) (fun j hj hsets => ?_)
      (fun k hk => ?_)
    · rw [hplace']
      refine of_resume ?_ m.fate
      split_ifs
      · exact hsuffix
      · exact of_judge hsuffix _
    · rw [Counters.get_incr_self, Option.some.injEq] at hc
      subst hc
      cases hget : (s.shared.store.tick m.elapsed).get w.key with
      | none =>
        rw [Counters.counted_of_none hget]
        exact ⟨le_rfl, nofun⟩
      | some c =>
        rw [Counters.counted_of_some hget]
        exact ⟨Nat.succ_le_succ (Nat.zero_le _), fun t ht =>
          .inr ⟨c, Counters.get_of_get_tick hget, ht⟩⟩
    · obtain ⟨c, hc, hnone⟩ := h.pending j w.key hsets
      have hget := Counters.get_tick_of_eternal hc hnone m.elapsed
      refine ⟨_, Counters.get_incr_self _ _, ?_⟩
      rw [Counters.counted_of_some hget]
      exact hnone
    · rw [hplace'] at hk
      obtain ⟨-, hone, rfl⟩ := sets_of_counts hk
      have hnone := (h.counted_one_iff m.elapsed w.key).mp hone
      refine ⟨rfl, h.not_sets_of_none hnone, _, Counters.get_incr_self _ _, ?_⟩
      rw [Counters.counted_of_none hnone]
  | @sets w rest hexec =>
    have hsuffix : w :: rest <:+ _ := hof
    have hself : (s.place i).sets w.key := by
      rw [hplace]
      rfl
    refine h.touch (Counters.now_expire _ _ _) (uses_of_suffix hsuffix)
      (of_resume (of_judge hsuffix 1) m.fate)
      (fun k hk => Counters.get_expire_ne hk _) (fun c hc => ?_) (fun j hj hsets => ?_)
      (fun k hk => ?_)
    · obtain ⟨ht, c', hc', hcount⟩ := Counters.of_get_expire hc
      refine ⟨hcount ▸ h.positive w.key c' (Counters.get_of_get_tick hc'), fun t ht' => .inl ?_⟩
      rw [ht, Option.some.injEq] at ht'
      rw [Counters.now_expire]
      exact ht'.ge
    · exact absurd (h.unique j i w.key hsets hself) hj
    · exact absurd hk (not_sets_resume (fun k => not_sets_judge _ k _ _ _) m.fate k)
  | @misses w rest place' place hplace' hexec hover =>
    have hsuffix : w :: rest <:+ ((requests i).call cfg).windows := by
      rcases hplace' with rfl | rfl <;> exact hof
    refine h.touch rfl (uses_of_suffix hsuffix) (of_over hover) (fun k hk => rfl)
      (fun c hc => ?_) (fun j hj hsets => ?_) (fun k hk => absurd hk (not_sets_over hover))
    · have hget := Counters.get_of_get_tick hc
      exact ⟨h.positive w.key c hget, fun t ht => .inr ⟨c, hget, ht⟩⟩
    · obtain ⟨c, hc, hnone⟩ := h.pending j w.key hsets
      exact ⟨c, Counters.get_tick_of_eternal hc hnone _, hnone⟩
  | rests hover =>
    rw [← hplace, Function.update_eq_self]
    exact h.tick m.elapsed

/-! ### Counters that expire -/

def Expires (s : LimitRace ι) : Prop :=
  ∀ key c, s.shared.store.get key = some c → c.expiresAt ≠ none ∨ ∃ i, (s.place i).sets key

/-- A turn that uses one key can leave that key alone without a time. -/
theorem expires_touch_iff (hs : Expires s) {i : ι} {key : String} {elapsed : ℕ}
    {store : Counters String} {place : LimitPlace}
    (hother : ∀ k ≠ key, store.get k = (s.shared.store.tick elapsed).get k)
    (hbefore : ∀ k, (s.place i).sets k → k = key) (hafter : ∀ k, place.sets k → k = key) :
    Expires ⟨s.shared.touch key store, Function.update s.place i place⟩ ↔
      ∀ c, store.get key = some c →
        c.expiresAt ≠ none ∨ place.sets key ∨ ∃ j ≠ i, (s.place j).sets key := by
  have hplace : ∀ k, (∃ j, (Function.update s.place i place j).sets k) ↔
      place.sets k ∨ ∃ j ≠ i, (s.place j).sets k := by
    intro k
    constructor
    · rintro ⟨j, hj⟩
      by_cases hji : j = i
      · rw [hji, Function.update_self] at hj
        exact .inl hj
      · rw [Function.update_of_ne hji] at hj
        exact .inr ⟨j, hji, hj⟩
    · rintro (hk | ⟨j, hji, hj⟩)
      · exact ⟨i, by rwa [Function.update_self]⟩
      · exact ⟨j, by rwa [Function.update_of_ne hji]⟩
  constructor
  · intro h c hc
    rw [← hplace]
    exact h key c hc
  · intro h k c hc
    change c.expiresAt ≠ none ∨ ∃ j, (Function.update s.place i place j).sets k
    rw [hplace]
    by_cases hk : k = key
    · subst hk
      exact h c hc
    · rcases hs k c (Counters.get_of_get_tick ((hother k hk).symm.trans hc)) with hne | ⟨j, hj⟩
      · exact .inl hne
      · exact .inr (.inr ⟨j, fun hji => hk (hbefore k (hji ▸ hj)), hj⟩)

theorem expires_turn_iff (h : LimitInv cfg requests s) (hs : Expires s) (m : ι × LimitTurn) :
    Expires (limitTurn cfg requests s m) ↔ SetsTime s m := by
  obtain ⟨i, m⟩ := m
  obtain ⟨r, heffect, hturn⟩ := limitTurn_effect cfg requests s i m
  rw [hturn, SetsTime]
  dsimp only
  generalize hplace : s.place i = place at heffect
  have hbefore : ∀ k, (s.place i).sets k → place.sets k := fun k hk => hplace ▸ hk
  cases heffect with
  | @counts w rest place' hexec hplace' =>
    dsimp only
    rw [expires_touch_iff hs (fun k hk => Counters.get_incr_ne hk)
      (fun k hk => (hbefore k hk).elim) (fun k hk => (sets_of_counts (hplace' ▸ hk)).2.2)]
    simp only [Counters.get_incr_self, Option.some.injEq, forall_eq']
    cases hget : (s.shared.store.tick m.elapsed).get w.key with
    | none =>
      -- Only the request itself can be about to set the time of what it has just started.
      have hone : ((s.shared.store.tick m.elapsed).counted w.key).count = 1 :=
        (h.counted_one_iff m.elapsed w.key).mpr hget
      rw [Counters.counted_of_none hget]
      have hothers : ¬ ∃ j ≠ i, (s.place j).sets w.key := fun ⟨j, _, hj⟩ =>
        h.not_sets_of_none hget j hj
      have hown : place'.sets w.key ↔ m.fate = .replies := by
        rw [hplace']
        constructor
        · exact fun hk => (sets_of_counts hk).1
        · intro hfate
          rw [hfate, if_pos hone]
          rfl
      simp [hothers, hown, hexec]
    | some c =>
      rw [Counters.counted_of_some hget]
      simp only [reduceCtorEq, false_implies, iff_true]
      rcases hs w.key c (Counters.get_of_get_tick hget) with hne | ⟨j, hj⟩
      · exact .inl hne
      · exact .inr (.inr ⟨j, fun hji => hbefore w.key (hji ▸ hj), hj⟩)
  | @sets w rest hexec =>
    rw [expires_touch_iff hs (fun k hk => Counters.get_expire_ne hk _)
      (fun k hk => (hbefore k hk).symm)
      (fun k hk => absurd hk (not_sets_resume (fun k => not_sets_judge _ k _ _ _) m.fate k))]
    simp only [hexec, iff_true]
    intro c hc
    rw [(Counters.of_get_expire hc).1]
    exact .inl (Option.some_ne_none _)
  | @misses w rest place' place hplace' hexec hover =>
    rcases hplace' with rfl | rfl
    · rw [expires_touch_iff hs (fun k hk => rfl) (fun k hk => (hbefore k hk).elim)
        (fun k hk => absurd hk (not_sets_over hover))]
      simp only [hexec, Bool.false_eq_true, false_implies, implies_true, iff_true]
      intro c hc
      rcases hs w.key c (Counters.get_of_get_tick hc) with hne | ⟨j, hj⟩
      · exact .inl hne
      · exact .inr (.inr ⟨j, fun hji => hbefore w.key (hji ▸ hj), hj⟩)
    · rw [expires_touch_iff hs (fun k hk => rfl) (fun k hk => (hbefore k hk).symm)
        (fun k hk => absurd hk (not_sets_over hover))]
      simp only [hexec, Bool.false_eq_true, iff_false]
      have hself : (s.place i).sets w.key := by
        rw [hplace]
        rfl
      obtain ⟨c, hc, hnone⟩ := h.pending i w.key hself
      intro hall
      rcases hall c (Counters.get_tick_of_eternal hc hnone _) with hne | hsets | ⟨j, hj, hsets⟩
      · exact hne hnone
      · exact not_sets_over hover hsets
      · exact hj (h.unique j i w.key hsets hself)
  | rests hover =>
    rw [← hplace, Function.update_eq_self]
    have hset : Expires ⟨{ s.shared with store := s.shared.store.tick m.elapsed }, s.place⟩ :=
      fun key c hc => hs key c (Counters.get_of_get_tick hc)
    refine iff_of_true hset ?_
    rw [hplace]
    rcases hover with rfl | ⟨refusal, rfl⟩ <;> trivial

end Turn

/-! ### Callers let in again -/

section Again

variable {s : LimitRace ι}

omit [DecidableEq ι] in
/-- Nothing is left under a key that is idle. -/
theorem LimitInv.get_of_idle (h : LimitInv cfg requests s) (hs : Expires s) {key : String}
    (hidle : Idle cfg requests s key) : s.shared.store.get key = none := by
  rw [← Option.not_isSome_iff_eq_none, Option.isSome_iff_exists]
  rintro ⟨c, hc⟩
  cases ht : c.expiresAt with
  | none =>
    rcases hs key c hc with hne | ⟨j, hj⟩
    · exact hne ht
    · have hof := h.of_call j
      cases hplace : s.place j with
      | expire w rest =>
        rw [hplace] at hj hof
        obtain rfl : w.key = key := hj
        have hquiet := (hidle j (uses_of_suffix hof)).1
        rw [hplace] at hquiet
        exact absurd (hquiet ▸ rfl : ((requests j).call cfg).start.sets w.key)
          (not_sets_next w.key _)
      | incr w rest | answered refusal | crashed =>
        rw [hplace] at hj
        exact hj
  | some t =>
    obtain ⟨used, j, hused, huses, hle⟩ := h.bound key c t hc ht
    have hnow := (hidle j huses).2 used hused
    have halive := Counters.alive_of_get hc
    rw [Counter.alive, ht, Option.all_some, decide_eq_true_eq] at halive
    exact absurd (hle.trans hnow) (not_le.mpr halive)

end Again

theorem checkWindow_eq_none {s : Counters String} {w : RateWindow} (windowSeconds : ℕ) {n : ℕ}
    (h : s.AtMost w.key n) (hlimit : n + 1 ≤ w.limit) :
    (checkWindow s w windowSeconds).2 = none := by
  rw [checkWindow_snd]
  exact if_neg (not_lt.mpr (h.counted_le.trans hlimit))

theorem atMost_checkWindow {s : Counters String} {key : String} {n : ℕ} (h : s.AtMost key n)
    (w : RateWindow) (windowSeconds : ℕ) :
    (checkWindow s w windowSeconds).1.AtMost key (n + 1) := by
  unfold checkWindow
  dsimp only
  split_ifs
  · exact (h.incr w.key).expire w.key _
  · exact h.incr w.key

/-- Windows whose counters are low let a request through, if each allows for those it
is counted under before. -/
theorem checkWindows_eq_none (windowSeconds : ℕ) {windows : List RateWindow} {s : Counters String}
    {n : ℕ} (hmost : ∀ w ∈ windows, s.AtMost w.key n)
    (hlimit : ∀ k (h : k < windows.length), n + k + 1 ≤ windows[k].limit) :
    (checkWindows s windowSeconds windows).2 = none := by
  induction windows generalizing s n with
  | nil => rfl
  | cons w windows ih =>
    simp only [List.mem_cons, forall_eq_or_imp] at hmost
    have hnone := checkWindow_eq_none windowSeconds hmost.1 (hlimit 0 (Nat.zero_lt_succ _))
    have hrest := fun w' hw' => atMost_checkWindow (hmost.2 w' hw') w windowSeconds
    rw [checkWindows]
    generalize checkWindow s w windowSeconds = r at hnone hrest
    obtain ⟨store, refusal⟩ := r
    obtain rfl : refusal = none := hnone
    refine ih hrest fun k hk => ?_
    have := hlimit (k + 1) (Nat.succ_lt_succ hk)
    rw [List.getElem_cons_succ] at this
    omega

/-- The window of a source address allows for the user's own. -/
theorem LimitedRequest.le_limit (request : LimitedRequest) (h : 1 ≤ request.limiter.limit) (k : ℕ)
    (hk : k < (request.call cfg).windows.length) :
    0 + k + 1 ≤ (request.call cfg).windows[k].limit := by
  have hip : ∀ limiter : RateLimiter, 1 ≤ limiter.limit → 2 ≤ limiter.limit * ipLimitFactor := by
    intro limiter hlimit
    unfold ipLimitFactor
    omega
  cases request with
  | perUser limiter peer userId =>
    match k, hk with
    | 0, _ => exact h
    | 1, _ => exact hip limiter h
  | optional limiter peer userId =>
    cases userId with
    | none =>
      match k, hk with
      | 0, _ => exact (hip limiter h).trans' (by decide)
    | some userId =>
      match k, hk with
      | 0, _ => exact h
      | 1, _ => exact hip limiter h
  | anonymous limiter peer =>
    match k, hk with
    | 0, _ => exact h

omit [DecidableEq ι] in
theorem countersExpire_iff_expires {s : LimitRace ι} (h : LimitInv cfg requests s) :
    CountersExpire cfg requests s ↔ Expires s := by
  refine ⟨fun hs => hs.expires, fun hs => ⟨hs, fun i hlimit hidle => ?_⟩⟩
  refine checkWindows_eq_none _ (fun w hw => ?_) ((requests i).le_limit hlimit)
  exact Counters.atMost_of_none (h.get_of_idle hs (hidle w.key ⟨w, hw, rfl⟩)) 0

/-! ### The law -/

/-- Counters expire in every state of a run exactly if in each of its steps a command that
starts a counter is not carried out without an answer, and one that sets a time is
carried out. -/
theorem countersExpire_iff (cfg : RateLimitConfig) (requests : ι → LimitedRequest)
    (now : Timestamp) (ms : List (ι × LimitTurn)) :
    Always (limitTurn cfg requests) (CountersExpire cfg requests)
        (limitStart cfg requests now) ms ↔
      Guarded (limitTurn cfg requests) SetsTime (limitStart cfg requests now) ms := by
  have hstart := limitInv_start cfg requests now
  refine always_iff_guarded (I := LimitInv cfg requests) (A := fun _ _ => True)
    (fun s m h _ _ _ => h.turn m) (fun s m h hs _ => ?_) hstart ?_
    (guarded_of_forall (fun _ _ _ => trivial) _)
  · rw [countersExpire_iff_expires (h.turn m)]
    exact expires_turn_iff h ((countersExpire_iff_expires h).mp hs) m
  · exact (countersExpire_iff_expires hstart).mpr nofun

/-! ### A time that is never set -/

def sampleRateLimits : RateLimitConfig where
  redisNamespace := "media"
  failureMode := .failOpen
  isPrintable := fun _ => true

def importLimit : RateLimiter where
  action := "transfer:import"
  limit := 5
  windowSeconds := 60
  failureMode := none

/-- One user's imports, as many as the window allows and one more. -/
def sampleImports (_ : Fin 6) : LimitedRequest := .perUser importLimit (some "203.0.113.7") "u1"

/-- The first import's second command fails, and every other command is answered. -/
def unsetTime : List (Fin 6 × LimitTurn) :=
  [(0, .served), (0, ⟨0, .fails false⟩), (1, .served), (1, .served), (1, .served),
    (2, .served), (2, .served), (3, .served), (3, .served), (4, .served), (4, .served)]

def sampleRun : LimitRace (Fin 6) :=
  run (limitTurn sampleRateLimits sampleImports) (limitStart sampleRateLimits sampleImports 0)
    unsetTime

/-- A counter has no time, nobody is about to set it, and the user is refused the
next import however long it waits. -/
theorem not_countersExpire :
    ¬ CountersExpire sampleRateLimits sampleImports sampleRun ∧
    ∀ wait : ℕ, (checkWindows (sampleRun.shared.store.tick wait) importLimit.windowSeconds
      ((sampleImports 5).call sampleRateLimits).windows).2 = some (tooManyRequests 5 60) := by
  have hget : sampleRun.shared.store.get (importLimit.userKey sampleRateLimits "u1") =
      some ⟨5, none⟩ := by decide +kernel
  have hplace : ∀ i, sampleRun.place i = .answered none ∨
      ∃ w rest, sampleRun.place i = .incr w rest := by
    have hall : ∀ i : Fin 5, sampleRun.place i.castSucc = .answered none := by decide +kernel
    intro i
    induction i using Fin.lastCases with
    | last => exact .inr ⟨_, _, rfl⟩
    | cast i => exact .inl (hall i)
  constructor
  · intro h
    rcases h.expires _ _ hget with hne | ⟨i, hi⟩
    · exact hne rfl
    · rcases hplace i with hanswered | ⟨w, rest, hincr⟩
      · rw [hanswered] at hi
        exact hi
      · rw [hincr] at hi
        exact hi
  · intro wait
    have hcounted : ((sampleRun.shared.store.tick wait).counted
        (importLimit.userKey sampleRateLimits "u1")).count = 6 := by
      rw [Counters.counted_of_some (Counters.get_tick_of_eternal hget rfl wait)]
    have hrefused : (checkWindow (sampleRun.shared.store.tick wait)
        ⟨importLimit.userKey sampleRateLimits "u1", 5⟩ 60).2 = some (tooManyRequests 5 60) := by
      rw [checkWindow_snd, hcounted]
      rfl
    change (checkWindows _ 60 (⟨importLimit.userKey sampleRateLimits "u1", 5⟩ :: _)).2 = _
    rw [checkWindows]
    generalize checkWindow _ _ _ = r at hrefused ⊢
    obtain ⟨store, refusal⟩ := r
    obtain rfl : refusal = some (tooManyRequests 5 60) := hrefused
    rfl

end MediaService
