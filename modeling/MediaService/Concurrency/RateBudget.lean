import MediaService.Concurrency.RateLaw
import MediaService.Foundation.FixedWindow

/-! How many requests a rate limit lets through. However the commands of the requests
interleave and whichever of them fail, in a span shorter than the window at most those get
through that the running counter has left, and one limit more. -/

namespace MediaService

open Foundation

variable {ι : Type*} [DecidableEq ι] {cfg : RateLimitConfig} {requests : ι → LimitedRequest}
  {w : RateWindow}

/-- The turn counts a request under the window's key and finds it within the limit. -/
def admits (w : RateWindow) (s : LimitRace ι) (m : ι × LimitTurn) : Bool :=
  match s.place m.1 with
  | .incr w' _ => w'.key = w.key ∧ m.2.fate.executed ∧
      ((s.shared.store.tick m.2.elapsed).counted w.key).count ≤ w.limit
  | _ => false

/-! ### What the turns admit -/

theorem now_limitTurn (cfg : RateLimitConfig) (requests : ι → LimitedRequest) (s : LimitRace ι)
    (m : ι × LimitTurn) :
    (limitTurn cfg requests s m).shared.store.now = s.shared.store.now + m.2.elapsed := by
  obtain ⟨i, m⟩ := m
  obtain ⟨r, heffect, hturn⟩ := limitTurn_effect cfg requests s i m
  rw [hturn]
  generalize s.place i = place at heffect
  cases heffect with
  | counts _ _ => rfl
  | sets _ => exact Counters.now_expire _ _ _
  | misses _ _ _ => rfl
  | rests _ => rfl

theorem now_le_run (cfg : RateLimitConfig) (requests : ι → LimitedRequest) (s : LimitRace ι)
    (ms : List (ι × LimitTurn)) :
    s.shared.store.now ≤ (run (limitTurn cfg requests) s ms).shared.store.now := by
  induction ms generalizing s with
  | nil => exact le_rfl
  | cons m ms ih =>
    have hstep := now_limitTurn cfg requests s m
    have hrest := ih (limitTurn cfg requests s m)
    rw [run_cons]
    omega

/-- Every turn of the span keeps to the budget. -/
theorem budget_limitTurn {s : LimitRace ι} {horizon : ℤ} {allowance n : ℕ}
    (hof : ∀ i, (s.place i).of ((requests i).call cfg))
    (hlong : ∀ i, ((requests i).call cfg).uses w.key →
      0 < ((requests i).call cfg).windowSeconds ∧
      horizon ≤ s.shared.store.now + seconds ((requests i).call cfg).windowSeconds)
    (h : Counters.Budget w.key w.limit horizon allowance s.shared.store n) (m : ι × LimitTurn)
    (hnow : (limitTurn cfg requests s m).shared.store.now < horizon) :
    Counters.Budget w.key w.limit horizon allowance (limitTurn cfg requests s m).shared.store
      (n + (admits w s m).toNat) := by
  rw [now_limitTurn] at hnow
  obtain ⟨i, m⟩ := m
  have htick : Counters.Budget w.key w.limit horizon allowance
      (s.shared.store.tick m.elapsed) n := h.tick hnow
  have hofi := hof i
  obtain ⟨r, heffect, hturn⟩ := limitTurn_effect cfg requests s i m
  rw [hturn]
  unfold admits
  dsimp only
  generalize s.place i = place at heffect hofi
  cases heffect with
  | @counts w' rest place' hexec _ =>
    by_cases hk : w'.key = w.key
    · simp only [hk, hexec, true_and]
      exact htick.incr
    · simp only [hk, false_and, decide_false, Bool.toNat_false, Nat.add_zero]
      exact htick.congr (Counters.get_incr_ne (Ne.symm hk))
  | @sets w' rest hexec =>
    by_cases hk : w'.key = w.key
    · obtain ⟨hpos, hle⟩ := hlong i (hk ▸ uses_of_suffix hofi)
      have hd : 0 < seconds ((requests i).call cfg).windowSeconds := by
        unfold seconds
        omega
      rw [hk]
      refine htick.expire hd ?_
      rw [Counters.now_tick]
      omega
    · exact htick.congr (Counters.get_expire_ne (Ne.symm hk) _)
  | misses hplace hexec _ =>
    rcases hplace with rfl | rfl
    · simp only [hexec, Bool.false_eq_true, false_and, and_false, decide_false, Bool.toNat_false,
        Nat.add_zero]
      exact htick
    · exact htick
  | rests hplace =>
    rcases hplace with rfl | ⟨refusal, rfl⟩ <;> exact htick

/-- In a span shorter than every window that is counted under the key, the turns admit
what the running counter has left, and a limit more. -/
theorem tally_admits_le {s : LimitRace ι} {ms : List (ι × LimitTurn)} {windowSeconds : ℕ}
    (hinv : LimitInv cfg requests s)
    (hlong : ∀ i, ((requests i).call cfg).uses w.key →
      windowSeconds ≤ ((requests i).call cfg).windowSeconds)
    (hspan : (run (limitTurn cfg requests) s ms).shared.store.now <
      s.shared.store.now + seconds windowSeconds) :
    tally (limitTurn cfg requests) (admits w) s ms ≤
      s.shared.store.left w.key w.limit + w.limit := by
  have hbudget : ∀ (ms : List (ι × LimitTurn)) (t : LimitRace ι) (n : ℕ),
      LimitInv cfg requests t → s.shared.store.now ≤ t.shared.store.now →
      (run (limitTurn cfg requests) t ms).shared.store.now <
        s.shared.store.now + seconds windowSeconds →
      Counters.Budget w.key w.limit (s.shared.store.now + seconds windowSeconds)
        (s.shared.store.left w.key w.limit) t.shared.store n →
      n + tally (limitTurn cfg requests) (admits w) t ms ≤
        s.shared.store.left w.key w.limit + w.limit := by
    intro ms
    induction ms with
    | nil => exact fun t n _ _ _ h => h.le
    | cons m ms ih =>
      intro t n ht hle hend h
      have hrest := now_le_run cfg requests (limitTurn cfg requests t m) ms
      have hstep := now_limitTurn cfg requests t m
      rw [run_cons] at hend
      have hnext := budget_limitTurn ht.of_call (fun i hi => ?_) h m (by omega)
      · have := ih _ _ (ht.turn m) (by omega) hend hnext
        rw [tally]
        omega
      · have hi := hlong i hi
        unfold seconds at hend ⊢
        omega
  have hall := hbudget ms s 0 hinv le_rfl hspan
    (Counters.Budget.start s.shared.store w.key w.limit _)
  omega

/-! ### Requests that get through -/

/-- The window is still to be found within its limit. -/
def LimitPlace.owes (w : RateWindow) : LimitPlace → Prop
  | .incr w' rest => w ∈ w' :: rest
  | .expire w' rest => w ∈ rest ∨ w' = w ∧ w.limit = 0
  | _ => False

instance (w : RateWindow) : (place : LimitPlace) → Decidable (place.owes w)
  | .incr w' rest => inferInstanceAs (Decidable (w ∈ w' :: rest))
  | .expire w' rest => inferInstanceAs (Decidable (w ∈ rest ∨ w' = w ∧ w.limit = 0))
  | .answered _ => inferInstanceAs (Decidable False)
  | .crashed => inferInstanceAs (Decidable False)

/-- The request is over without being let through. -/
def LimitPlace.failed : LimitPlace → Prop
  | .answered refusal => refusal ≠ none
  | .crashed => True
  | _ => False

/-- No command of the request fails unless a failure refuses it. -/
def LimitCall.strict (call : LimitCall) (fate : CommandFate) : Prop :=
  call.mode = .failClosed ∨ fate = .replies

theorem failed_resume {call : LimitCall} {fate : CommandFate} (h : call.strict fate)
    (hfate : fate ≠ .replies) (place : LimitPlace) : (call.resume fate place).failed := by
  cases fate with
  | replies => exact absurd rfl hfate
  | fails executed =>
    have hmode := h.resolve_right hfate
    simp [LimitCall.resume, hmode, handleRedisError, LimitPlace.failed]
  | crashes executed => trivial

theorem failed_limitStep {call : LimitCall} {s : LimitState} {place : LimitPlace}
    (h : place.failed) (m : LimitTurn) : (limitStep call s place m).2.failed := by
  cases place with
  | incr w rest => exact h.elim
  | expire w rest => exact h.elim
  | answered refusal => exact h
  | crashed => trivial

theorem owes_judge {call : LimitCall} {count : ℕ} {w' : RateWindow} {rest : List RateWindow}
    (h : w ∈ rest) :
    (call.judge count w' rest).owes w ∨ (call.judge count w' rest).failed := by
  unfold LimitCall.judge
  split_ifs
  · exact .inr (Option.some_ne_none _)
  · left
    cases rest with
    | nil => cases h
    | cons w'' rest => exact h

/-- A turn of a request that owes a window admits it, leaves it owing, or fails it. -/
theorem owes_limitTurn {s : LimitRace ι} {i : ι} {m : LimitTurn}
    (hstrict : ((requests i).call cfg).strict m.fate) (h : (s.place i).owes w) :
    admits w s (i, m) = true ∨ ((limitTurn cfg requests s (i, m)).place i).owes w ∨
      ((limitTurn cfg requests s (i, m)).place i).failed := by
  rw [turn_place_self]
  unfold admits
  dsimp only
  generalize s.place i = place at h
  by_cases hfate : m.fate = .replies
  · cases place with
    | incr w' rest =>
      unfold limitStep
      dsimp only
      rw [hfate, LimitCall.resume]
      generalize hcount : ((s.shared.store.tick m.elapsed).incr w'.key).2 = count
      have hcount : ((s.shared.store.tick m.elapsed).counted w'.key).count = count := hcount
      rcases List.mem_cons.mp h with rfl | hrest
      · rw [hcount]
        by_cases hle : count ≤ w.limit
        · exact .inl (by simp [hle, CommandFate.executed])
        · right
          split_ifs with hone
          · exact .inl (.inr ⟨rfl, by omega⟩)
          · right
            rw [LimitCall.judge, if_pos (by omega)]
            exact Option.some_ne_none _
      · right
        split_ifs
        · exact .inl (.inl hrest)
        · exact owes_judge hrest
    | expire w' rest =>
      right
      unfold limitStep
      dsimp only
      rw [hfate, LimitCall.resume]
      rcases h with hrest | ⟨rfl, hzero⟩
      · exact owes_judge hrest
      · right
        rw [LimitCall.judge, if_pos (by omega)]
        exact Option.some_ne_none _
    | answered refusal => exact h.elim
    | crashed => exact h.elim
  · right
    right
    cases place with
    | incr w' rest => exact failed_resume hstrict hfate _
    | expire w' rest => exact failed_resume hstrict hfate _
    | answered refusal => exact h.elim
    | crashed => exact h.elim

theorem failed_run {i : ι} (s : LimitRace ι) (ms : List (ι × LimitTurn))
    (h : (s.place i).failed) : ((run (limitTurn cfg requests) s ms).place i).failed := by
  induction ms generalizing s with
  | nil => exact h
  | cons m ms ih =>
    obtain ⟨j, m⟩ := m
    refine ih _ ?_
    by_cases hj : i = j
    · subst hj
      rw [turn_place_self]
      exact failed_limitStep h m
    · rw [turn_place_ne s hj]
      exact h

/-- Requests that owe a window and get through have been admitted by it, each by a turn
of its own. -/
theorem card_owing_le (S : Finset ι) {s : LimitRace ι} {ms : List (ι × LimitTurn)}
    (hstrict : Guarded (limitTurn cfg requests) (fun s m => m.1 ∈ S → (s.place m.1).owes w →
      ((requests m.1).call cfg).strict m.2.fate) s ms)
    (hpass : ∀ i ∈ S, (run (limitTurn cfg requests) s ms).place i = .answered none) :
    (S.filter fun i => (s.place i).owes w).card ≤
      tally (limitTurn cfg requests) (admits w) s ms := by
  induction ms generalizing s with
  | nil =>
    rw [Finset.filter_eq_empty_iff.mpr fun i hi howes => ?_]
    · exact Nat.zero_le _
    · rw [show s.place i = .answered none from hpass i hi] at howes
      exact howes
  | cons m ms ih =>
    have hrest := ih hstrict.2 hpass
    obtain ⟨j, m⟩ := m
    have hothers : ∀ i ≠ j, (limitTurn cfg requests s (j, m)).place i = s.place i :=
      fun i hi => turn_place_ne s hi m
    rw [tally]
    by_cases hj : j ∈ S ∧ (s.place j).owes w
    · rcases owes_limitTurn (hstrict.1 hj.1 hj.2) hj.2 with
        hadmits | howes | hfailed
      · rw [hadmits, Bool.toNat_true]
        have hsub : S.filter (fun i => (s.place i).owes w) ⊆ insert j (S.filter fun i =>
            ((limitTurn cfg requests s (j, m)).place i).owes w) := by
          intro i hi
          rw [Finset.mem_filter] at hi
          by_cases hij : i = j
          · exact Finset.mem_insert.mpr (.inl hij)
          · exact Finset.mem_insert_of_mem
              (Finset.mem_filter.mpr ⟨hi.1, (hothers i hij).symm ▸ hi.2⟩)
        have hcard := (Finset.card_le_card hsub).trans (Finset.card_insert_le _ _)
        omega
      · refine le_trans (Finset.card_le_card fun i hi => ?_) (hrest.trans (Nat.le_add_left _ _))
        rw [Finset.mem_filter] at hi ⊢
        by_cases hij : i = j
        · exact ⟨hi.1, hij ▸ howes⟩
        · exact ⟨hi.1, (hothers i hij).symm ▸ hi.2⟩
      · have hend := @failed_run _ _ cfg requests _ _ ms hfailed
        rw [show (run (limitTurn cfg requests) (limitTurn cfg requests s (j, m)) ms).place j =
          .answered none from hpass j hj.1] at hend
        exact absurd rfl hend
    · refine le_trans (Finset.card_le_card fun i hi => ?_) (hrest.trans (Nat.le_add_left _ _))
      rw [Finset.mem_filter] at hi ⊢
      refine ⟨hi.1, ?_⟩
      rw [hothers i fun hij => hj (hij ▸ hi)]
      exact hi.2

/-- However requests interleave and fail, of those that check a window and begin within
a span shorter than it at most as many get through as the counter that runs at its
beginning has left, and one limit more. A request that a failure lets through while it
still owes the window is not among them; one that the window has counted may fail at its
others and get through. -/
theorem admissions_le (cfg : RateLimitConfig) (requests : ι → LimitedRequest) (now : Timestamp)
    (before ms : List (ι × LimitTurn)) (w : RateWindow) (windowSeconds : ℕ) (S : Finset ι)
    (hlong : ∀ i, ((requests i).call cfg).uses w.key →
      windowSeconds ≤ ((requests i).call cfg).windowSeconds)
    (hspan : (run (limitTurn cfg requests) (limitStart cfg requests now)
        (before ++ ms)).shared.store.now <
      (run (limitTurn cfg requests) (limitStart cfg requests now) before).shared.store.now +
        seconds windowSeconds)
    (hchecks : ∀ i ∈ S, w ∈ ((requests i).call cfg).windows)
    (hbegins : ∀ i ∈ S, (run (limitTurn cfg requests) (limitStart cfg requests now)
      before).place i = ((requests i).call cfg).start)
    (hstrict : Guarded (limitTurn cfg requests) (fun s m => m.1 ∈ S → (s.place m.1).owes w →
      ((requests m.1).call cfg).strict m.2.fate)
      (run (limitTurn cfg requests) (limitStart cfg requests now) before) ms)
    (hpass : ∀ i ∈ S, (run (limitTurn cfg requests) (limitStart cfg requests now)
      (before ++ ms)).place i = .answered none) :
    S.card ≤ (run (limitTurn cfg requests) (limitStart cfg requests now)
      before).shared.store.left w.key w.limit + w.limit := by
  have hinv : LimitInv cfg requests
      (run (limitTurn cfg requests) (limitStart cfg requests now) before) :=
    (always_of_inv (I := LimitInv cfg requests) (fun _ m h => h.turn m)
      (limitInv_start cfg requests now) before).last
  rw [run_append] at hspan
  simp only [run_append] at hpass
  refine le_trans ?_ ((card_owing_le (w := w) S hstrict hpass).trans
    (tally_admits_le hinv hlong hspan))
  rw [Finset.filter_true_of_mem fun i hi => ?_]
  rw [hbegins i hi, LimitCall.start]
  have hw := hchecks i hi
  cases hwindows : ((requests i).call cfg).windows with
  | nil =>
    rw [hwindows] at hw
    cases hw
  | cons w' rest =>
    rw [hwindows] at hw
    exact hw

/-- Two imports of one user, one before the span and one in it. -/
def twoImports (_ : Bool) : LimitedRequest := .perUser importLimit (some "203.0.113.7") "u1"

def firstImport : List (Bool × LimitTurn) := List.replicate 4 (false, .served)

/-- It is counted under its user, and gets no answer under its address. -/
def secondImport : List (Bool × LimitTurn) :=
  [(true, ⟨3000000, .replies⟩), (true, ⟨0, .fails false⟩)]

theorem admissions_le_imports :
    ({true} : Finset Bool).card ≤
      (run (limitTurn sampleRateLimits twoImports) (limitStart sampleRateLimits twoImports 0)
        firstImport).shared.store.left (importLimit.userKey sampleRateLimits "u1") 5 + 5 := by
  refine admissions_le sampleRateLimits twoImports 0 firstImport secondImport
    ⟨importLimit.userKey sampleRateLimits "u1", 5⟩ 60 {true} (fun i _ => le_rfl) ?_ ?_ ?_ ?_ ?_
  · decide +kernel
  · intro i _
    exact List.mem_cons_self
  · intro i hi
    rw [Finset.mem_singleton.mp hi]
    decide +kernel
  · exact ⟨fun _ _ => .inr rfl, fun _ howes => absurd howes (by decide +kernel), trivial⟩
  · intro i hi
    rw [Finset.mem_singleton.mp hi]
    decide +kernel

end MediaService
