import Mathlib.Data.Bool.Basic
import Mathlib.Data.Finset.Basic
import MediaService.Foundation.Interleaving

/-! Two requests that move one item between tiers. Each reads the item's card,
copies the item to where the request wants it, updates the columns of the card
it changed, and removes the copy where its reading said the item was. The tiers
and the visibilities are arbitrary; a visibility has a home tier, only the public
one has the public tier for its home, and retired items go to an archive. -/

namespace MediaService

open Foundation

/-! ### The protocol -/

/-- What the item's card says. -/
@[ext] structure Card (β ν : Type*) where
  visibility : ν
  bucket : β
  live : Bool

/-- What a request asks for; a refused one stops at its first read. -/
inductive Ask (ν : Type*) where
  | refused | stay | become (v : ν) | retire

structure Tiers (β ν : Type*) where
  home : ν → β
  archive : β
  pub : ν
  home_eq_pub : ∀ v, home v = home pub → v = pub
  home_ne_archive : ∀ v, home v ≠ archive

/-- The card, and the tiers that hold a copy of the item. -/
structure TierState (β ν : Type*) where
  card : Card β ν
  copies : Finset β

inductive MoverPlace (β ν : Type*) where
  | idle
  | loaded (q : Card β ν)
  | copied (q : Card β ν)
  | committed (q : Card β ν)
  | finished
  | refused

variable {β ν : Type*} [DecidableEq β] [DecidableEq ν] (T : Tiers β ν)

/-- Where a request moves an item it read the card `q` of, if it moves it. -/
def Ask.target (a : Ask ν) (q : Card β ν) : Option β :=
  match a with
  | .become v => if v = q.visibility ∨ T.home v = q.bucket then none else some (T.home v)
  | .retire => if q.bucket = T.archive then none else some T.archive
  | _ => none

theorem Ask.target_eq_some {T : Tiers β ν} {a : Ask ν} {q : Card β ν} {t : β} :
    a.target T q = some t ↔
      (∃ v, a = .become v ∧ v ≠ q.visibility ∧ T.home v ≠ q.bucket ∧ t = T.home v) ∨
        a = .retire ∧ q.bucket ≠ T.archive ∧ t = T.archive := by
  unfold Ask.target
  cases a with
  | become v =>
    dsimp only
    split_ifs with hstays
    · refine iff_of_false (fun h => by cases h) ?_
      rintro (⟨w, he, hne, hhome, -⟩ | ⟨he, -⟩)
      · cases he
        exact hstays.elim hne hhome
      · cases he
    · rw [not_or] at hstays
      constructor
      · rintro ⟨⟩
        exact .inl ⟨v, rfl, hstays.1, hstays.2, rfl⟩
      · rintro (⟨w, he, -, -, rfl⟩ | ⟨he, -⟩) <;> cases he
        rfl
  | retire =>
    dsimp only
    split_ifs with hstays
    · refine iff_of_false (fun h => by cases h) ?_
      rintro (⟨w, he, -⟩ | ⟨-, hne, -⟩)
      · cases he
      · exact hne hstays
    · constructor
      · rintro ⟨⟩
        exact .inr ⟨rfl, hstays, rfl⟩
      · rintro (⟨w, he, -⟩ | ⟨-, -, rfl⟩)
        · cases he
        · rfl
  | refused => simp
  | stay => simp

/-- The columns a request changes against its reading `q`, written into the card. -/
def Ask.commit (a : Ask ν) (q card : Card β ν) : Card β ν where
  visibility :=
    match a with
    | .become v => if v = q.visibility then card.visibility else v
    | _ => card.visibility
  bucket := (a.target T q).getD card.bucket
  live :=
    match a with
    | .retire => false
    | _ => card.live

def moverStep (asks : Bool → Ask ν) (i : Bool) (s : TierState β ν) (p : MoverPlace β ν)
    (_ : Unit) : TierState β ν × MoverPlace β ν :=
  match p with
  | .idle =>
    match asks i with
    | .refused => (s, .refused)
    | _ => if s.card.live then (s, .loaded s.card) else (s, .refused)
  | .loaded q =>
    match (asks i).target T q with
    | none => (s, .copied q)
    | some t => ({ s with copies := insert t s.copies }, .copied q)
  | .copied q =>
    ({ s with card := (asks i).commit T q s.card },
      if ((asks i).target T q).isSome then .committed q else .finished)
  | .committed q => ({ s with copies := s.copies.erase q.bucket }, .finished)
  | .finished => (s, .finished)
  | .refused => (s, .refused)

abbrev moverTurn (asks : Bool → Ask ν) :
    Parties Bool (TierState β ν) (MoverPlace β ν) → Bool × Unit →
      Parties Bool (TierState β ν) (MoverPlace β ν) :=
  turn (moverStep T asks)

theorem moverStep_refused {T : Tiers β ν} {asks : Bool → Ask ν} {i : Bool} {σ : TierState β ν}
    (h : asks i = .refused ∨ σ.card.live = false) :
    moverStep T asks i σ .idle () = (σ, .refused) := by
  rw [moverStep]
  rcases h with h | h
  · rw [h]
  · cases asks i <;> simp [h]

theorem moverStep_idle {T : Tiers β ν} {asks : Bool → Ask ν} {i : Bool} {σ : TierState β ν}
    (hi : asks i ≠ .refused) (hlive : σ.card.live = true) :
    moverStep T asks i σ .idle () = (σ, .loaded σ.card) := by
  unfold moverStep
  cases hask : asks i with
  | refused => exact absurd hask hi
  | _ => exact if_pos hlive

/-- The card's tier holds the item, and the public tier holds it only for a live
public card. -/
def TierState.Lawful (s : TierState β ν) : Prop :=
  s.card.bucket ∈ s.copies ∧
    (T.home T.pub ∈ s.copies → s.card.live = true ∧ s.card.visibility = T.pub)

/-- Requests that can undo each other: one moves the item elsewhere and the other
back, or one moves it to the public tier and the other away from where it was. -/
def Clash (v₀ : ν) : Ask ν → Ask ν → Prop
  | .become v, .become w => T.home v ≠ T.home w ∧
      (T.home v = T.home v₀ ∨ T.home w = T.home v₀ ∨ v = T.pub ∨ w = T.pub)
  | .become v, .retire | .retire, .become v => v = T.pub ∧ v₀ ≠ T.pub
  | _, _ => False

instance (v₀ : ν) : (a b : Ask ν) → Decidable (Clash T v₀ a b)
  | .become _, .become _ => inferInstanceAs (Decidable (_ ∧ _))
  | .become _, .retire | .retire, .become _ => inferInstanceAs (Decidable (_ ∧ _))
  | .refused, _ | .stay, _ | .retire, .refused | .retire, .stay | .retire, .retire |
    .become _, .refused | .become _, .stay => inferInstanceAs (Decidable False)

/-- Nothing happens to a dead item, and requests for a live one do not clash. -/
def Compatible (T : Tiers β ν) (asks : Bool → Ask ν) (r : Card β ν) : Prop :=
  r.live = true → ∀ i, ¬ Clash T r.visibility (asks i) (asks !i)

instance (asks : Bool → Ask ν) (r : Card β ν) : Decidable (Compatible T asks r) :=
  inferInstanceAs (Decidable (r.live = true → _))

/-! ### What a request has read -/

def MoverPlace.Uncommitted : MoverPlace β ν → Prop
  | .committed _ | .finished => False
  | _ => True

section Origin

variable {T} {asks : Bool → Ask ν} {r : Card β ν}

/-- The card after the first commit, the item's card having been `r`. -/
def firstCommit (T : Tiers β ν) (asks : Bool → Ask ν) (r : Card β ν) (i : Bool) : Card β ν :=
  (asks i).commit T r r

/-- Where every card of a run comes from: until a request commits it is the first
one, until the second does it is what the first made of it, and a request has
read one of these. -/
structure Origin (T : Tiers β ν) (asks : Bool → Ask ν) (r : Card β ν)
    (s : Parties Bool (TierState β ν) (MoverPlace β ν)) : Prop where
  start : (∀ i, (s.place i).Uncommitted) → s.shared.card = r
  first : ∀ i, ¬ (s.place i).Uncommitted → (s.place !i).Uncommitted →
    s.shared.card = firstCommit T asks r i
  source : ∀ i q, s.place i = .committed q → (s.place !i).Uncommitted → q = r
  read : ∀ i q, s.place i = .loaded q ∨ s.place i = .copied q → q.live = true ∧
    (q = r ∨ ¬ (s.place !i).Uncommitted ∧ q = firstCommit T asks r !i)

variable {s : Parties Bool (TierState β ν) (MoverPlace β ν)} {i : Bool}

theorem place_turn_not : (moverTurn T asks s (i, ())).place (!i) = s.place !i :=
  turn_place_ne s (Bool.not_ne_self i) ()

/-- A step that neither reads the card nor writes it. -/
theorem Origin.keep (h : Origin T asks r s)
    (hcard : (moverTurn T asks s (i, ())).shared.card = s.shared.card)
    (hplace : ((moverTurn T asks s (i, ())).place i).Uncommitted ↔ (s.place i).Uncommitted)
    (hcommitted : ∀ q, (moverTurn T asks s (i, ())).place i ≠ .committed q)
    (hread : ∀ q, (moverTurn T asks s (i, ())).place i = .loaded q ∨
      (moverTurn T asks s (i, ())).place i = .copied q →
        s.place i = .loaded q ∨ s.place i = .copied q ∨
          s.place i = .idle ∧ s.shared.card.live = true ∧ q = s.shared.card) :
    Origin T asks r (moverTurn T asks s (i, ())) := by
  have hsame : ∀ k, ((moverTurn T asks s (i, ())).place k).Uncommitted ↔
      (s.place k).Uncommitted := by
    intro k
    by_cases hk : k = i
    · subst hk
      exact hplace
    · rw [turn_place_ne s hk]
  refine ⟨fun hall => ?_, fun k hk hnot => ?_, fun k q hq hnot => ?_, fun k q hq => ?_⟩
  · rw [hcard]
    exact h.start fun k => (hsame k).mp (hall k)
  · rw [hcard]
    exact h.first k (mt (hsame k).mpr hk) ((hsame _).mp hnot)
  · by_cases hk : k = i
    · subst hk
      exact absurd hq (hcommitted q)
    · rw [turn_place_ne s hk] at hq
      exact h.source k q hq ((hsame _).mp hnot)
  · rw [hsame]
    by_cases hk : k = i
    · subst hk
      rcases hread q hq with hl | hc | ⟨hidle, hlive, rfl⟩
      · exact h.read k q (.inl hl)
      · exact h.read k q (.inr hc)
      · refine ⟨hlive, ?_⟩
        have hk : (s.place k).Uncommitted := by rw [hidle]; trivial
        by_cases hnot : (s.place !k).Uncommitted
        · refine .inl (h.start fun l => ?_)
          cases k <;> cases l <;> assumption
        · exact .inr ⟨hnot, h.first (!k) hnot (by rw [Bool.not_not]; exact hk)⟩
    · rw [turn_place_ne s hk] at hq
      exact h.read k q hq

theorem Origin.turn (h : Origin T asks r s) (i : Bool) :
    Origin T asks r (moverTurn T asks s (i, ())) := by
  cases hp : s.place i with
  | idle =>
    by_cases ha : asks i = .refused ∨ s.shared.card.live = false
    · have hstep := moverStep_refused (T := T) ha
      refine h.keep ?_ ?_ ?_ ?_ <;> simp [hstep, hp, MoverPlace.Uncommitted]
    · rw [not_or, Bool.not_eq_false] at ha
      have hstep := moverStep_idle (T := T) ha.1 ha.2
      refine h.keep ?_ ?_ ?_ ?_ <;> simp [hstep, hp, ha.2, MoverPlace.Uncommitted]
  | loaded q =>
    have hstep : (moverStep T asks i s.shared (.loaded q) ()).1.card = s.shared.card ∧
        (moverStep T asks i s.shared (.loaded q) ()).2 = .copied q := by
      rw [moverStep]
      split <;> simp
    refine h.keep ?_ ?_ ?_ ?_ <;> simp [hstep, hp, MoverPlace.Uncommitted]
  | copied q =>
    have hi : (s.place i).Uncommitted := by rw [hp]; trivial
    have hcases : (moverTurn T asks s (i, ())).place i = .committed q ∨
        (moverTurn T asks s (i, ())).place i = .finished := by
      rw [turn_place_self, hp, moverStep]
      split
      · exact .inl rfl
      · exact .inr rfl
    have hi' : ¬ ((moverTurn T asks s (i, ())).place i).Uncommitted := by
      rcases hcases with hc | hc <;> rw [hc] <;> exact not_false
    have hnot : (moverTurn T asks s (i, ())).place (!i) = s.place !i := place_turn_not
    by_cases hj : (s.place !i).Uncommitted
    · -- the first commit, on the card both requests start from
      have hcard : s.shared.card = r := h.start fun k => by cases i <;> cases k <;> assumption
      have hq : q = r := ((h.read i q (.inr hp)).2).resolve_right fun hc => hc.1 hj
      refine ⟨fun hall => absurd (hall i) hi', fun k hk _ => ?_, fun k p hpk _ => ?_,
        fun k p hpk => ?_⟩
      · rcases Bool.eq_or_eq_not k i with rfl | rfl
        · rw [turn_shared, hp, moverStep, hcard, hq]
          rfl
        · rw [hnot] at hk
          exact absurd hj hk
      · rcases Bool.eq_or_eq_not k i with rfl | rfl
        · rcases hcases with hc | hc
          · rw [hc] at hpk
            cases hpk
            exact hq
          · rw [hc] at hpk
            cases hpk
        · rw [hnot] at hpk
          rw [hpk] at hj
          exact hj.elim
      · rcases Bool.eq_or_eq_not k i with rfl | rfl
        · rcases hcases with hc | hc <;> rw [hc] at hpk <;> simp at hpk
        · rw [hnot] at hpk
          obtain ⟨hlive, hread⟩ := h.read _ p hpk
          rw [Bool.not_not] at hread
          exact ⟨hlive, .inl (hread.resolve_right fun hc => hc.1 hi)⟩
    · -- the second commit; nothing is left to say
      refine ⟨fun hall => absurd (hall i) hi', fun k hk hk' => ?_, fun k p _ hk' => ?_,
        fun k p hpk => ?_⟩
      · rcases Bool.eq_or_eq_not k i with rfl | rfl
        · rw [hnot] at hk'
          exact absurd hk' hj
        · rw [Bool.not_not] at hk'
          exact absurd hk' hi'
      · rcases Bool.eq_or_eq_not k i with rfl | rfl
        · rw [hnot] at hk'
          exact absurd hk' hj
        · rw [Bool.not_not] at hk'
          exact absurd hk' hi'
      · rcases Bool.eq_or_eq_not k i with rfl | rfl
        · rcases hcases with hc | hc <;> rw [hc] at hpk <;> simp at hpk
        · rw [hnot] at hpk
          rcases hpk with hpk | hpk <;> rw [hpk] at hj <;> exact absurd trivial hj
  | committed q =>
    refine h.keep ?_ ?_ ?_ ?_ <;> simp [moverStep, hp, MoverPlace.Uncommitted]
  | finished => refine h.keep ?_ ?_ ?_ ?_ <;> simp [moverStep, hp, MoverPlace.Uncommitted]
  | refused => refine h.keep ?_ ?_ ?_ ?_ <;> simp [moverStep, hp, MoverPlace.Uncommitted]

/-- A request about to commit read the first card and nothing has happened since, or the
other has committed and the request read the card before or after that. -/
theorem Origin.before_commit (h : Origin T asks r s) {q : Card β ν} (hp : s.place i = .copied q) :
    s.shared.card = r ∧ q = r ∨ s.shared.card = firstCommit T asks r !i ∧
      (q = r ∨ q = firstCommit T asks r !i) := by
  have hi : (s.place i).Uncommitted := by rw [hp]; trivial
  obtain ⟨-, hq⟩ := h.read i q (.inr hp)
  by_cases hj : (s.place !i).Uncommitted
  · have hfirst : s.shared.card = r := h.start fun k => by cases i <;> cases k <;> assumption
    exact .inl ⟨hfirst, hq.resolve_right fun hc => hc.1 hj⟩
  · exact .inr ⟨h.first (!i) hj (by rw [Bool.not_not]; exact hi), hq.imp id And.right⟩

end Origin

/-! ### Requests that do not clash -/

section Safety

variable {T} {asks : Bool → Ask ν} {r : Card β ν}
  {s : Parties Bool (TierState β ν) (MoverPlace β ν)}

/-- What holds of the copies while two requests that do not clash run: the card's
tier has one, a request that copied finds its copy where it is about to point the
card, no removal to come hits either, and a copy in the public tier belongs to a
live public card, or is about to be removed, or about to be pointed to. -/
structure Sheltered (T : Tiers β ν) (asks : Bool → Ask ν)
    (s : Parties Bool (TierState β ν) (MoverPlace β ν)) : Prop where
  here : s.shared.card.bucket ∈ s.shared.copies
  ready : ∀ i q t, s.place i = .copied q → (asks i).target T q = some t → t ∈ s.shared.copies
  apart : ∀ i q, s.place i = .committed q → s.shared.card.bucket ≠ q.bucket ∧
    ∀ q' t, s.place (!i) = .copied q' → (asks !i).target T q' = some t → t ≠ q.bucket
  shown : T.home T.pub ∈ s.shared.copies →
    (s.shared.card.live = true ∧ s.shared.card.visibility = T.pub) ∨
      ∃ i q, s.place i = .committed q ∧ q.bucket = T.home T.pub ∨
        s.place i = .copied q ∧ (asks i).target T q = some (T.home T.pub)

/-- At the end nothing is left to come. -/
theorem Sheltered.lawful (h : Sheltered T asks s)
    (hend : ∀ i, s.place i = .finished ∨ s.place i = .refused) : s.shared.Lawful T := by
  refine ⟨h.here, fun hpub => (h.shown hpub).resolve_right ?_⟩
  rintro ⟨i, q, ⟨hq, -⟩ | ⟨hq, -⟩⟩
  · rcases hend i with he | he <;> rw [he] at hq <;> cases hq
  · rcases hend i with he | he <;> rw [he] at hq <;> cases hq

theorem target_ne_bucket {a : Ask ν} {q : Card β ν} {t : β} (h : a.target T q = some t) :
    t ≠ q.bucket := by
  obtain ⟨v, -, -, hhome, rfl⟩ | ⟨-, harchive, rfl⟩ := Ask.target_eq_some.mp h
  · exact hhome
  · exact harchive.symm

/-- A card whose item is where its visibility wants it. -/
def Card.AtHome (T : Tiers β ν) (q : Card β ν) : Prop :=
  q.live = true → q.bucket = T.home q.visibility

theorem atHome_firstCommit (hr : r.AtHome T) (i : Bool) : (firstCommit T asks r i).AtHome T := by
  unfold firstCommit Card.AtHome Ask.commit Ask.target
  cases asks i with
  | become v =>
    intro hlive
    by_cases hv : v = r.visibility
    · simpa [hv] using hr hlive
    · by_cases hb : T.home v = r.bucket
      · simp [hv, hb]
      · simp [hv, hb]
  | retire => exact fun h => nomatch h
  | refused => exact hr
  | stay => exact hr

theorem live_of_firstCommit {i : Bool} (h : (firstCommit T asks r i).live = true) :
    r.live = true ∧ asks i ≠ .retire := by
  unfold firstCommit Ask.commit at h
  cases ha : asks i with
  | retire => simp [ha] at h
  | _ => simpa [ha] using h

/-- A request that moves an item from where it first was is not followed by one
that moves it back there. -/
theorem target_ne_start (hr : r.AtHome T)
    (hclash : Compatible T asks r) {i : Bool} {q : Card β ν} {t : β}
    (hlive : q.live = true) (hq : q = r ∨ q = firstCommit T asks r !i)
    (ht : (asks i).target T q = some t) : t ≠ r.bucket := by
  rcases hq with rfl | rfl
  · exact target_ne_bucket ht
  · rintro rfl
    obtain ⟨hrlive, hretire⟩ := live_of_firstCommit hlive
    have hhome := hr hrlive
    have hback := target_ne_bucket ht
    obtain ⟨w, hi, -, -, hw⟩ | ⟨-, -, harchive⟩ := Ask.target_eq_some.mp ht
    · -- the other request made the item leave, so it is one for another visibility
      cases hj : asks !i with
      | become v =>
        refine hback ?_
        by_cases hv : v = r.visibility ∨ T.home v = r.bucket
        · simp [firstCommit, hj, Ask.commit, Ask.target, hv]
        · refine absurd ?_ (hclash hrlive i)
          rw [hi, hj]
          rw [not_or] at hv
          exact ⟨fun he => hv.2 (he.symm.trans hw.symm), .inl (hw.symm.trans hhome)⟩
      | retire => exact hretire hj
      | refused => exact hback (by simp [firstCommit, hj, Ask.commit, Ask.target])
      | stay => exact hback (by simp [firstCommit, hj, Ask.commit, Ask.target])
    · exact T.home_ne_archive _ (hhome.symm.trans harchive)

/-- A request that read a public card leaves it public or takes the item away. -/
theorem commit_public {a : Ask ν} {q card : Card β ν} (hq : q.AtHome T) (hlive : q.live = true)
    (hpub : q.visibility = T.pub) (hcard : card.live = true ∧ card.visibility = T.pub) :
    ((a.commit T q card).live = true ∧ (a.commit T q card).visibility = T.pub) ∨
      (a.target T q).isSome = true ∧ q.bucket = T.home T.pub := by
  have hbucket : q.bucket = T.home T.pub := by rw [hq hlive, hpub]
  cases a with
  | become v =>
    by_cases hv : v = T.pub
    · exact .inl ⟨hcard.1, by simp [Ask.commit, hv, hpub, hcard.2]⟩
    · refine .inr ⟨?_, hbucket⟩
      have hhome : T.home v ≠ T.home T.pub := fun he => hv (T.home_eq_pub v he)
      simp [Ask.target, hpub, hv, hbucket, hhome]
  | retire =>
    refine .inr ⟨?_, hbucket⟩
    simp [Ask.target, hbucket, T.home_ne_archive]
  | refused => exact .inl hcard
  | stay => exact .inl hcard

/-- A request that makes a card public asks for that visibility. -/
theorem become_of_firstCommit {i : Bool} (hvis : r.visibility ≠ T.pub)
    (hcard : (firstCommit T asks r i).live = true ∧ (firstCommit T asks r i).visibility = T.pub) :
    asks i = .become T.pub := by
  cases hask : asks i with
  | become w =>
    have hw : w = T.pub := by
      by_contra hw
      have hne := hcard.2
      simp only [firstCommit, Ask.commit, hask] at hne
      split at hne
      · exact hvis hne
      · exact hw hne
    rw [hw]
  | retire => exact absurd hask (live_of_firstCommit hcard.1).2
  | refused => exact absurd (by simpa [firstCommit, Ask.commit, hask] using hcard.2) hvis
  | stay => exact absurd (by simpa [firstCommit, Ask.commit, hask] using hcard.2) hvis

/-- The second commit on a card the request had not read. -/
theorem commit_over (ho : Origin T asks r s) (hr : r.AtHome T)
    (hclash : Compatible T asks r) {i : Bool} {q : Card β ν}
    (hp : s.place i = .copied q)
    (hcard : s.shared.card.live = true ∧ s.shared.card.visibility = T.pub) :
    (((asks i).commit T q s.shared.card).live = true ∧
        ((asks i).commit T q s.shared.card).visibility = T.pub) ∨
      ((asks i).target T q).isSome = true ∧ q.bucket = T.home T.pub := by
  have hlive := (ho.read i q (.inr hp)).1
  by_cases hvis : q.visibility = T.pub
  · have hhome : q.AtHome T := by
      rcases ho.before_commit hp with ⟨-, rfl⟩ | ⟨-, rfl | rfl⟩
      · exact hr
      · exact hr
      · exact atHome_firstCommit hr _
    exact commit_public hhome hlive hvis hcard
  · rcases ho.before_commit hp with ⟨hfirst, rfl⟩ | ⟨hfirst, rfl | rfl⟩
    · exact absurd (hfirst ▸ hcard.2) hvis
    · -- the request read the first card, and the other made it public
      rw [hfirst] at hcard ⊢
      have hother := become_of_firstCommit hvis hcard
      have hc := hclash hlive i
      rw [hother] at hc
      cases hask : asks i with
      | become v =>
        rw [hask] at hc
        by_cases hv : v = T.pub
        · refine .inl ⟨hcard.1, ?_⟩
          simp only [Ask.commit, hv, if_neg (Ne.symm hvis)]
        · exact absurd ⟨fun he => hv (T.home_eq_pub v he), .inr (.inr (.inr rfl))⟩ hc
      | retire =>
        rw [hask] at hc
        exact absurd ⟨rfl, hvis⟩ hc
      | refused => exact .inl hcard
      | stay => exact .inl hcard
    · exact absurd (hfirst ▸ hcard.2) hvis

/-- A request that points the card to the public tier makes it public, and finds
it live. -/
theorem commit_to_public (ho : Origin T asks r s)
    (hclash : Compatible T asks r) {i : Bool} {q : Card β ν}
    (hp : s.place i = .copied q) (ht : (asks i).target T q = some (T.home T.pub)) :
    ((asks i).commit T q s.shared.card).live = true ∧
      ((asks i).commit T q s.shared.card).visibility = T.pub := by
  have hlive := (ho.read i q (.inr hp)).1
  obtain ⟨v, hask, hne, -, hv⟩ | ⟨-, -, harchive⟩ := Ask.target_eq_some.mp ht
  · obtain rfl : v = T.pub := T.home_eq_pub v hv.symm
    rw [hask]
    refine ⟨?_, by simp only [Ask.commit, if_neg hne]⟩
    change s.shared.card.live = true
    rcases ho.before_commit hp with ⟨hfirst, rfl⟩ | ⟨hfirst, rfl | rfl⟩
    · rw [hfirst]
      exact hlive
    · have hc := hclash hlive i
      rw [hask] at hc
      rw [hfirst]
      cases hother : asks !i with
      | retire =>
        rw [hother] at hc
        exact absurd ⟨rfl, Ne.symm hne⟩ hc
      | _ => simpa [firstCommit, Ask.commit, hother] using hlive
    · rw [hfirst]
      exact hlive
  · exact absurd harchive (T.home_ne_archive _)

/-- A step that only reads. -/
theorem Sheltered.keep (h : Sheltered T asks s) {i : Bool}
    (hshared : (moverTurn T asks s (i, ())).shared = s.shared)
    (hold : ∀ q, s.place i ≠ .copied q ∧ s.place i ≠ .committed q)
    (hnew : ∀ q, (moverTurn T asks s (i, ())).place i ≠ .copied q ∧
      (moverTurn T asks s (i, ())).place i ≠ .committed q) :
    Sheltered T asks (moverTurn T asks s (i, ())) := by
  have hplace : ∀ k q, ((moverTurn T asks s (i, ())).place k = .copied q ↔ s.place k = .copied q) ∧
      ((moverTurn T asks s (i, ())).place k = .committed q ↔ s.place k = .committed q) := by
    intro k q
    by_cases hk : k = i
    · subst hk
      exact ⟨iff_of_false (hnew q).1 (hold q).1, iff_of_false (hnew q).2 (hold q).2⟩
    · rw [turn_place_ne s hk]
      exact ⟨Iff.rfl, Iff.rfl⟩
  refine ⟨?_, fun k q t hq => ?_, fun k q hq => ?_, ?_⟩
  · rw [hshared]
    exact h.here
  · rw [hshared]
    exact h.ready k q t ((hplace k q).1.mp hq)
  · rw [hshared]
    obtain ⟨hne, hnext⟩ := h.apart k q ((hplace k q).2.mp hq)
    exact ⟨hne, fun q' t hq' => hnext q' t ((hplace (!k) q').1.mp hq')⟩
  · rw [hshared]
    intro hpub
    simp only [hplace]
    exact h.shown hpub

theorem Sheltered.copy (h : Sheltered T asks s) (ho : Origin T asks r s) (hr : r.AtHome T)
    (hclash : Compatible T asks r) {i : Bool} {q : Card β ν} (hp : s.place i = .loaded q) :
    Sheltered T asks (moverTurn T asks s (i, ())) := by
  have hnot : (moverTurn T asks s (i, ())).place (!i) = s.place !i := place_turn_not
  have hself : (moverTurn T asks s (i, ())).place i = .copied q := by
    rw [turn_place_self, hp, moverStep]
    split <;> rfl
  have hcard : (moverTurn T asks s (i, ())).shared.card = s.shared.card := by
    rw [turn_shared, hp, moverStep]
    split <;> rfl
  have hcopies : ∀ x, x ∈ (moverTurn T asks s (i, ())).shared.copies ↔
      x ∈ s.shared.copies ∨ (asks i).target T q = some x := by
    intro x
    rw [turn_shared, hp, moverStep]
    split
    · rename_i ht
      simp [ht]
    · rename_i t ht
      simp [ht, or_comm, eq_comm]
  refine ⟨?_, fun k p t hk ht => ?_, fun k p hk => ?_, fun hpub => ?_⟩
  · rw [hcard, hcopies]
    exact .inl h.here
  · rw [hcopies]
    rcases Bool.eq_or_eq_not k i with rfl | rfl
    · rw [hself] at hk
      cases hk
      exact .inr ht
    · rw [hnot] at hk
      exact .inl (h.ready _ p t hk ht)
  · rcases Bool.eq_or_eq_not k i with rfl | rfl
    · rw [hself] at hk
      cases hk
    · rw [hnot] at hk
      rw [hcard, Bool.not_not, hself]
      refine ⟨(h.apart _ p hk).1, fun q' t hq' ht => ?_⟩
      cases hq'
      -- the other request removes where it first found the item
      have hi : (s.place i).Uncommitted := by rw [hp]; trivial
      rw [ho.source _ p hk (by rw [Bool.not_not]; exact hi)]
      obtain ⟨hlive, hq⟩ := ho.read i q (.inl hp)
      exact target_ne_start hr hclash hlive (hq.imp id And.right) ht
  · rcases (hcopies _).mp hpub with hpub | ht
    · refine (h.shown hpub).imp (by rw [hcard]; exact id) ?_
      rintro ⟨k, p, hk⟩
      rcases Bool.eq_or_eq_not k i with rfl | rfl
      · rw [hp] at hk
        rcases hk with ⟨hk, -⟩ | ⟨hk, -⟩ <;> cases hk
      · exact ⟨!i, p, by rw [hnot]; exact hk⟩
    · exact .inr ⟨i, q, .inr ⟨hself, ht⟩⟩

theorem Sheltered.commit (h : Sheltered T asks s) (ho : Origin T asks r s) (hr : r.AtHome T)
    (hclash : Compatible T asks r) {i : Bool} {q : Card β ν} (hp : s.place i = .copied q) :
    Sheltered T asks (moverTurn T asks s (i, ())) := by
  have hnot : (moverTurn T asks s (i, ())).place (!i) = s.place !i := place_turn_not
  have hi : (s.place i).Uncommitted := by rw [hp]; trivial
  have hself : (moverTurn T asks s (i, ())).place i =
      if ((asks i).target T q).isSome then .committed q else .finished := by
    rw [turn_place_self, hp, moverStep]
  have hshared : (moverTurn T asks s (i, ())).shared =
      { s.shared with card := (asks i).commit T q s.shared.card } := by
    rw [turn_shared, hp, moverStep]
  have hcopied : ∀ p, (moverTurn T asks s (i, ())).place i ≠ .copied p := by
    intro p
    rw [hself]
    split <;> simp
  refine ⟨?_, fun k p t hk ht => ?_, fun k p hk => ?_, ?_⟩
  · rw [hshared]
    change ((asks i).target T q).getD s.shared.card.bucket ∈ s.shared.copies
    cases ht : (asks i).target T q with
    | none => exact h.here
    | some t => exact h.ready i q t hp ht
  · rcases Bool.eq_or_eq_not k i with rfl | rfl
    · exact absurd hk (hcopied p)
    · rw [hnot] at hk
      rw [hshared]
      exact h.ready _ p t hk ht
  · rw [hshared]
    change ((asks i).target T q).getD s.shared.card.bucket ≠ p.bucket ∧ _
    rcases Bool.eq_or_eq_not k i with rfl | rfl
    · cases ht : (asks k).target T q with
      | none => simp [hself, ht] at hk
      | some t =>
        simp only [hself, ht, Option.isSome_some, if_true, MoverPlace.committed.injEq] at hk
        subst hk
        refine ⟨target_ne_bucket ht, fun q' t' hq' ht' => ?_⟩
        -- neither request had committed, so both had read the first card
        rw [hnot] at hq'
        have hj : (s.place !k).Uncommitted := by rw [hq']; trivial
        have hq : q = r := ((ho.read k q (.inr hp)).2).resolve_right fun hc => hc.1 hj
        have hq'r : q' = r := ((ho.read _ q' (.inr hq')).2).resolve_right fun hc =>
          hc.1 (by rw [Bool.not_not]; exact hi)
        rw [hq, ← hq'r]
        exact target_ne_bucket ht'
    · rw [hnot] at hk
      obtain ⟨hne, hnext⟩ := h.apart _ p hk
      rw [Bool.not_not] at hnext ⊢
      refine ⟨?_, fun q' t hq' => absurd hq' (hcopied q')⟩
      cases ht : (asks i).target T q with
      | none => exact hne
      | some t => exact hnext q t hp ht
  · rw [hshared]
    intro hpub
    have hleaves : ((asks i).target T q).isSome = true ∧ q.bucket = T.home T.pub →
        ∃ k p, (moverTurn T asks s (i, ())).place k = .committed p ∧ p.bucket = T.home T.pub ∨
          (moverTurn T asks s (i, ())).place k = .copied p ∧
            (asks k).target T p = some (T.home T.pub) :=
      fun hl => ⟨i, q, .inl ⟨by rw [hself, if_pos hl.1], hl.2⟩⟩
    rcases h.shown hpub with hcard | ⟨k, p, hk⟩
    · exact (commit_over ho hr hclash hp hcard).imp id hleaves
    · rcases Bool.eq_or_eq_not k i with rfl | rfl
      · rw [hp] at hk
        rcases hk with ⟨hk, -⟩ | ⟨hk, ht⟩
        · cases hk
        · cases hk
          exact .inl (commit_to_public ho hclash hp ht)
      · exact .inr ⟨!i, p, by rw [hnot]; exact hk⟩

theorem Sheltered.remove (h : Sheltered T asks s) {i : Bool} {q : Card β ν}
    (hp : s.place i = .committed q) : Sheltered T asks (moverTurn T asks s (i, ())) := by
  have hnot : (moverTurn T asks s (i, ())).place (!i) = s.place !i := place_turn_not
  obtain ⟨hne, hnext⟩ := h.apart i q hp
  have hself : (moverTurn T asks s (i, ())).place i = .finished := by
    rw [turn_place_self, hp, moverStep]
  have hshared : (moverTurn T asks s (i, ())).shared =
      { s.shared with copies := s.shared.copies.erase q.bucket } := by
    rw [turn_shared, hp, moverStep]
  refine ⟨?_, fun k p t hk ht => ?_, fun k p hk => ?_, ?_⟩
  · rw [hshared]
    exact Finset.mem_erase.mpr ⟨hne, h.here⟩
  · rcases Bool.eq_or_eq_not k i with rfl | rfl
    · rw [hself] at hk
      cases hk
    · rw [hnot] at hk
      rw [hshared]
      exact Finset.mem_erase.mpr ⟨hnext p t hk ht, h.ready _ p t hk ht⟩
  · rcases Bool.eq_or_eq_not k i with rfl | rfl
    · rw [hself] at hk
      cases hk
    · rw [hnot] at hk
      rw [hshared, Bool.not_not, hself]
      exact ⟨(h.apart _ p hk).1, fun q' t hq' => nomatch hq'⟩
  · rw [hshared]
    intro hpub
    obtain ⟨hpub', hmem⟩ := Finset.mem_erase.mp hpub
    refine (h.shown hmem).imp id ?_
    rintro ⟨k, p, hk⟩
    rcases Bool.eq_or_eq_not k i with rfl | rfl
    · rw [hp] at hk
      rcases hk with ⟨hk, hb⟩ | ⟨hk, -⟩
      · cases hk
        exact absurd hb.symm hpub'
      · cases hk
    · exact ⟨!i, p, by rw [hnot]; exact hk⟩

theorem Sheltered.turn (h : Sheltered T asks s) (ho : Origin T asks r s) (hr : r.AtHome T)
    (hclash : Compatible T asks r) (i : Bool) :
    Sheltered T asks (moverTurn T asks s (i, ())) := by
  cases hp : s.place i with
  | idle =>
    have hstep : moverStep T asks i s.shared .idle () = (s.shared, .refused) ∨
        moverStep T asks i s.shared .idle () = (s.shared, .loaded s.shared.card) := by
      by_cases ha : asks i = .refused ∨ s.shared.card.live = false
      · exact .inl (moverStep_refused ha)
      · rw [not_or, Bool.not_eq_false] at ha
        exact .inr (moverStep_idle ha.1 ha.2)
    refine h.keep ?_ ?_ ?_ <;> rcases hstep with hs | hs <;> simp [hs, hp]
  | finished => refine h.keep ?_ ?_ ?_ <;> simp [moverStep, hp]
  | refused => refine h.keep ?_ ?_ ?_ <;> simp [moverStep, hp]
  | loaded q => exact h.copy ho hr hclash hp
  | copied q => exact h.commit ho hr hclash hp
  | committed q => exact h.remove hp

end Safety

/-! ### Every interleaving -/

section Runs

variable {T} {asks : Bool → Ask ν} {r : Card β ν} {copies : Finset β}

/-- Both requests before their first read. -/
def moverStart (r : Card β ν) (copies : Finset β) :
    Parties Bool (TierState β ν) (MoverPlace β ν) :=
  ⟨⟨r, copies⟩, fun _ => .idle⟩

def MoverPlace.Ended : MoverPlace β ν → Prop
  | .finished | .refused => True
  | _ => False

theorem origin_run (T : Tiers β ν) (asks : Bool → Ask ν) (r : Card β ν) (copies : Finset β)
    (is : List (Bool × Unit)) :
    Origin T asks r (run (moverTurn T asks) (moverStart r copies) is) := by
  have hstart : Origin T asks r (moverStart r copies) := by
    refine ⟨fun _ => rfl, fun _ hi => absurd trivial hi, fun _ _ hi => ?_, ?_⟩
    · cases hi
    · rintro _ _ (hi | hi) <;> cases hi
  exact (always_of_inv (I := Origin T asks r) (fun _ m h => h.turn m.1) hstart is).last

/-- Requests that do not clash leave a lawful state, however their steps fall. -/
theorem lawful_run (hr : r.AtHome T) (hlawful : (⟨r, copies⟩ : TierState β ν).Lawful T)
    (hclash : Compatible T asks r) (is : List (Bool × Unit))
    (hend : ∀ i, ((run (moverTurn T asks) (moverStart r copies) is).place i).Ended) :
    (run (moverTurn T asks) (moverStart r copies) is).shared.Lawful T := by
  have hstart : Sheltered T asks (moverStart r copies) := by
    refine ⟨hlawful.1, fun _ _ _ hi => ?_, fun _ _ hi => ?_, fun hpub => .inl (hlawful.2 hpub)⟩
    · cases hi
    · cases hi
  have hrun : Origin T asks r (run (moverTurn T asks) (moverStart r copies) is) ∧
      Sheltered T asks (run (moverTurn T asks) (moverStart r copies) is) :=
    (always_of_inv (I := fun s => Origin T asks r s ∧ Sheltered T asks s)
      (fun _ m h => ⟨h.1.turn m.1, h.2.turn h.1 hr hclash m.1⟩)
      ⟨origin_run T asks r copies [], hstart⟩ is).last
  refine hrun.2.lawful fun i => ?_
  have hi := hend i
  cases hp : (run (moverTurn T asks) (moverStart r copies) is).place i with
  | finished => exact .inl rfl
  | refused => exact .inr rfl
  | idle | loaded _ | copied _ | committed _ => rw [hp] at hi; exact hi.elim

end Runs

end MediaService
