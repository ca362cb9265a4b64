import MediaService.Concurrency.TierMoves

/-! Two requests that clash, and the interleavings that show it. If one takes the
item away and the other, having read that, takes it back, then the first removes
it where it now is. If one takes it to the public tier and both read the card
before either commits, then a public copy stays that no card shows. -/

namespace MediaService

open Foundation

variable {β ν : Type*} [DecidableEq β] [DecidableEq ν] {T : Tiers β ν} {asks : Bool → Ask ν}
  {r : Card β ν} {copies : Finset β}

/-- A copy finds the item where it was read to be. -/
def CopyFinds (T : Tiers β ν) (asks : Bool → Ask ν)
    (s : Parties Bool (TierState β ν) (MoverPlace β ν)) (i : Bool) : Prop :=
  match s.place i with
  | .loaded q => ((asks i).target T q).isSome = true → q.bucket ∈ s.shared.copies
  | _ => True

/-- The places of the request `i` and of the other one. -/
def bothAt (i : Bool) (p p' : MoverPlace β ν) : Bool → MoverPlace β ν :=
  fun k => if k = i then p else p'

omit [DecidableEq β] [DecidableEq ν] in
theorem bothAt_self (i : Bool) (p p' : MoverPlace β ν) : bothAt i p p' i = p := if_pos rfl

omit [DecidableEq β] [DecidableEq ν] in
theorem bothAt_not (i : Bool) (p p' : MoverPlace β ν) : bothAt i p p' (!i) = p' :=
  if_neg (Bool.not_ne_self i)

theorem turn_bothAt (i : Bool) (σ : TierState β ν) (p p' : MoverPlace β ν) :
    moverTurn T asks ⟨σ, bothAt i p p'⟩ (i, ()) =
      ⟨(moverStep T asks i σ p ()).1, bothAt i (moverStep T asks i σ p ()).2 p'⟩ := by
  unfold moverTurn turn
  congr 1
  · simp [bothAt]
  · funext k
    by_cases hk : k = i <;> simp [bothAt, hk]

theorem turn_bothAt_not (i : Bool) (σ : TierState β ν) (p p' : MoverPlace β ν) :
    moverTurn T asks ⟨σ, bothAt i p p'⟩ (!i, ()) =
      ⟨(moverStep T asks (!i) σ p' ()).1, bothAt i p (moverStep T asks (!i) σ p' ()).2⟩ := by
  unfold moverTurn turn
  congr 1
  · simp [bothAt]
  · funext k
    rcases Bool.eq_or_eq_not k i with rfl | rfl <;> simp [bothAt]

/-- One request takes the item away from `b` and the other, starting after its
commit, takes it back there before the first removes what is at `b`. -/
def backAgain (i : Bool) : List (Bool × Unit) :=
  [i, i, i, !i, !i, !i, !i, i].map fun k => (k, ())

/-- Both requests read the same card and copy, and then commit and remove in turn. -/
def sideBySide (i : Bool) : List (Bool × Unit) :=
  [i, !i, i, !i, i, !i, i, !i].map fun k => (k, ())

omit [DecidableEq β] [DecidableEq ν] in
theorem moverStart_eq (i : Bool) :
    moverStart r copies = ⟨⟨r, copies⟩, bothAt i .idle .idle⟩ := by
  unfold moverStart bothAt
  congr 1
  funext k
  rw [ite_self]

theorem run_backAgain {i : Bool} {v w : ν} (hi : asks i = .become v) (hj : asks (!i) = .become w)
    (hlive : r.live = true) (hr : r.AtHome T) (hv : T.home v ≠ T.home r.visibility)
    (hw : T.home w = T.home r.visibility) :
    run (moverTurn T asks) (moverStart r copies) (backAgain i) =
      ⟨⟨⟨w, T.home w, true⟩, ((insert (T.home w) (insert (T.home v) copies)).erase
        (T.home v)).erase (T.home w)⟩, bothAt i .finished .finished⟩ := by
  have hhome := hr hlive
  have hne : v ≠ r.visibility := fun he => hv (by rw [he])
  have hne' : w ≠ v := fun he => hv (by rw [← he, hw])
  have hv' : T.home v ≠ T.home w := by rw [hw]; exact hv
  rw [moverStart_eq i]
  simp [backAgain, turn_bothAt, turn_bothAt_not, moverStep, hi, hj, Ask.target, Ask.commit, hlive,
    hne, hne', hhome, ← hw, hv', Ne.symm hv']

theorem guarded_backAgain {i : Bool} {v w : ν} (hi : asks i = .become v)
    (hj : asks (!i) = .become w) (hlive : r.live = true) (hr : r.AtHome T)
    (hmem : r.bucket ∈ copies) (hv : T.home v ≠ T.home r.visibility)
    (hw : T.home w = T.home r.visibility) :
    Guarded (moverTurn T asks) (fun s m => CopyFinds T asks s m.1) (moverStart r copies)
      (backAgain i) := by
  have hhome := hr hlive
  have hne : v ≠ r.visibility := fun he => hv (by rw [he])
  have hne' : w ≠ v := fun he => hv (by rw [← he, hw])
  have hv' : T.home v ≠ T.home w := by rw [hw]; exact hv
  rw [hhome, ← hw] at hmem
  rw [moverStart_eq i]
  simp [backAgain, Guarded, turn_bothAt, turn_bothAt_not, CopyFinds, bothAt_self, bothAt_not,
    moverStep, hi, hj, Ask.target, Ask.commit, hlive, hne, hne', hhome, ← hw, hv', Ne.symm hv',
    hmem]

theorem moverStep_loaded {k : Bool} {σ : TierState β ν} {q : Card β ν} {t : β}
    (h : (asks k).target T q = some t) :
    moverStep T asks k σ (.loaded q) () = ({ σ with copies := insert t σ.copies }, .copied q) := by
  rw [moverStep, h]

theorem moverStep_copied {k : Bool} {σ : TierState β ν} {q : Card β ν} {t : β}
    (h : (asks k).target T q = some t) : moverStep T asks k σ (.copied q) () =
      ({ σ with card := (asks k).commit T q σ.card }, .committed q) := by
  rw [moverStep, h]
  rfl

theorem moverStep_committed {k : Bool} {σ : TierState β ν} {q : Card β ν} :
    moverStep T asks k σ (.committed q) () =
      ({ σ with copies := σ.copies.erase q.bucket }, .finished) := rfl

/-- One request takes the item to the public tier, the other elsewhere, and both
read the card before either commits: the public copy stays. -/
theorem run_sideBySide (copies : Finset β) {i : Bool} {t : β} (hi : asks i = .become T.pub)
    (hj : (asks !i).target T r = some t) (hlive : r.live = true) (hr : r.AtHome T)
    (hpub : T.pub ≠ r.visibility) :
    run (moverTurn T asks) (moverStart r copies) (sideBySide i) =
        ⟨⟨(asks !i).commit T r ⟨T.pub, T.home T.pub, true⟩,
          ((insert t (insert (T.home T.pub) copies)).erase r.bucket).erase r.bucket⟩,
            bothAt i .finished .finished⟩ ∧
      (r.bucket ∈ copies → Guarded (moverTurn T asks) (fun s m => CopyFinds T asks s m.1)
        (moverStart r copies) (sideBySide i)) := by
  have hhome := hr hlive
  have hpub' : T.home T.pub ≠ T.home r.visibility :=
    fun he => hpub (T.home_eq_pub _ he.symm).symm
  have hidle : moverStep T asks i ⟨r, copies⟩ .idle () = (⟨r, copies⟩, .loaded r) :=
    moverStep_idle (by rw [hi]; nofun) hlive
  have hidle' : moverStep T asks (!i) ⟨r, copies⟩ .idle () = (⟨r, copies⟩, .loaded r) :=
    moverStep_idle (fun he => by rw [he] at hj; cases hj) hlive
  have htarget : (asks i).target T r = some (T.home T.pub) := by
    simp [hi, Ask.target, hpub, hhome, hpub']
  have hcommit : (asks i).commit T r r = ⟨T.pub, T.home T.pub, true⟩ := by
    simp [hi, Ask.commit, Ask.target, hpub, hhome, hpub', hlive]
  rw [moverStart_eq i]
  constructor
  · simp [sideBySide, turn_bothAt, turn_bothAt_not, hidle, hidle', moverStep_loaded htarget,
      moverStep_loaded hj, moverStep_copied htarget, moverStep_copied hj, hcommit,
      moverStep_committed]
  · intro hmem
    simp [sideBySide, Guarded, turn_bothAt, turn_bothAt_not, CopyFinds, bothAt_self, bothAt_not,
      hidle, hidle', moverStep_loaded htarget, moverStep_loaded hj, moverStep_copied htarget,
      moverStep_copied hj, hcommit, hmem]

omit [DecidableEq β] [DecidableEq ν] in
theorem Clash.symm {v₀ : ν} {a b : Ask ν} (h : Clash T v₀ a b) : Clash T v₀ b a := by
  cases a <;> cases b
  case become.become v w =>
    obtain ⟨hne, hv | hw | hv | hw⟩ := h
    · exact ⟨hne.symm, .inr (.inl hv)⟩
    · exact ⟨hne.symm, .inl hw⟩
    · exact ⟨hne.symm, .inr (.inr (.inr hv))⟩
    · exact ⟨hne.symm, .inr (.inr (.inl hw))⟩
  all_goals exact h

/-- Some interleaving of two requests, in which no copy misses the item, ends in
a state that is not lawful. -/
def Spoils (T : Tiers β ν) (asks : Bool → Ask ν) (r : Card β ν) (copies : Finset β) : Prop :=
  ∃ is, Guarded (moverTurn T asks) (fun s m => CopyFinds T asks s m.1) (moverStart r copies) is ∧
    (∀ k, ((run (moverTurn T asks) (moverStart r copies) is).place k).Ended) ∧
      ¬ (run (moverTurn T asks) (moverStart r copies) is).shared.Lawful T

omit [DecidableEq β] [DecidableEq ν] in
theorem ended_bothAt (i k : Bool) :
    (bothAt i (.finished : MoverPlace β ν) .finished k).Ended := by
  rw [bothAt, ite_self]
  trivial

theorem spoils_of_way_back {i : Bool} {v w : ν} (hi : asks i = .become v)
    (hj : asks (!i) = .become w) (hlive : r.live = true) (hr : r.AtHome T)
    (hmem : r.bucket ∈ copies) (hne : T.home v ≠ T.home w)
    (hw : T.home w = T.home r.visibility) : Spoils T asks r copies := by
  have hv : T.home v ≠ T.home r.visibility := by rw [← hw]; exact hne
  refine ⟨backAgain i, guarded_backAgain hi hj hlive hr hmem hv hw, ?_⟩
  rw [run_backAgain hi hj hlive hr hv hw]
  refine ⟨ended_bothAt i, fun hlawful => ?_⟩
  exact Finset.notMem_erase _ _ hlawful.1

theorem spoils_of_public {i : Bool} {t : β} (hi : asks i = .become T.pub)
    (hj : (asks !i).target T r = some t) (hlive : r.live = true) (hr : r.AtHome T)
    (hmem : r.bucket ∈ copies) (hpub : T.pub ≠ r.visibility) (ht : t ≠ T.home T.pub) :
    Spoils T asks r copies := by
  obtain ⟨hrun, hguarded⟩ := run_sideBySide copies hi hj hlive hr hpub
  refine ⟨sideBySide i, hguarded hmem, ?_⟩
  rw [hrun]
  refine ⟨ended_bothAt i, fun hlawful => ?_⟩
  have hne : T.home T.pub ≠ r.bucket := by
    rw [hr hlive]
    exact fun he => hpub (T.home_eq_pub _ he.symm).symm
  obtain ⟨hlive', hvis⟩ := hlawful.2 (by simp [hne])
  obtain ⟨w, hask, hne', -, rfl⟩ | ⟨hask, -, -⟩ := Ask.target_eq_some.mp hj
  · rw [hask] at hvis
    simp only [Ask.commit, if_neg hne'] at hvis
    exact ht (by rw [hvis])
  · simp [hask, Ask.commit] at hlive'

theorem spoils_of_becomes {i : Bool} {v w : ν} (hi : asks i = .become v)
    (hj : asks (!i) = .become w) (hlive : r.live = true) (hr : r.AtHome T)
    (hmem : r.bucket ∈ copies) (hne : T.home v ≠ T.home w)
    (hpub : T.home w = T.home r.visibility ∨ v = T.pub) : Spoils T asks r copies := by
  by_cases hback : T.home w = T.home r.visibility
  · exact spoils_of_way_back hi hj hlive hr hmem hne hback
  · obtain rfl := hpub.resolve_left hback
    by_cases hpub' : T.pub = r.visibility
    · -- the other request takes the item away, and this one back
      refine @spoils_of_way_back _ _ _ _ T asks r copies (!i) w T.pub hj ?_ hlive hr hmem hne.symm
        (by rw [hpub'])
      rw [Bool.not_not]
      exact hi
    · refine spoils_of_public hi ?_ hlive hr hmem hpub' hne.symm
      rw [hj, Ask.target, if_neg]
      rw [not_or, hr hlive]
      exact ⟨fun he => hback (by rw [he]), hback⟩

theorem spoils_of_retire {i : Bool} {v : ν} (hi : asks i = .become v) (hj : asks (!i) = .retire)
    (hlive : r.live = true) (hr : r.AtHome T) (hmem : r.bucket ∈ copies) (hv : v = T.pub)
    (hpub : r.visibility ≠ T.pub) : Spoils T asks r copies := by
  subst hv
  refine spoils_of_public hi ?_ hlive hr hmem (Ne.symm hpub) (Ne.symm (T.home_ne_archive T.pub))
  rw [hj, Ask.target, if_neg]
  rw [hr hlive]
  exact T.home_ne_archive _

/-- Requests that clash have an interleaving that spoils the state. -/
theorem spoils_of_clash {i : Bool} (hlive : r.live = true) (hr : r.AtHome T)
    (hmem : r.bucket ∈ copies) (hclash : Clash T r.visibility (asks i) (asks !i)) :
    Spoils T asks r copies := by
  have hswap : asks i = asks (!!i) := by rw [Bool.not_not]
  cases hi : asks i with
  | become v =>
    cases hj : asks !i with
    | become w =>
      rw [hi, hj] at hclash
      obtain ⟨hne, hv | hw | hv | hw⟩ := hclash
      · exact spoils_of_becomes hj (hswap.symm.trans hi) hlive hr hmem hne.symm (.inl hv)
      · exact spoils_of_becomes hi hj hlive hr hmem hne (.inl hw)
      · exact spoils_of_becomes hi hj hlive hr hmem hne (.inr hv)
      · exact spoils_of_becomes hj (hswap.symm.trans hi) hlive hr hmem hne.symm (.inr hw)
    | retire =>
      rw [hi, hj] at hclash
      exact spoils_of_retire hi hj hlive hr hmem hclash.1 hclash.2
    | refused => rw [hi, hj] at hclash; exact hclash.elim
    | stay => rw [hi, hj] at hclash; exact hclash.elim
  | retire =>
    cases hj : asks !i with
    | become w =>
      rw [hi, hj] at hclash
      exact spoils_of_retire hj (hswap.symm.trans hi) hlive hr hmem hclash.1 hclash.2
    | _ => rw [hi, hj] at hclash; exact hclash.elim
  | refused => rw [hi] at hclash; exact hclash.elim
  | stay => rw [hi] at hclash; exact hclash.elim

/-- Compatible requests are those no interleaving of which spoils the state. -/
theorem compatible_iff (hr : r.AtHome T) (hlawful : (⟨r, copies⟩ : TierState β ν).Lawful T) :
    Compatible T asks r ↔ ¬ Spoils T asks r copies := by
  constructor
  · rintro hc ⟨is, -, hend, hunlawful⟩
    exact hunlawful (lawful_run hr hlawful hc is hend)
  · intro hspoils hlive i hclash
    exact hspoils (spoils_of_clash hlive hr hlawful.1 hclash)

end MediaService
