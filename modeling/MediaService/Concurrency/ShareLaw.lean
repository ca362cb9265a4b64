import Mathlib.Algebra.BigOperators.Ring.Finset
import MediaService.Concurrency.ShareRace
import MediaService.Scenario

/-! Use accounting of a share link. The update looks at the row it changes, so
what an earlier check has read does not matter: a use is counted only while the
link is neither revoked nor expired nor exhausted, and a URL is handed out only
against a counted use. -/

namespace MediaService

open Foundation

/-! ### One turn and one link -/

section Step

variable {db : Database} {tokenId : UUID} {row : ShareToken}

/-- What the update's condition asks of the row. -/
def ShareToken.Resolvable (row : ShareToken) (now : Timestamp) : Prop :=
  row.revoked = false ∧ now < row.expiresAt ∧ ∀ n, row.maxUses = some n → row.uses < n

theorem consumeUse_eq_some {now : Timestamp} {db' : Database}
    (hrow : db.shares.find tokenId = some row) :
    consumeUse db now tokenId = some db' ↔ row.Resolvable now ∧
      db' = { db with shares := db.shares.update { row with uses := row.uses + 1 } } := by
  have hmax : row.maxUses.all (fun n => decide (row.uses < n)) = true ↔
      ∀ n, row.maxUses = some n → row.uses < n := by
    cases row.maxUses <;> simp
  unfold consumeUse ShareToken.Resolvable
  rw [hrow]
  dsimp only
  split
  · rename_i h
    rw [hmax] at h
    simp only [Bool.not_eq_true', Option.some.injEq] at h ⊢
    exact ⟨fun he => ⟨h, he.symm⟩, fun he => he.2.symm⟩
  · rename_i h
    rw [hmax] at h
    simp only [Bool.not_eq_true', reduceCtorEq, false_iff, not_and] at h ⊢
    exact fun hr => absurd hr.2.2 (h hr.1 hr.2.1)

/-- What a turn does to one link's row: nothing, one more use by an update that
matched, or its revocation. -/
theorem shareStep_row (settings : Settings) (hrow : db.shares.find tokenId = some row)
    (place : SharePlace) (m : ShareTurn) :
    ∃ row', (shareStep settings db place m).1.shares.find tokenId = some row' ∧
      ((row' = row ∧
          (shareStep settings db place m).2.usedLink tokenId = place.usedLink tokenId ∧
          ((shareStep settings db place m).2.revokedLink tokenId = true →
            place.revokedLink tokenId = true ∨ row.revoked = true)) ∨
        (∃ o, place = .consume tokenId o ∧ row.Resolvable m.now ∧
          row' = { row with uses := row.uses + 1 } ∧
          (shareStep settings db place m).2 = .matched tokenId o) ∨
        (place = .revoke tokenId ∧ row' = { row with revoked := true } ∧
          (shareStep settings db place m).2 = .revoked tokenId)) := by
  have hid : row.id = tokenId := Table.key_of_find hrow
  cases place with
  | check k =>
    refine ⟨row, ?_⟩
    rw [shareStep]
    cases loadActiveShare db m.now k <;>
      exact ⟨hrow, .inl ⟨rfl, rfl, fun h => .inl h⟩⟩
  | object k objectId =>
    refine ⟨row, ?_⟩
    rw [shareStep]
    cases db.objects.find objectId with
    | none => exact ⟨hrow, .inl ⟨rfl, rfl, fun h => .inl h⟩⟩
    | some o =>
      dsimp only
      split_ifs <;> exact ⟨hrow, .inl ⟨rfl, rfl, fun h => .inl h⟩⟩
  | consume k o =>
    rw [shareStep]
    cases hconsume : consumeUse db m.now k with
    | none => exact ⟨row, hrow, .inl ⟨rfl, rfl, fun h => .inl h⟩⟩
    | some db' =>
      dsimp only
      by_cases hk : k = tokenId
      · subst hk
        obtain ⟨hres, rfl⟩ := (consumeUse_eq_some hrow).mp hconsume
        refine ⟨{ row with uses := row.uses + 1 }, ?_, .inr (.inl ⟨o, rfl, hres, rfl, rfl⟩)⟩
        rw [← hid] at hrow ⊢
        exact Table.find_update_self hrow
      · cases hother : db.shares.find k with
        | none => simp [consumeUse, hother] at hconsume
        | some other =>
          obtain ⟨-, rfl⟩ := (consumeUse_eq_some hother).mp hconsume
          refine ⟨row, ?_, .inl ⟨rfl, by simp [SharePlace.usedLink, hk], fun h => ?_⟩⟩
          · rw [Table.find_update_ne (by simpa [Table.key_of_find hother] using Ne.symm hk)]
            exact hrow
          · exact .inl h
  | matched k o =>
    refine ⟨row, hrow, .inl ⟨rfl, ?_, fun h => ?_⟩⟩
    · cases hm : m.fails <;> simp [shareStep, hm, SharePlace.usedLink]
    · cases hm : m.fails <;> simp [shareStep, hm, SharePlace.revokedLink] at h
  | load user k =>
    rw [shareStep]
    cases hload : loadOwnedShare db user k with
    | error e => exact ⟨row, hrow, .inl ⟨rfl, rfl, fun h => .inl h⟩⟩
    | ok share =>
      dsimp only
      by_cases hrevoked : share.revoked = true
      · refine ⟨row, hrow, .inl ⟨rfl, by simp [hrevoked, SharePlace.usedLink], fun h => .inr ?_⟩⟩
        have hk : k = tokenId := by simpa [hrevoked, SharePlace.revokedLink] using h
        have hshare := find_of_loadOwnedShare hload
        rw [hk, hrow] at hshare
        rw [Option.some.inj hshare]
        exact hrevoked
      · refine ⟨row, hrow, .inl ⟨rfl, by simp [hrevoked, SharePlace.usedLink], fun h => ?_⟩⟩
        simp [hrevoked, SharePlace.revokedLink] at h
  | revoke k =>
    simp only [shareStep, revokeRow, Table.find_modify]
    by_cases hk : k = tokenId
    · subst hk
      exact ⟨{ row with revoked := true }, by simp [hrow], .inr (.inr ⟨rfl, rfl, rfl⟩)⟩
    · refine ⟨row, by rw [if_neg (Ne.symm hk), hrow], .inl ⟨rfl, rfl, fun h => ?_⟩⟩
      exact absurd (by simpa [SharePlace.revokedLink] using h) hk
  | handed k url => exact ⟨row, hrow, .inl ⟨rfl, rfl, fun h => .inl h⟩⟩
  | unsigned k => exact ⟨row, hrow, .inl ⟨rfl, rfl, fun h => .inl h⟩⟩
  | refused k e => exact ⟨row, hrow, .inl ⟨rfl, rfl, fun h => .inl h⟩⟩
  | revoked k => exact ⟨row, hrow, .inl ⟨rfl, rfl, fun h => .inl h⟩⟩
  | edit => exact ⟨row, hrow, .inl ⟨rfl, rfl, fun h => .inl h⟩⟩

/-- An update that finds the link revoked or expired is refused. -/
theorem shareStep_consume_refused (settings : Settings)
    (hrow : db.shares.find tokenId = some row) (o : MediaObject) {m : ShareTurn}
    (h : row.revoked = true ∨ row.expiresAt ≤ m.now) :
    ∃ e, (shareStep settings db (.consume tokenId o) m).2 = .refused tokenId e := by
  rw [shareStep]
  cases hconsume : consumeUse db m.now tokenId with
  | none => exact ⟨_, rfl⟩
  | some db' =>
    obtain ⟨⟨hlive, hnow, -⟩, -⟩ := (consumeUse_eq_some hrow).mp hconsume
    rcases h with h | h
    · simp [h] at hlive
    · exact absurd hnow (Int.not_lt.mpr h)

end Step

/-! ### Many turns -/

section Law

variable {ι : Type*} [DecidableEq ι] {settings : Settings} {tokenId : UUID}

def usesOf (tokenId : UUID) (s : ShareRace ι) : ℕ :=
  ((s.shared.shares.find tokenId).map ShareToken.uses).getD 0

/-- Whether the turn is a conditional update that matches the link's row. -/
def updateMatches (tokenId : UUID) (s : ShareRace ι) (m : ι × ShareTurn) : Bool :=
  match s.place m.1 with
  | .consume k _ => k = tokenId ∧ (consumeUse s.shared m.2.now k).isSome
  | _ => false

/-- How many resolutions have handed out a URL for the link. -/
def handedOut [Fintype ι] (tokenId : UUID) (s : ShareRace ι) : ℕ :=
  (Finset.univ.filter fun i => (s.place i).handedLink tokenId = true).card

/-- What every turn keeps of a link minted as `share`: its limits, one use for
every resolution past its update, and the mark of a committed revocation. -/
def LinkKept [Fintype ι] (share : ShareToken) (s : ShareRace ι) : Prop :=
  ∃ row, s.shared.shares.find share.id = some row ∧ row.maxUses = share.maxUses ∧
    row.expiresAt = share.expiresAt ∧ (∀ n, share.maxUses = some n → row.uses ≤ n) ∧
    (row.uses : ℤ) = ∑ i, (if (s.place i).usedLink share.id = true then 1 else 0) ∧
    ∀ i, (s.place i).revokedLink share.id = true → row.revoked = true

theorem linkKept_turn [Fintype ι] {share : ShareToken} {s : ShareRace ι} (h : LinkKept share s)
    (m : ι × ShareTurn) : LinkKept share (shareTurn settings s m) := by
  obtain ⟨row, hrow, hmax, hexpires, hle, huses, hrevoked⟩ := h
  obtain ⟨i, m⟩ := m
  obtain ⟨row', hrow', hcase⟩ := shareStep_row settings hrow (s.place i) m
  have hsum : ∑ j, (if ((shareTurn settings s (i, m)).place j).usedLink share.id = true then
        (1 : ℤ) else 0) = ∑ j, (if (s.place j).usedLink share.id = true then 1 else 0) +
      ((if (shareStep settings s.shared (s.place i) m).2.usedLink share.id = true then 1 else 0) -
        if (s.place i).usedLink share.id = true then 1 else 0) :=
    sum_place_turn (fun p => if p.usedLink share.id = true then 1 else 0) s i m
  have hplaces : ∀ {r : ShareToken}, (row.revoked = true → r.revoked = true) →
      ((shareStep settings s.shared (s.place i) m).2.revokedLink share.id = true →
        r.revoked = true) →
      ∀ j, ((shareTurn settings s (i, m)).place j).revokedLink share.id = true →
        r.revoked = true := by
    intro r hkeep hown j hj
    by_cases hji : j = i
    · subst hji
      exact hown (by simpa [shareTurn] using hj)
    · rw [shareTurn, turn_place_ne s hji] at hj
      exact hkeep (hrevoked j hj)
  refine ⟨row', by simpa [shareTurn] using hrow', ?_⟩
  rcases hcase with ⟨rfl, hused, hown⟩ | ⟨o, hplace, hres, rfl, hnext⟩ | ⟨hplace, rfl, hnext⟩
  · refine ⟨hmax, hexpires, hle, ?_, hplaces id fun hr => (hown hr).elim (hrevoked i) id⟩
    rw [huses, hsum, hused, sub_self, add_zero]
  · refine ⟨hmax, hexpires, fun n hn => ?_, ?_, hplaces id fun hr => ?_⟩
    · exact hres.2.2 n (hmax.trans hn)
    · rw [hsum, hnext, hplace, ← huses]
      simp [SharePlace.usedLink]
    · rw [hnext] at hr
      cases hr
  · refine ⟨hmax, hexpires, hle, ?_, hplaces (fun _ => rfl) fun _ => rfl⟩
    rw [hsum, hnext, hplace, ← huses]
    simp [SharePlace.usedLink]

/-- An update that matches adds one to the uses; no other turn touches them. -/
theorem usesOf_turn [Fintype ι] {share : ShareToken} {s : ShareRace ι} (h : LinkKept share s)
    (m : ι × ShareTurn) :
    usesOf share.id (shareTurn settings s m) =
      usesOf share.id s + (updateMatches share.id s m).toNat := by
  obtain ⟨row, hrow, -⟩ := h
  obtain ⟨i, m⟩ := m
  obtain ⟨row', hrow', hcase⟩ := shareStep_row settings hrow (s.place i) m
  have hafter : usesOf share.id (shareTurn settings s (i, m)) = row'.uses := by
    simp [usesOf, shareTurn, hrow']
  have hbefore : usesOf share.id s = row.uses := by simp [usesOf, hrow]
  rw [hafter, hbefore, updateMatches]
  rcases hcase with ⟨rfl, hused, -⟩ | ⟨o, hplace, hres, rfl, -⟩ | ⟨hplace, rfl, -⟩
  · dsimp only
    split
    · rename_i k o hplace
      by_cases hk : k = share.id
      · subst hk
        cases hconsume : consumeUse s.shared m.now share.id with
        | none => simp
        | some db' => simp [hplace, shareStep, hconsume, SharePlace.usedLink] at hused
      · simp [hk]
    · rfl
  · simp [hplace, (consumeUse_eq_some hrow).mpr ⟨hres, rfl⟩]
  · simp [hplace]

omit [DecidableEq ι] in
theorem linkKept_start [Fintype ι] {db : Database} {share : ShareToken}
    (hshare : db.shares.find share.id = some share) (hfresh : share.uses = 0)
    (requests : ι → ShareRequest) : LinkKept share (shareStart db requests) := by
  have hused : ∀ i, (requests i).start.usedLink share.id = false := by
    intro i
    cases requests i <;> rfl
  have hrevoked : ∀ i, (requests i).start.revokedLink share.id = false := by
    intro i
    cases requests i <;> rfl
  refine ⟨share, hshare, rfl, rfl, fun n _ => hfresh ▸ Nat.zero_le n, ?_, fun i hi => ?_⟩
  · simp [shareStart, hused, hfresh]
  · rw [shareStart, hrevoked i] at hi
    cases hi

theorem linkKept_run [Fintype ι] (settings : Settings) {share : ShareToken} {s : ShareRace ι}
    (h : LinkKept share s) (ms : List (ι × ShareTurn)) :
    LinkKept share (run (shareTurn settings) s ms) := by
  have halways : Always (shareTurn settings) (LinkKept share) s ms :=
    always_of_inv (I := LinkKept share) (fun _ m h => linkKept_turn h m) h ms
  exact halways.last

omit [DecidableEq ι] in
/-- Who has handed out a URL is past an update that matched. -/
theorem handedOut_le_uses [Fintype ι] {share row : ShareToken} {s : ShareRace ι}
    (h : LinkKept share s) (hrow : s.shared.shares.find share.id = some row) :
    handedOut share.id s ≤ row.uses := by
  obtain ⟨row', hrow', -, -, -, huses, -⟩ := h
  obtain rfl := Option.some.inj (hrow'.symm.trans hrow)
  have hcard : handedOut share.id s ≤
      (Finset.univ.filter fun i => (s.place i).usedLink share.id = true).card := by
    refine Finset.card_le_card fun i hi => ?_
    simp only [Finset.mem_filter, Finset.mem_univ, true_and] at hi ⊢
    cases hplace : s.place i <;> rw [hplace] at hi <;>
      simp_all [SharePlace.handedLink, SharePlace.usedLink]
  have hsum : ((Finset.univ.filter fun i => (s.place i).usedLink share.id = true).card : ℤ) =
      row'.uses := by
    rw [huses, Finset.natCast_card_filter]
  omega

/-- A refused resolution stays refused. -/
theorem refused_run {s : ShareRace ι} {i : ι} {e : Failure}
    (h : s.place i = .refused tokenId e) (ms : List (ι × ShareTurn)) :
    (run (shareTurn settings) s ms).place i = .refused tokenId e := by
  have halways : Always (shareTurn settings)
      (fun s : ShareRace ι => s.place i = .refused tokenId e) s ms := by
    refine always_of_inv (I := fun s : ShareRace ι => s.place i = .refused tokenId e)
      (fun s m h => ?_) h ms
    obtain ⟨j, m⟩ := m
    by_cases hj : i = j
    · subst hj
      rw [shareTurn, turn_place_self, h]
      rfl
    · rw [shareTurn, turn_place_ne s hj, h]
  exact halways.last

/-- In any interleaving of resolutions, revocations and edits of the objects, a
minted link's row counts the updates that matched, up to its limit; no more URLs
are handed out than that; and a resolution whose update runs once the link is
revoked or expired is refused and stays so. -/
theorem share_uses_bounded [Fintype ι] (settings : Settings) {db : Database} {share : ShareToken}
    (hshare : db.shares.find share.id = some share) (hfresh : share.uses = 0)
    (requests : ι → ShareRequest) (ms : List (ι × ShareTurn)) :
    let s := run (shareTurn settings) (shareStart db requests) ms
    (∃ row, s.shared.shares.find share.id = some row ∧
      row.uses = tally (shareTurn settings) (updateMatches share.id) (shareStart db requests) ms ∧
      handedOut share.id s ≤ row.uses ∧ ∀ n, share.maxUses = some n → row.uses ≤ n) ∧
    ∀ before i m after o, ms = before ++ (i, m) :: after →
      (run (shareTurn settings) (shareStart db requests) before).place i = .consume share.id o →
      ((∃ j, ((run (shareTurn settings) (shareStart db requests) before).place j).revokedLink
        share.id = true) ∨ share.expiresAt ≤ m.now) →
      ∃ e, s.place i = .refused share.id e := by
  have hstart := linkKept_start hshare hfresh requests
  refine ⟨?_, fun before i m after o hms hplace hlate => ?_⟩
  · have hkept := linkKept_run settings hstart ms
    obtain ⟨row, hrow, -, -, hle, -⟩ := id hkept
    refine ⟨row, hrow, ?_, handedOut_le_uses hkept hrow, hle⟩
    have hend : usesOf share.id (run (shareTurn settings) (shareStart db requests) ms) =
        row.uses := by rw [usesOf, hrow, Option.map_some, Option.getD_some]
    have hbegin : usesOf share.id (shareStart db requests) = 0 := by
      rw [usesOf, shareStart, hshare, Option.map_some, Option.getD_some, hfresh]
    have hcount : usesOf share.id (run (shareTurn settings) (shareStart db requests) ms) =
        usesOf share.id (shareStart db requests) +
          tally (shareTurn settings) (updateMatches share.id) (shareStart db requests) ms :=
      eq_add_tally (fun _ m h => linkKept_turn h m) (fun _ m h => usesOf_turn h m) hstart ms
    rw [← hend, hcount, hbegin, Nat.zero_add]
  · subst hms
    obtain ⟨row, hrow, -, hexpires, -, -, hrevoked⟩ :=
      linkKept_run settings hstart before
    have hdead : row.revoked = true ∨ row.expiresAt ≤ m.now := by
      rcases hlate with ⟨j, hj⟩ | hexpired
      · exact .inl (hrevoked j hj)
      · exact .inr (hexpires ▸ hexpired)
    obtain ⟨e, he⟩ := shareStep_consume_refused settings hrow o hdead
    refine ⟨e, ?_⟩
    rw [run_append, run_cons]
    refine refused_run ?_ after
    rw [shareTurn, turn_place_self, hplace, he]

end Law

/-- A link with one use left to give, on a clean object. -/
def singleUse : ShareToken where
  id := ⟨7⟩
  mediaObjectId := ⟨3⟩
  ownerUserId := ⟨1⟩
  tenantId := none
  expiresAt := 100
  maxUses := some 1
  uses := 0
  revoked := false
  createdAt := 0

def sharedObject : MediaObject where
  id := ⟨3⟩
  tenantId := none
  ownerUserId := ⟨1⟩
  category := .asset
  visibility := .private
  storageBucket := "private-media"
  objectKey := "users/1/asset/3/original/a.png"
  originalFilename := some "a.png"
  mimeType := "image/png"
  sizeBytes := 4
  sha256 := none
  status := .ready
  scanStatus := .clean
  createdAt := 0
  updatedAt := 0
  deletedAt := none

def singleUseDatabase : Database :=
  { Database.empty with
    objects := ⟨[sharedObject], by decide⟩
    shares := ⟨[singleUse], by decide⟩ }

/-- Two resolutions that both pass the checks before either updates. -/
def crossingResolutions : List (Bool × ShareTurn) :=
  [false, false, true, true, false, true, false, true].map fun i => (i, ⟨10, false, ∅⟩)

/-- The last use is won once. -/
theorem share_uses_bounded_single_use :
    handedOut singleUse.id (run (shareTurn Settings.default)
        (shareStart singleUseDatabase fun _ : Bool => .resolve singleUse.id)
        crossingResolutions) = 1 ∧
      ∃ row, (run (shareTurn Settings.default)
          (shareStart singleUseDatabase fun _ : Bool => .resolve singleUse.id)
          crossingResolutions).shared.shares.find singleUse.id = some row ∧ row.uses ≤ 1 := by
  obtain ⟨⟨row, hrow, -, -, hmax⟩, -⟩ := share_uses_bounded Settings.default
    (show singleUseDatabase.shares.find singleUse.id = some singleUse by decide +kernel) rfl
    (fun _ : Bool => .resolve singleUse.id) crossingResolutions
  exact ⟨by decide +kernel, row, hrow, hmax 1 rfl⟩

end MediaService
