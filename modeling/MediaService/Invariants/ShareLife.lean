import MediaService.Concurrency.ShareLaw
import MediaService.Invariants.HardPurge
import MediaService.Lifecycle.Frames

/-! The life of a share link. From its creation on a link stays itself: nothing changes
its object, owner, expiry or bound, its uses count the resolutions that went through, and
it is revoked once an entitled caller asks. A link that is spent, expired or revoked
never resolves again, and it goes exactly when a purge takes its object. -/

namespace MediaService

open Foundation

variable {env : Env} {w : World} {tokenId : UUID} {s : ShareToken}

/-! ### Resolving -/

section Resolve

variable {settings : Settings} {db : Database} {now : Timestamp}

theorem loadActiveShare_eq_ok :
    loadActiveShare db now tokenId = .ok s ↔
      db.shares.find tokenId = some s ∧ s.Resolvable now := by
  have hmax : s.maxUses.all (fun n => decide (s.uses < n)) = true ↔
      ∀ n, s.maxUses = some n → s.uses < n := by
    cases s.maxUses <;> simp
  constructor
  · intro h
    obtain ⟨hfind, hlive, hlater, hleft⟩ := loadActiveShare_ok h
    exact ⟨hfind, hlive, hlater, hmax.mp hleft⟩
  · rintro ⟨hfind, hlive, hlater, hleft⟩
    have hbound : s.maxUses.any (fun n => decide (n ≤ s.uses)) = false := by
      cases hn : s.maxUses with
      | none => rfl
      | some n => simpa using hleft n hn
    unfold loadActiveShare
    rw [hfind]
    dsimp only
    rw [if_neg (by rw [hlive]; exact Bool.false_ne_true), if_neg (not_le.mpr hlater),
      if_neg (by rw [hbound]; exact Bool.false_ne_true)]

/-- A link resolves exactly while it is resolvable and its object is live and clean. -/
theorem resolveShare_ok_iff :
    (∃ res, resolveShare settings db now tokenId = .ok res) ↔
      ∃ s o, db.shares.find tokenId = some s ∧ s.Resolvable now ∧
        db.objects.find s.mediaObjectId = some o ∧ o.InService := by
  constructor
  · rintro ⟨⟨db', url⟩, h⟩
    obtain ⟨s, hload, -⟩ := resolveShare_updates h
    obtain ⟨hfind, hres⟩ := loadActiveShare_eq_ok.mp hload
    obtain ⟨-, s', o, hfind', ho, hid, hserved, -⟩ := resolveShare_ok h
    obtain rfl := Option.some.inj (hfind.symm.trans hfind')
    exact ⟨s, o, hfind, hres, hid ▸ Table.find_of_mem ho, hserved⟩
  · rintro ⟨s, o, hfind, hres, ho, hlive, hclean⟩
    have hconsume := (consumeUse_eq_some hfind).mpr ⟨hres, rfl⟩
    unfold resolveShare
    rw [loadActiveShare_eq_ok.mpr ⟨hfind, hres⟩]
    dsimp only
    rw [ho]
    dsimp only
    rw [if_neg (by rw [hlive]; exact Bool.false_ne_true), if_neg (not_not.mpr hclean),
      Table.key_of_find hfind, hconsume]
    exact ⟨_, rfl⟩

/-- Without its row a link is not found; with a row that is not resolvable it is
forbidden. -/
theorem resolveShare_dead (h : ∀ s, db.shares.find tokenId = some s → ¬ s.Resolvable now) :
    resolveShare settings db now tokenId = refuse 404 "Share link not found." ∨
      ∃ message, resolveShare settings db now tokenId = refuse 403 message := by
  unfold resolveShare
  cases hload : loadActiveShare db now tokenId with
  | ok s =>
    obtain ⟨hfind, hres⟩ := loadActiveShare_eq_ok.mp hload
    exact absurd hres (h s hfind)
  | error e =>
    unfold loadActiveShare at hload
    split at hload
    · cases hload
      exact .inl rfl
    · split at hload
      · cases hload
        exact .inr ⟨_, rfl⟩
      · split at hload
        · cases hload
          exact .inr ⟨_, rfl⟩
        · split at hload
          · cases hload
            exact .inr ⟨_, rfl⟩
          · cases hload

end Resolve

/-! ### One request -/

/-- The request mints a link under this id. -/
def Request.mints (tokenId : UUID) : Request → Bool
  | .createShare _ id _ _ _ => id = tokenId
  | _ => false

/-- The request revokes the link, by a caller entitled to. -/
def Request.revokes (s : ShareToken) : Request → Bool
  | .revokeShare user id => id = s.id ∧ (user.isSuperuser ∨ s.ownerUserId = user.id)
  | _ => false

/-- The request is a resolution of the link that goes through. -/
def resolves (env : Env) (tokenId : UUID) (w : World) : Request → Bool
  | .resolveShare now id =>
    id = tokenId ∧ (resolveShare env.settings w.backend.db now id).isOk
  | _ => false

theorem resolves_resolveShare (env : Env) (tokenId : UUID) (w : World) (now : Timestamp)
    (id : UUID) : resolves env tokenId w (.resolveShare now id) =
      decide (id = tokenId ∧ (resolveShare env.settings w.backend.db now id).isOk) := rfl

/-- The link as a request leaves it, if it leaves it. -/
def ShareToken.after (env : Env) (w : World) (r : Request) (s : ShareToken) : ShareToken :=
  { s with
    uses := s.uses + (resolves env s.id w r).toNat
    revoked := s.revoked || r.revokes s }

/-- The request purges what it finds deleted before its cutoff, this object among it. -/
def Request.Purges (o : MediaObject) : Request → Prop
  | .hardPurge _ now olderThan _ => isPurgeable (now - olderThan) o = true
  | _ => False

/-- The request purges the object of the link: its row is there before, deleted before
the cutoff, and is not there after. -/
def ShareToken.TakenBy (env : Env) (s : ShareToken) (w : World) (r : Request) : Prop :=
  ∃ o, w.backend.db.objects.find s.mediaObjectId = some o ∧ r.Purges o ∧
    (serve env w r).backend.db.objects.find s.mediaObjectId = none

/-- A hard purge takes exactly the links of the objects it takes. -/
theorem find_shares_hardPurge {faults : Faults} {now olderThan : ℤ} {limit : ℕ}
    (hs : w.backend.db.shares.find s.id = some s) :
    let r : Request := .hardPurge faults now olderThan limit
    s.TakenBy env w r ∧ (serve env w r).backend.db.shares.find s.id = none ∨
      ¬ s.TakenBy env w r ∧ (serve env w r).backend.db.shares.find s.id = some s := by
  intro r
  have hdb : (serve env w r).backend.db = w.backend.db.without
      ((purgeCandidates w.backend.db (now - olderThan) limit).map MediaObject.id) :=
    db_hardPurgeExpired w.backend faults now olderThan limit
  have hmem := Table.mem_of_find hs
  by_cases hin : s.mediaObjectId ∈
      (purgeCandidates w.backend.db (now - olderThan) limit).map MediaObject.id
  · left
    obtain ⟨o, ho, hid⟩ := List.mem_map.mp hin
    obtain ⟨hrow, hpurgeable⟩ :=
      (purgeCandidates_first w.backend.db (now - olderThan) limit).deleted o ho
    refine ⟨⟨o, hid ▸ Table.find_of_mem hrow, hpurgeable, ?_⟩, ?_⟩
    · rw [hdb]
      refine Table.find_eq_none.mpr fun q hq he => ?_
      exact of_decide_eq_true (Table.mem_filter.mp hq).2 (he ▸ hin)
    · rw [hdb]
      refine Table.find_eq_none.mpr fun q hq he => ?_
      obtain ⟨hq, hout⟩ := Table.mem_filter.mp hq
      obtain rfl := Table.eq_of_key_eq hq hmem he
      exact of_decide_eq_true hout hin
  · right
    constructor
    · rintro ⟨o, ho, -, hgone⟩
      rw [hdb] at hgone
      refine Table.find_eq_none.mp hgone o ?_ (Table.key_of_find ho)
      refine Table.mem_filter.mpr ⟨Table.mem_of_find ho, decide_eq_true ?_⟩
      rw [show o.id = s.mediaObjectId from Table.key_of_find ho]
      exact hin
    · rw [hdb]
      exact Table.find_of_mem (Table.mem_filter.mpr ⟨hmem, decide_eq_true hin⟩)

theorem find_shares_createShare {settings : Settings} {db : Database} {now : Timestamp}
    {id objectId : UUID} {user : UserModel} {body : ShareTokenCreate}
    {res : Database × ShareToken}
    (h : createShare settings db now id user objectId body = .ok res) (hne : id ≠ tokenId) :
    res.1.shares.find tokenId = db.shares.find tokenId := by
  obtain ⟨o, t, -, hid, -, -, -, -, -, -, -, -, -, ht, hdb⟩ := createShare_inserts h
  have hshares : res.1.shares = t := congrArg Database.shares hdb
  rw [hshares, Table.find_insert ht, if_neg]
  rw [hid]
  exact hne.symm

theorem ShareToken.after_of_not {r : Request} (hres : resolves env s.id w r = false)
    (hrev : r.revokes s = false) : s.after env w r = s := by
  rw [ShareToken.after, hres, hrev, Bool.or_false]
  rfl

theorem find_shares_revokeShare {user : UserModel} {id : UUID}
    (hs : w.backend.db.shares.find s.id = some s) :
    (answer env w (.revokeShare user id)).db.shares.find s.id =
      some (s.after env w (.revokeShare user id)) := by
  simp only [answer]
  cases h : revokeShare w.backend.db user id with
  | error e =>
    rw [ShareToken.after_of_not rfl]
    · exact hs
    refine decide_eq_false ?_
    rintro ⟨rfl, hown⟩
    have hload : loadOwnedShare w.backend.db user s.id = .ok s := by
      unfold loadOwnedShare
      rw [hs]
      dsimp only
      rw [if_neg]
      rintro ⟨hs', hne⟩
      rcases hown with hsu | hown
      · rw [hsu] at hs'
        cases hs'
      · exact hne hown
    unfold revokeShare at h
    rw [hload] at h
    dsimp only at h
    split at h <;> cases h
  | ok db' =>
    obtain ⟨q, hq, hown, rfl⟩ := revokeShare_updates h
    obtain rfl := Table.key_of_find hq
    by_cases hid : q.id = s.id
    · obtain rfl := Option.some.inj ((hid ▸ hq).symm.trans hs)
      have hrev : (Request.revokeShare user q.id).revokes q = true :=
        decide_eq_true ⟨rfl, hown⟩
      rw [ShareToken.after, hrev, Bool.or_true]
      exact Table.find_update_self (by exact hq)
    · have hrev : (Request.revokeShare user q.id).revokes s = false :=
        decide_eq_false fun he => hid he.1
      rw [ShareToken.after_of_not rfl hrev]
      refine Eq.trans ?_ hs
      exact Table.find_update_ne fun he => hid he.symm

theorem find_shares_resolveShare {now : Timestamp} {id : UUID}
    (hs : w.backend.db.shares.find s.id = some s) :
    (answer env w (.resolveShare now id)).db.shares.find s.id =
      some (s.after env w (.resolveShare now id)) := by
  simp only [answer]
  cases h : resolveShare env.settings w.backend.db now id with
  | error e =>
    have hno : resolves env s.id w (.resolveShare now id) = false := by
      rw [resolves_resolveShare, h]
      exact decide_eq_false fun he => Bool.false_ne_true he.2
    rw [ShareToken.after_of_not hno rfl]
    exact hs
  | ok res =>
    obtain ⟨q, hload, hdb⟩ := resolveShare_updates h
    have hq := (loadActiveShare_ok hload).1
    obtain rfl := Table.key_of_find hq
    have hshares : res.1.shares = w.backend.db.shares.update { q with uses := q.uses + 1 } :=
      congrArg Database.shares hdb
    have hfind : (w.backend.withDb (.ok res.1)).db.shares.find s.id =
        (w.backend.db.shares.update { q with uses := q.uses + 1 }).find s.id := by
      rw [← hshares]
      rfl
    refine hfind.trans ?_
    by_cases hid : q.id = s.id
    · obtain rfl := Option.some.inj ((hid ▸ hq).symm.trans hs)
      have hyes : resolves env q.id w (.resolveShare now q.id) = true := by
        rw [resolves_resolveShare, h]
        exact decide_eq_true ⟨rfl, rfl⟩
      have hrev : (Request.resolveShare now q.id).revokes q = false := rfl
      rw [Table.find_update_self (by exact hq), ShareToken.after, hyes, hrev, Bool.or_false]
      rfl
    · have hno : resolves env s.id w (.resolveShare now q.id) = false :=
        decide_eq_false fun he => hid he.1
      rw [ShareToken.after_of_not hno rfl]
      refine Eq.trans ?_ hs
      exact Table.find_update_ne fun he => hid he.symm

theorem not_takenBy {r : Request} (h : ∀ o, ¬ r.Purges o) : ¬ s.TakenBy env w r :=
  fun ⟨o, _, hpurges, _⟩ => h o hpurges

/-- A request takes a link away with its object, or leaves it with its use or its
revocation entered. -/
theorem find_shares_serve {r : Request} (hs : w.backend.db.shares.find tokenId = some s)
    (hmint : r.mints tokenId = false) :
    s.TakenBy env w r ∧ (serve env w r).backend.db.shares.find tokenId = none ∨
      ¬ s.TakenBy env w r ∧
        (serve env w r).backend.db.shares.find tokenId = some (s.after env w r) := by
  obtain rfl := Table.key_of_find hs
  have hframe := fun ht => writesOnly_answer env w r .shares ht
  cases r with
  | hardPurge faults now olderThan limit =>
    rw [ShareToken.after_of_not rfl rfl]
    exact find_shares_hardPurge hs
  | createShare now id user objectId body =>
    refine .inr ⟨not_takenBy fun _ h => h, ?_⟩
    rw [ShareToken.after_of_not rfl rfl, serve_backend]
    simp only [answer]
    cases h : createShare env.settings w.backend.db now id user objectId body with
    | error e => exact hs
    | ok res => exact (find_shares_createShare h (of_decide_eq_false hmint)).trans hs
  | revokeShare user id =>
    rw [serve_backend]
    exact .inr ⟨not_takenBy fun _ h => h, find_shares_revokeShare hs⟩
  | resolveShare now id =>
    rw [serve_backend]
    exact .inr ⟨not_takenBy fun _ h => h, find_shares_resolveShare hs⟩
  | _ =>
    refine .inr ⟨not_takenBy fun _ h => h, ?_⟩
    rw [ShareToken.after_of_not rfl rfl, serve_backend,
      hframe (by simp [Request.tables, importTables]), hs]

/-- A link that is gone stays gone, unless its id is minted again. -/
theorem find_shares_serve_none {r : Request} (hs : w.backend.db.shares.find tokenId = none)
    (hmint : r.mints tokenId = false) :
    (serve env w r).backend.db.shares.find tokenId = none := by
  have hframe := fun ht => writesOnly_answer env w r .shares ht
  have hupdate : ∀ q, (w.backend.db.shares.update q).find tokenId = none := by
    intro q
    have hsome := Table.find_update_isSome w.backend.db.shares q tokenId
    rw [hs, Option.isSome_none, Option.isSome_eq_false_iff, Option.isNone_iff_eq_none] at hsome
    exact hsome
  rw [serve_backend]
  cases r with
  | hardPurge faults now olderThan limit =>
    have hdb := db_hardPurgeExpired w.backend faults now olderThan limit
    simp only [answer]
    rw [hdb]
    refine Table.find_eq_none.mpr fun q hq => ?_
    exact Table.find_eq_none.mp hs q (Table.mem_filter.mp hq).1
  | createShare now id user objectId body =>
    simp only [answer]
    cases h : createShare env.settings w.backend.db now id user objectId body with
    | error e => exact hs
    | ok res => exact (find_shares_createShare h (of_decide_eq_false hmint)).trans hs
  | revokeShare user id =>
    simp only [answer]
    cases h : revokeShare w.backend.db user id with
    | error e => exact hs
    | ok db' =>
      obtain ⟨q, -, -, rfl⟩ := revokeShare_updates h
      exact hupdate _
  | resolveShare now id =>
    simp only [answer]
    cases h : resolveShare env.settings w.backend.db now id with
    | error e => exact hs
    | ok res =>
      obtain ⟨q, -, hdb⟩ := resolveShare_updates h
      have hfind := hupdate { q with uses := q.uses + 1 }
      have hshares : res.1.shares = w.backend.db.shares.update { q with uses := q.uses + 1 } :=
        congrArg Database.shares hdb
      rw [← hshares] at hfind
      exact hfind
  | _ => rw [hframe (by simp [Request.tables, importTables]), hs]

/-! ### Runs -/

theorem find_shares_run_none {rs : List Request} (hs : w.backend.db.shares.find tokenId = none)
    (hmint : ∀ r ∈ rs, r.mints tokenId = false) :
    (run (serve env) w rs).backend.db.shares.find tokenId = none := by
  induction rs generalizing w with
  | nil => exact hs
  | cons r rs ih =>
    exact ih (find_shares_serve_none hs (hmint r List.mem_cons_self))
      fun r' hr' => hmint r' (List.mem_cons_of_mem r hr')

/-- The link as a run leaves it. -/
def ShareToken.afterRun (env : Env) (w : World) (rs : List Request) (s : ShareToken) :
    ShareToken :=
  { s with
    uses := s.uses + tally (serve env) (resolves env s.id) w rs
    revoked := s.revoked || rs.any fun r => r.revokes s }

/-- Some request of the run purges the object of the link. -/
def ShareToken.Taken (env : Env) (w : World) (rs : List Request) (s : ShareToken) : Prop :=
  Occurs (serve env) (s.TakenBy env) w rs

theorem find_shares_run {rs : List Request} (hs : w.backend.db.shares.find tokenId = some s)
    (hmint : ∀ r ∈ rs, r.mints tokenId = false) :
    s.Taken env w rs ∧ (run (serve env) w rs).backend.db.shares.find tokenId = none ∨
      ¬ s.Taken env w rs ∧
        (run (serve env) w rs).backend.db.shares.find tokenId = some (s.afterRun env w rs) := by
  induction rs generalizing w s with
  | nil =>
    refine .inr ⟨not_occurs_nil, ?_⟩
    rw [run_nil, hs, ShareToken.afterRun, tally, List.any_nil, Bool.or_false]
    rfl
  | cons r rs ih =>
    have hrest : ∀ r' ∈ rs, r'.mints tokenId = false :=
      fun r' hr' => hmint r' (List.mem_cons_of_mem r hr')
    have htaken : s.Taken env w (r :: rs) ↔
        s.TakenBy env w r ∨ s.Taken env (serve env w r) rs := occurs_cons
    rcases find_shares_serve hs (hmint r List.mem_cons_self) with ⟨hr, hgone⟩ | ⟨hr, hstays⟩
    · refine .inl ⟨htaken.mpr (.inl hr), ?_⟩
      rw [run_cons]
      exact find_shares_run_none hgone hrest
    · rcases ih hstays hrest with ⟨hlater, hgone⟩ | ⟨hlater, hfind⟩
      · exact .inl ⟨htaken.mpr (.inr hlater), hgone⟩
      · refine .inr ⟨fun h => (htaken.mp h).elim hr hlater, ?_⟩
        have hrevokes : ∀ r' : Request, r'.revokes (s.after env w r) = r'.revokes s :=
          fun _ => rfl
        rw [run_cons, hfind, ShareToken.afterRun, ShareToken.afterRun, tally, List.any_cons,
          ← Nat.add_assoc, ← Bool.or_assoc]
        simp only [hrevokes]
        rfl

/-- What is not resolvable now is not resolvable later, whatever is done to it. -/
theorem not_resolvable_afterRun {now later : Timestamp} (h : ¬ s.Resolvable now)
    (htime : now ≤ later) (rs : List Request) : ¬ (s.afterRun env w rs).Resolvable later := by
  rintro ⟨hlive, hexpiry, hbound⟩
  refine h ⟨(Bool.or_eq_false_iff.mp hlive).1, lt_of_le_of_lt htime hexpiry, fun n hn => ?_⟩
  exact lt_of_le_of_lt (Nat.le_add_right _ _) (hbound n hn)

/-- Through any run that does not mint its id again, a link is gone exactly if a purge took
its object, and is else itself, with one more use for each resolution that went through
and revoked once an entitled caller asked. It resolves just while its object was not taken,
the link is resolvable and the object in service, and once it cannot be resolved it is
refused for good. -/
theorem share_life (env : Env) (w : World) (rs : List Request)
    (hs : w.backend.db.shares.find tokenId = some s)
    (hmint : ∀ r ∈ rs, r.mints tokenId = false) :
    let db := (run (serve env) w rs).backend.db
    (s.Taken env w rs ∧ db.shares.find tokenId = none ∨
        ¬ s.Taken env w rs ∧ db.shares.find tokenId = some (s.afterRun env w rs)) ∧
      (∀ now, (∃ res, resolveShare env.settings db now tokenId = .ok res) ↔
        ¬ s.Taken env w rs ∧ (s.afterRun env w rs).Resolvable now ∧
          ∃ o, db.objects.find s.mediaObjectId = some o ∧ o.InService) ∧
      ∀ now later, ¬ s.Resolvable now → now ≤ later →
        resolveShare env.settings db later tokenId = refuse 404 "Share link not found." ∨
          ∃ message, resolveShare env.settings db later tokenId = refuse 403 message := by
  intro db
  have hrun : s.Taken env w rs ∧ db.shares.find tokenId = none ∨
      ¬ s.Taken env w rs ∧ db.shares.find tokenId = some (s.afterRun env w rs) :=
    find_shares_run hs hmint
  refine ⟨hrun, fun now => ?_, fun now later hdead htime => ?_⟩
  · rw [resolveShare_ok_iff]
    constructor
    · rintro ⟨s', o, hfind, hres, ho, hserved⟩
      rcases hrun with ⟨-, hgone⟩ | ⟨hnot, hstays⟩
      · rw [hgone] at hfind
        cases hfind
      · obtain rfl := Option.some.inj (hstays.symm.trans hfind)
        exact ⟨hnot, hres, o, ho, hserved⟩
    · rintro ⟨hnot, hres, o, ho, hserved⟩
      rcases hrun with ⟨htaken, -⟩ | ⟨-, hstays⟩
      · exact absurd htaken hnot
      · exact ⟨_, o, hstays, hres, ho, hserved⟩
  · refine resolveShare_dead fun s' hfind => ?_
    rcases hrun with ⟨-, hgone⟩ | ⟨-, hstays⟩
    · rw [hgone] at hfind
      cases hfind
    · obtain rfl := Option.some.inj (hstays.symm.trans hfind)
      exact not_resolvable_afterRun hdead htime rs

/-- A service that holds the link with one use. -/
def singleUseWorld : World :=
  { World.initial with backend := ⟨singleUseDatabase, Backend.empty.storage⟩ }

/-- The only use, a second attempt and the owner's revocation. -/
def singleUseRequests : List Request :=
  [.resolveShare 10 ⟨7⟩, .resolveShare 11 ⟨7⟩, .revokeShare (.ordinary 1) ⟨7⟩]

theorem share_life_single_use :
    singleUse.afterRun Env.default singleUseWorld singleUseRequests =
        { singleUse with uses := 1, revoked := true } ∧
      let db := (run (serve Env.default) singleUseWorld singleUseRequests).backend.db
      (singleUse.Taken Env.default singleUseWorld singleUseRequests ∧
          db.shares.find ⟨7⟩ = none ∨
        ¬ singleUse.Taken Env.default singleUseWorld singleUseRequests ∧
          db.shares.find ⟨7⟩ =
            some (singleUse.afterRun Env.default singleUseWorld singleUseRequests)) ∧
        ∀ now later, ¬ singleUse.Resolvable now → now ≤ later →
          resolveShare Settings.default db later ⟨7⟩ = refuse 404 "Share link not found." ∨
            ∃ message, resolveShare Settings.default db later ⟨7⟩ = refuse 403 message := by
  obtain ⟨hrow, -, hdead⟩ := share_life Env.default singleUseWorld singleUseRequests
    (show singleUseWorld.backend.db.shares.find ⟨7⟩ = some singleUse by decide +kernel)
    (by decide)
  exact ⟨by decide +kernel, hrow, hdead⟩

end MediaService
