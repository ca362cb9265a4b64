import Mathlib.Data.Finset.Card
import MediaService.Controllers.Shares
import MediaService.Foundation.Interleaving

/-! Share links under concurrent requests. A resolution checks the row as it
reads it and then the object, and consumes a use by one conditional update that
looks at the row again, with the clock it carries; a revocation reads the row and
writes its one column; any other request may change the objects meanwhile. A use
is counted for every update that matched, whether or not its URL is signed. -/

namespace MediaService

open Foundation

/-! ### The requests, step by step -/

inductive ShareRequest where
  | resolve (tokenId : UUID)
  | revoke (user : UserModel) (tokenId : UUID)
  | edit

/-- What a request does next. A resolution has `matched` once its update counted
a use, and is `unsigned` where the URL could not be signed after that. -/
inductive SharePlace where
  | check (tokenId : UUID)
  | object (tokenId objectId : UUID)
  | consume (tokenId : UUID) (o : MediaObject)
  | matched (tokenId : UUID) (o : MediaObject)
  | handed (tokenId : UUID) (url : DownloadUrl)
  | unsigned (tokenId : UUID)
  | refused (tokenId : UUID) (e : Failure)
  | load (user : UserModel) (tokenId : UUID)
  | revoke (tokenId : UUID)
  | revoked (tokenId : UUID)
  | edit

def ShareRequest.start : ShareRequest → SharePlace
  | .resolve tokenId => .check tokenId
  | .revoke user tokenId => .load user tokenId
  | .edit => .edit

/-- One turn of a request: the clock, whether signing fails, and what an edit
leaves of the objects. -/
structure ShareTurn where
  now : Timestamp
  fails : Bool
  objects : Table MediaObject.id

/-- The commit of a revocation, which writes one column of the row. -/
def revokeRow (db : Database) (tokenId : UUID) : Database :=
  { db with shares := db.shares.modify tokenId (fun s => { s with revoked := true }) fun _ => rfl }

def shareStep (settings : Settings) (db : Database) :
    SharePlace → ShareTurn → Database × SharePlace
  | .check tokenId, m =>
    match loadActiveShare db m.now tokenId with
    | .error e => (db, .refused tokenId e)
    | .ok share => (db, .object tokenId share.mediaObjectId)
  | .object tokenId objectId, _ =>
    match db.objects.find objectId with
    | none => (db, .refused tokenId (.http ⟨404, .text "Share link not found."⟩))
    | some o =>
      if o.deletedAt.isSome then
        (db, .refused tokenId (.http ⟨404, .text "Share link not found."⟩))
      else if o.scanStatus ≠ .clean then
        (db, .refused tokenId (.http ⟨409,
          .text "Object is not available for download until it passes scanning."⟩))
      else (db, .consume tokenId o)
  | .consume tokenId o, m =>
    match consumeUse db m.now tokenId with
    | none =>
      (db, .refused tokenId (.http ⟨403, .text "Share link has reached its usage limit."⟩))
    | some db => (db, .matched tokenId o)
  | .matched tokenId o, m =>
    (db, if m.fails then .unsigned tokenId else .handed tokenId (objectUrl settings o m.now))
  | .load user tokenId, _ =>
    match loadOwnedShare db user tokenId with
    | .error e => (db, .refused tokenId e)
    | .ok share => (db, if share.revoked then .revoked tokenId else .revoke tokenId)
  | .revoke tokenId, _ => (revokeRow db tokenId, .revoked tokenId)
  | .edit, m => ({ db with objects := m.objects }, .edit)
  | place, _ => (db, place)

/-! ### One request alone -/

section Alone

variable {settings : Settings} {db : Database}

theorem find_of_loadActiveShare {now : Timestamp} {tokenId : UUID} {share : ShareToken}
    (h : loadActiveShare db now tokenId = .ok share) : db.shares.find tokenId = some share := by
  unfold loadActiveShare at h
  cases hfind : db.shares.find tokenId with
  | none => simp [hfind] at h
  | some s =>
    rw [hfind] at h
    dsimp only at h
    split_ifs at h
    · cases h
    · cases h
    · cases h
    · rw [Except.ok.inj h]

theorem find_of_loadOwnedShare {user : UserModel} {tokenId : UUID} {share : ShareToken}
    (h : loadOwnedShare db user tokenId = .ok share) : db.shares.find tokenId = some share := by
  unfold loadOwnedShare at h
  cases hfind : db.shares.find tokenId with
  | none => simp [hfind] at h
  | some s =>
    rw [hfind] at h
    dsimp only at h
    split_ifs at h
    · cases h
    · rw [Except.ok.inj h]

/-- Where a resolution alone ends. -/
def resolvedPlace (tokenId : UUID) : Except Failure (Database × DownloadUrl) → SharePlace
  | .error e => .refused tokenId e
  | .ok (_, url) => .handed tokenId url

theorem run_shareStep_refused (tokenId : UUID) (e : Failure) (ms : List ShareTurn) :
    run (fun p m => shareStep settings p.1 p.2 m) (db, .refused tokenId e) ms =
      (db, .refused tokenId e) := by
  induction ms with
  | nil => rfl
  | cons m ms ih => exact ih

/-- A resolution alone is `SharesController.resolve`. -/
theorem alone_resolve (tokenId : UUID) {m : ShareTurn} (hm : m.fails = false) :
    run (fun p m => shareStep settings p.1 p.2 m) (db, .check tokenId) [m, m, m, m] =
      (((resolveShare settings db m.now tokenId).toOption.map Prod.fst).getD db,
        resolvedPlace tokenId (resolveShare settings db m.now tokenId)) := by
  unfold resolveShare
  rw [run_cons, shareStep]
  cases hload : loadActiveShare db m.now tokenId with
  | error e => exact run_shareStep_refused tokenId e _
  | ok share =>
    have hid : share.id = tokenId := Table.key_of_find (find_of_loadActiveShare hload)
    dsimp only
    rw [run_cons, shareStep]
    cases hobject : db.objects.find share.mediaObjectId with
    | none => exact run_shareStep_refused tokenId _ _
    | some o =>
      dsimp only
      split_ifs with hdeleted hscan
      · exact run_shareStep_refused tokenId _ _
      · exact run_shareStep_refused tokenId _ _
      · rw [run_cons, shareStep, hid]
        cases hconsume : consumeUse db m.now tokenId with
        | none => exact run_shareStep_refused tokenId _ _
        | some db' => simp [shareStep, hm, resolvedPlace, Except.toOption]

/-- A revocation alone is `SharesController.revoke`. -/
theorem alone_revoke (user : UserModel) (tokenId : UUID) (m : ShareTurn) :
    run (fun p m => shareStep settings p.1 p.2 m) (db, .load user tokenId) [m, m] =
      match revokeShare db user tokenId with
      | .error e => (db, .refused tokenId e)
      | .ok db' => (db', .revoked tokenId) := by
  unfold revokeShare
  rw [run_cons, shareStep]
  cases hload : loadOwnedShare db user tokenId with
  | error e => exact run_shareStep_refused tokenId e _
  | ok share =>
    dsimp only
    by_cases hrevoked : share.revoked = true
    · simp [hrevoked, shareStep]
    · simp [hrevoked, shareStep, revokeRow, Table.modify_eq_update (find_of_loadOwnedShare hload)]

end Alone

/-! ### Many requests -/

abbrev ShareRace (ι : Type*) := Parties ι Database SharePlace

abbrev shareTurn {ι : Type*} [DecidableEq ι] (settings : Settings) :
    ShareRace ι → ι × ShareTurn → ShareRace ι :=
  turn fun _ db place m => shareStep settings db place m

def shareStart {ι : Type*} (db : Database) (requests : ι → ShareRequest) : ShareRace ι :=
  ⟨db, fun i => (requests i).start⟩

namespace SharePlace

/-- Whether the place is past an update that matched the link's row. -/
def usedLink (tokenId : UUID) : SharePlace → Bool
  | matched k _ | handed k _ | unsigned k => k = tokenId
  | _ => false

/-- Whether a URL was handed out for the link. -/
def handedLink (tokenId : UUID) : SharePlace → Bool
  | handed k _ => k = tokenId
  | _ => false

/-- Whether the link's revocation has been committed, by this request or before it. -/
def revokedLink (tokenId : UUID) : SharePlace → Bool
  | revoked k => k = tokenId
  | _ => false

end SharePlace

end MediaService
