import MediaService.Controllers.Objects

/-! Share links: mint, revoke, resolve. A link resolves while its row is live
and the object's scan is clean; each resolution consumes one use by a single
conditional update. The token here is the row id its signature vouches for. -/

namespace MediaService

open Foundation

structure ShareTokenCreate where
  expiresIn : Option ℕ
  maxUses : Option ℕ
  one_le_expiresIn : ∀ n, expiresIn = some n → 1 ≤ n
  one_le_maxUses : ∀ n, maxUses = some n → 1 ≤ n

def createShare (settings : Settings) (db : Database) (now : Timestamp) (tokenId : UUID)
    (user : UserModel) (objectId : UUID) (body : ShareTokenCreate) :
    Except Failure (Database × ShareToken) :=
  match loadObject db user objectId false with
  | .error e => .error e
  | .ok o =>
    let maxExpires := settings.mediaShareMaxExpiresSeconds
    if body.expiresIn.any (· > maxExpires) then
      refuse 422 ("expires_in must not exceed " ++ toString maxExpires ++ " seconds.")
    else
      let expiresIn := body.expiresIn.getD settings.mediaShareDefaultExpiresSeconds
      let share : ShareToken := {
        id := tokenId
        mediaObjectId := o.id
        ownerUserId := o.ownerUserId
        tenantId := o.tenantId
        expiresAt := now + seconds expiresIn
        maxUses := body.maxUses
        uses := 0
        revoked := false
        createdAt := now }
      match db.shares.insert share with
      | none => .error .integrityError
      | some t => .ok ({ db with shares := t }, share)

def loadOwnedShare (db : Database) (user : UserModel) (tokenId : UUID) :
    Except Failure ShareToken :=
  match db.shares.find tokenId with
  | none => refuse 404 "Share link not found."
  | some share =>
    if !user.isSuperuser ∧ share.ownerUserId ≠ user.id then refuse 403 "Not enough permissions."
    else .ok share

def revokeShare (db : Database) (user : UserModel) (tokenId : UUID) : Except Failure Database :=
  match loadOwnedShare db user tokenId with
  | .error e => .error e
  | .ok share =>
    if share.revoked then .ok db
    else .ok { db with shares := db.shares.update { share with revoked := true } }

/-- `_load_active_share`, of a verified token. -/
def loadActiveShare (db : Database) (now : Timestamp) (tokenId : UUID) :
    Except Failure ShareToken :=
  match db.shares.find tokenId with
  | none => refuse 404 "Share link not found."
  | some share =>
    if share.revoked then refuse 403 "Share link has been revoked."
    else if share.expiresAt ≤ now then refuse 403 "Share link has expired."
    else if share.maxUses.any (· ≤ share.uses) then
      refuse 403 "Share link has reached its usage limit."
    else .ok share

/-- `_consume_use`: count one use if the link is still resolvable. -/
def consumeUse (db : Database) (now : Timestamp) (tokenId : UUID) : Option Database :=
  match db.shares.find tokenId with
  | none => none
  | some share =>
    if !share.revoked ∧ now < share.expiresAt ∧ share.maxUses.all (share.uses < ·) then
      some { db with shares := db.shares.update { share with uses := share.uses + 1 } }
    else none

/-- `SharesController.resolve`, of a verified token. -/
def resolveShare (settings : Settings) (db : Database) (now : Timestamp) (tokenId : UUID) :
    Except Failure (Database × DownloadUrl) :=
  match loadActiveShare db now tokenId with
  | .error e => .error e
  | .ok share =>
    match db.objects.find share.mediaObjectId with
    | none => refuse 404 "Share link not found."
    | some o =>
      if o.deletedAt.isSome then refuse 404 "Share link not found."
      else if o.scanStatus ≠ .clean then
        refuse 409 "Object is not available for download until it passes scanning."
      else
        match consumeUse db now share.id with
        | none => refuse 403 "Share link has reached its usage limit."
        | some db => .ok (db, objectUrl settings o now)

end MediaService
