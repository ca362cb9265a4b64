import MediaService.Core.Ssrf
import MediaService.DbModels.Database
import MediaService.Foundation.Fallible

/-! Delivery of the outbox. A run claims the due events, posts each to every
active subscription that wants it, and settles the row: delivered if all answered
with success, otherwise due again after a growing delay, until the last attempt
fails it. One commit covers the batch, so an exception that leaves the run leaves
no settlement. -/

namespace MediaService

open Foundation

/-! ### Rows -/

/-- An event as it is stored, under the id and the instant of its insert. -/
structure OutboxRow extends OutboxEvent where
  id : UUID
  createdAt : Timestamp
  deriving DecidableEq

/-- The row an event staged by `record_event` is stored as. -/
def recordedRow (freshId : UUID) (createdAt now : Timestamp) (eventType : String) (objectId : UUID)
    (payload : List (String × String)) : OutboxRow where
  toOutboxEvent := stagedEvent now eventType objectId payload
  id := freshId
  createdAt := createdAt

structure Subscription where
  id : UUID
  url : String
  secret : String
  eventTypes : List String
  active : Bool
  createdAt : Timestamp
  deriving DecidableEq

structure OutboxStore where
  events : Table OutboxRow.id
  subscriptions : Table Subscription.id

/-! ### Subscriptions -/

/-- The body of `create_subscription`; lengths are in characters. -/
structure SubscriptionCreateRequest where
  url : String
  secret : String
  eventTypes : List String
  url_length : 1 ≤ url.length ∧ url.length ≤ 2048
  secret_length : 16 ≤ secret.length ∧ secret.length ≤ 255
  url_scheme : "http://".toList <+: url.toList ∨ "https://".toList <+: url.toList

/-- A target is checked without looking its name up; an exception of the check
that is not a rejection leaves the request. -/
def createSubscription (lib : UrlLibrary) (settings : WebhookSettings) (st : OutboxStore)
    (freshId : UUID) (now : Timestamp) (req : SubscriptionCreateRequest) :
    Except Failure (OutboxStore × Subscription) :=
  match checkWebhookUrl lib (.fromSettings lib settings) none req.url with
  | .error (.webhookTargetError message) => refuse 400 message
  | .error (.valueError message) => .error (.valueError message)
  | .error (.unicodeError message) => .error (.valueError message)
  | .ok () =>
    let sub : Subscription := {
      id := freshId
      url := req.url
      secret := req.secret
      eventTypes := req.eventTypes
      active := true
      createdAt := now }
    match st.subscriptions.insert sub with
    | none => .error .integrityError
    | some t => .ok ({ st with subscriptions := t }, sub)

/-! ### Delivery -/

/-- `_claim_due`: the pending events that are due, oldest first. -/
def claimDue (st : OutboxStore) (now : Timestamp) (limit : ℕ) : List OutboxRow :=
  ((st.events.rows.filter fun e => e.status = .pending ∧ e.nextAttemptAt ≤ now).insertionSort
    fun e e' => e.createdAt ≤ e'.createdAt).take limit

def activeSubscriptions (st : OutboxStore) : List Subscription :=
  st.subscriptions.rows.filter Subscription.active

/-- An empty filter wants every event. -/
def Subscription.wants (sub : Subscription) (eventType : String) : Bool :=
  sub.eventTypes = [] ∨ eventType ∈ sub.eventTypes

/-- The subscriptions an event goes to. -/
def targets (st : OutboxStore) (e : OutboxRow) : List Subscription :=
  (activeSubscriptions st).filter fun sub => sub.wants e.eventType

/-- What `client.post` comes to: an answer, an `httpx.HTTPError`, or another
exception, as `InvalidURL` is. -/
inductive ClientOutcome where
  | response (statusCode : ℕ)
  | httpError
  | otherError
  deriving DecidableEq

/-- What `_post_one` did: held back by the guard, or issued. -/
inductive PostResult where
  | blocked
  | issued (outcome : ClientOutcome)
  deriving DecidableEq

/-- A 2xx answer. -/
def ClientOutcome.accepted : ClientOutcome → Bool
  | .response statusCode => 200 ≤ statusCode ∧ statusCode < 300
  | _ => false

def PostResult.accepted : PostResult → Bool
  | .blocked => false
  | .issued outcome => outcome.accepted

/-- How a run ends without settling. -/
inductive DeliveryError where
  | target (e : TargetError)
  | client
  | overflowError
  deriving DecidableEq

/-- What a run meets outside: the clock, the answers of the resolver and those of
the subscribers, for each event and subscription. -/
structure Delivery where
  now : Timestamp
  limit : ℕ
  resolver : UUID → UUID → Resolver
  client : UUID → UUID → ClientOutcome

/-- `_post_one`: the guard first; an `httpx.HTTPError` is caught, any other
exception leaves the run. -/
def postOne (lib : UrlLibrary) (policy : WebhookPolicy) (resolver : Resolver)
    (outcome : ClientOutcome) (url : String) : Except DeliveryError PostResult :=
  match urlGuard lib policy resolver url with
  | .error e => .error (.target e)
  | .ok false => .ok .blocked
  | .ok true => if outcome = .otherError then .error .client else .ok (.issued outcome)

/-- One event's turn in a run: the row as claimed, what was posted, and the row as
settled. -/
structure DeliveryAttempt where
  now : Timestamp
  event : OutboxRow
  posts : List (Subscription × PostResult)
  settled : OutboxRow
  deriving DecidableEq

/-- The last instant a `datetime` holds. -/
def datetimeMax : Timestamp := 315537897599999999

/-- `now + timedelta(seconds=…)`. -/
def addSeconds (now : Timestamp) (seconds : ℕ) : Except DeliveryError Timestamp :=
  if now + seconds * 1000000 ≤ datetimeMax then .ok (now + seconds * 1000000)
  else .error .overflowError

/-- The row after its attempt. -/
def settle (maxAttempts backoffBaseSeconds : ℕ) (now : Timestamp) (e : OutboxRow)
    (accepted : Bool) : Except DeliveryError OutboxRow :=
  if accepted then .ok { e with status := .delivered, deliveredAt := some now }
  else
    let e := { e with attempts := e.attempts + 1 }
    if maxAttempts ≤ e.attempts then .ok { e with status := .failed }
    else
      match addSeconds now (backoffBaseSeconds * 2 ^ (e.attempts - 1)) with
      | .error err => .error err
      | .ok nextAttemptAt => .ok { e with nextAttemptAt := nextAttemptAt }

section Deliver

variable (lib : UrlLibrary) (policy : WebhookPolicy) (maxAttempts backoffBaseSeconds : ℕ)

/-- `_deliver_event`: every target is posted to, also after one that failed; an
event without targets counts as accepted. -/
def deliverEvent (st : OutboxStore) (d : Delivery) (e : OutboxRow) :
    Except DeliveryError (List (Subscription × PostResult)) :=
  (targets st e).mapM fun sub =>
    (postOne lib policy (d.resolver e.id sub.id) (d.client e.id sub.id) sub.url).map fun r =>
      (sub, r)

def attemptEvent (st : OutboxStore) (d : Delivery) (e : OutboxRow) :
    Except DeliveryError DeliveryAttempt :=
  match deliverEvent lib policy st d e with
  | .error err => .error err
  | .ok posts =>
    (settle maxAttempts backoffBaseSeconds d.now e (posts.all fun p => p.2.accepted)).map
      fun settled => ⟨d.now, e, posts, settled⟩

structure OutboxDeliveryReport where
  delivered : ℕ
  retried : ℕ
  failed : ℕ
  deriving DecidableEq

def outboxReport (attempts : List DeliveryAttempt) : OutboxDeliveryReport where
  delivered := attempts.countP fun a => a.settled.status = .delivered
  retried := attempts.countP fun a => a.settled.status = .pending
  failed := attempts.countP fun a => a.settled.status = .failed

/-- `deliver_pending`: the batch in order, and one commit of its settlements. -/
def deliverPending (st : OutboxStore) (d : Delivery) :
    Except DeliveryError (OutboxStore × OutboxDeliveryReport × List DeliveryAttempt) :=
  match (claimDue st d.now d.limit).mapM
      (attemptEvent lib policy maxAttempts backoffBaseSeconds st d) with
  | .error e => .error e
  | .ok attempts =>
    .ok ({ st with events := attempts.foldl (fun t a => t.update a.settled) st.events },
      outboxReport attempts, attempts)

end Deliver

end MediaService
