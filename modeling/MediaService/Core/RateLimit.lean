import MediaService.Core.Config
import MediaService.Foundation.Counters
import MediaService.Foundation.Run

/-! Rate limits: fixed windows, counted in a store the service shares. A request is
counted under its source address and, once its user is known, under the user first. The
count and the time it expires are set by two commands, and either may fail, be carried
out without an answer, or never be sent because the process is gone. -/

namespace MediaService

open Foundation

/-! ### Limiters -/

inductive FailureMode where
  | failOpen | failClosed
  deriving DecidableEq

/-- What the limiters have from their surroundings. -/
structure RateLimitConfig where
  /-- `MEDIA_REDIS_NAMESPACE`. -/
  redisNamespace : String
  /-- `MEDIA_RATE_LIMIT_FAILURE_MODE`. -/
  failureMode : FailureMode
  /-- `str.isprintable` of one character. -/
  isPrintable : Char → Bool

def ipLimitFactor : ℕ := 10

def maxIpLen : ℕ := 45

/-- `str.strip(":")`. -/
def stripColons (s : String) : String :=
  String.ofList ((s.toList.dropWhile (· = ':')).rdropWhile (· = ':'))

/-- `MediaRedisConfig.key`. -/
def RateLimitConfig.key (cfg : RateLimitConfig) (parts : List String) : String :=
  ":".intercalate (stripColons cfg.redisNamespace ::
    (parts.filter (· ≠ "")).map stripColons)

/-- The source address as it goes into a key. -/
def RateLimitConfig.ip (cfg : RateLimitConfig) (peer : Option String) : String :=
  String.ofList (((peer.getD "unknown").toList.filter cfg.isPrintable).take maxIpLen)

/-- `RateLimiter`, `OptionalRateLimiter` and `AnonRateLimiter`, as they are set up. -/
structure RateLimiter where
  action : String
  limit : ℕ
  windowSeconds : ℕ
  failureMode : Option FailureMode

structure RateWindow where
  key : String
  limit : ℕ
  deriving DecidableEq

/-- What a limiter does for one request: windows to check, in order. -/
structure LimitCall where
  windows : List RateWindow
  windowSeconds : ℕ
  mode : FailureMode

section Limiter

variable (cfg : RateLimitConfig) (limiter : RateLimiter)

def RateLimiter.ipKey (peer : Option String) : String :=
  cfg.key ["ratelimit:ip:" ++ limiter.action, cfg.ip peer]

def RateLimiter.userKey (userId : String) : String :=
  cfg.key ["ratelimit:" ++ limiter.action, userId]

/-- `_apply`. -/
def RateLimiter.apply (peer userId : Option String) : LimitCall where
  windows := (userId.map fun u => ⟨limiter.userKey cfg u, limiter.limit⟩).toList ++
    [⟨limiter.ipKey cfg peer, limiter.limit * ipLimitFactor⟩]
  windowSeconds := limiter.windowSeconds
  mode := limiter.failureMode.getD cfg.failureMode

/-- `AnonRateLimiter.__call__`. -/
def RateLimiter.applyAnon (peer : Option String) : LimitCall where
  windows := [⟨limiter.ipKey cfg peer, limiter.limit⟩]
  windowSeconds := limiter.windowSeconds
  mode := limiter.failureMode.getD cfg.failureMode

end Limiter

/-- A request to a route with one of the three limiters. -/
inductive LimitedRequest where
  | perUser (limiter : RateLimiter) (peer : Option String) (userId : String)
  | optional (limiter : RateLimiter) (peer userId : Option String)
  | anonymous (limiter : RateLimiter) (peer : Option String)

def LimitedRequest.limiter : LimitedRequest → RateLimiter
  | perUser limiter _ _ | optional limiter _ _ | anonymous limiter _ => limiter

def LimitedRequest.call (cfg : RateLimitConfig) : LimitedRequest → LimitCall
  | perUser limiter peer userId => limiter.apply cfg peer (some userId)
  | optional limiter peer userId => limiter.apply cfg peer userId
  | anonymous limiter peer => limiter.applyAnon cfg peer

/-! ### A request that is answered every command -/

structure LimitRefusal where
  statusCode : ℕ
  detail : String
  retryAfter : Option String
  deriving DecidableEq

def tooManyRequests (limit windowSeconds : ℕ) : LimitRefusal where
  statusCode := 429
  detail := "Rate limit exceeded. Max " ++ toString limit ++ " requests per " ++
    toString windowSeconds ++ "s."
  retryAfter := some (toString windowSeconds)

/-- `_check_window`; without a refusal the window lets the request through. -/
def checkWindow (s : Counters String) (w : RateWindow) (windowSeconds : ℕ) :
    Counters String × Option LimitRefusal :=
  let (s, count) := s.incr w.key
  let s := if count = 1 then s.expire w.key (seconds windowSeconds) else s
  (s, if count > w.limit then some (tooManyRequests w.limit windowSeconds) else none)

theorem checkWindow_snd (s : Counters String) (w : RateWindow) (windowSeconds : ℕ) :
    (checkWindow s w windowSeconds).2 = if (s.counted w.key).count > w.limit then
      some (tooManyRequests w.limit windowSeconds) else none := rfl

/-- The windows of a request, up to one that refuses it. -/
def checkWindows (s : Counters String) (windowSeconds : ℕ) :
    List RateWindow → Counters String × Option LimitRefusal
  | [] => (s, none)
  | w :: windows =>
    match checkWindow s w windowSeconds with
    | (s, some refusal) => (s, some refusal)
    | (s, none) => checkWindows s windowSeconds windows

/-! ### A request command by command -/

/-- What becomes of a command: it is answered, or fails for the process, or is the last
thing of the process; the last two with or without having been carried out. -/
inductive CommandFate where
  | replies
  | fails (executed : Bool)
  | crashes (executed : Bool)
  deriving DecidableEq

def CommandFate.executed : CommandFate → Bool
  | replies => true
  | fails executed | crashes executed => executed

/-- `_handle_redis_error`. -/
def handleRedisError : FailureMode → Option LimitRefusal
  | .failOpen => none
  | .failClosed =>
    some ⟨503, "Rate limiter temporarily unavailable. Please retry.", none⟩

inductive LimitPlace where
  | incr (window : RateWindow) (rest : List RateWindow)
  | expire (window : RateWindow) (rest : List RateWindow)
  | answered (refusal : Option LimitRefusal)
  | crashed
  deriving DecidableEq

/-- One command of a request, some time after the turn before. -/
structure LimitTurn where
  elapsed : ℕ
  fate : CommandFate

/-- The store, and beside it when a request last used a key, which no step reads. -/
structure LimitState where
  store : Counters String
  touched : String → Option Timestamp

def LimitPlace.next : List RateWindow → LimitPlace
  | [] => answered none
  | w :: rest => incr w rest

def LimitCall.start (call : LimitCall) : LimitPlace := .next call.windows

/-- What the count of a window comes to. -/
def LimitCall.judge (call : LimitCall) (count : ℕ) (w : RateWindow) (rest : List RateWindow) :
    LimitPlace :=
  if count > w.limit then .answered (some (tooManyRequests w.limit call.windowSeconds))
  else .next rest

/-- Where a request goes on, if it gets the answer to go on with. -/
def LimitCall.resume (call : LimitCall) (fate : CommandFate) (place : LimitPlace) : LimitPlace :=
  match fate with
  | .replies => place
  | .fails _ => .answered (handleRedisError call.mode)
  | .crashes _ => .crashed

def LimitState.touch (s : LimitState) (key : String) (store : Counters String) : LimitState where
  store := store
  touched := Function.update s.touched key (some store.now)

def limitStep (call : LimitCall) (s : LimitState) (place : LimitPlace) (m : LimitTurn) :
    LimitState × LimitPlace :=
  let store := s.store.tick m.elapsed
  match place with
  | .incr w rest =>
    let (counted, count) := store.incr w.key
    (s.touch w.key (if m.fate.executed then counted else store),
      call.resume m.fate (if count = 1 then .expire w rest else call.judge count w rest))
  | .expire w rest =>
    (s.touch w.key (if m.fate.executed then store.expire w.key (seconds call.windowSeconds)
      else store), call.resume m.fate (call.judge 1 w rest))
  | place => ({ s with store := store }, place)

section Alone

variable {call : LimitCall} {s : LimitState}

/-- An answered command without delay. -/
def LimitTurn.served : LimitTurn := ⟨0, .replies⟩

theorem tick_zero (s : Counters String) : s.tick 0 = s := by
  unfold Counters.tick
  simp

theorem run_limitStep_answered (refusal : Option LimitRefusal) (n : ℕ) :
    run (fun p m => limitStep call p.1 p.2 m) (s, .answered refusal)
      (List.replicate n .served) = (s, .answered refusal) := by
  have hstep : limitStep call s (.answered refusal) .served =
      ({ s with store := s.store.tick 0 }, .answered refusal) := rfl
  refine run_replicate_of_eq _ ?_ n
  rw [hstep, tick_zero]

/-- A request whose commands are all answered, one after the other, checks its windows
in order. -/
theorem alone_checkWindows (windows : List RateWindow) {n : ℕ} (hn : 2 * windows.length ≤ n) :
    (run (fun p m => limitStep call p.1 p.2 m) (s, .next windows)
        (List.replicate n .served)).1.store =
      (checkWindows s.store call.windowSeconds windows).1 ∧
    (run (fun p m => limitStep call p.1 p.2 m) (s, .next windows)
        (List.replicate n .served)).2 =
      .answered (checkWindows s.store call.windowSeconds windows).2 := by
  induction windows generalizing s n with
  | nil =>
    rw [LimitPlace.next, run_limitStep_answered]
    exact ⟨rfl, rfl⟩
  | cons w windows ih =>
    rw [List.length_cons] at hn
    obtain ⟨n, rfl⟩ : ∃ k, n = k + 1 + 1 := ⟨n - 2, by omega⟩
    have hjudge : ∀ (s' : LimitState) (count k : ℕ), 2 * windows.length ≤ k →
        s'.store = (checkWindow s.store w call.windowSeconds).1 →
        count = (s.store.counted w.key).count →
        (run (fun p m => limitStep call p.1 p.2 m) (s', call.judge count w windows)
            (List.replicate k .served)).1.store =
          (checkWindows s.store call.windowSeconds (w :: windows)).1 ∧
        (run (fun p m => limitStep call p.1 p.2 m) (s', call.judge count w windows)
            (List.replicate k .served)).2 =
          .answered (checkWindows s.store call.windowSeconds (w :: windows)).2 := by
      rintro s' count k hk hs' rfl
      have hrefusal := checkWindow_snd s.store w call.windowSeconds
      rw [checkWindows, LimitCall.judge]
      generalize checkWindow s.store w call.windowSeconds = r at hs' hrefusal ⊢
      obtain ⟨store, refusal⟩ := r
      dsimp only at hs' hrefusal
      subst hs' hrefusal
      split_ifs
      · rw [run_limitStep_answered]
        exact ⟨rfl, rfl⟩
      · exact ih hk
    have hfirst : limitStep call s (.incr w windows) .served =
        (s.touch w.key (s.store.incr w.key).1, if (s.store.counted w.key).count = 1 then
          .expire w windows else call.judge (s.store.counted w.key).count w windows) := by
      rw [limitStep, LimitTurn.served, tick_zero]
      rfl
    rw [LimitPlace.next, List.replicate_succ, run_cons]
    dsimp only
    rw [hfirst]
    by_cases hone : (s.store.counted w.key).count = 1
    · rw [if_pos hone, List.replicate_succ, run_cons]
      have hsecond : ∀ s' : LimitState, limitStep call s' (.expire w windows) .served =
          (s'.touch w.key (s'.store.expire w.key (seconds call.windowSeconds)),
            call.judge 1 w windows) := by
        intro s'
        rw [limitStep, LimitTurn.served, tick_zero]
        rfl
      dsimp only
      rw [hsecond]
      refine hjudge _ 1 n (by omega) ?_ hone.symm
      exact (if_pos hone).symm
    · rw [if_neg hone]
      exact hjudge _ _ (n + 1) (by omega) (if_neg hone).symm rfl

end Alone

end MediaService
