import MediaService.Core.Config
import MediaService.Foundation.IpAddress

/-! The guard on webhook targets. A target is checked when it is registered,
without looking its name up, and again before every request, by looking the name
up and inspecting each address of the answer. The guard turns a rejection into
`False`; any other exception of the check passes through it. -/

namespace MediaService

open Foundation

/-- What the guard has from the standard library. -/
structure UrlLibrary where
  /-- `urlsplit`: the scheme and the host name, or the message it raises with. -/
  urlsplit : String → Except String (String × Option String)
  /-- `str.lower`. -/
  lower : String → String
  /-- `repr` of a text. -/
  repr : String → String
  /-- `str` of an address. -/
  str : IpAddress → String

structure WebhookPolicy where
  production : Bool
  allowedInternalHosts : List String
  deriving DecidableEq

/-- The settings a policy is made of. -/
structure WebhookSettings where
  environment : String
  strictProductionMode : Bool
  mediaWebhookAllowedInternalHosts : List String

def WebhookPolicy.fromSettings (lib : UrlLibrary) (settings : WebhookSettings) : WebhookPolicy where
  production := settings.environment = "production" ∨ settings.strictProductionMode
  allowedInternalHosts :=
    (settings.mediaWebhookAllowedInternalHosts.filter fun host => strip host ≠ "").map fun host =>
      lib.lower (strip host)

/-- How a check ends: a rejection, or an exception that is not one. -/
inductive TargetError where
  | webhookTargetError (message : String)
  | valueError (message : String)
  | unicodeError (message : String)
  deriving DecidableEq

/-- How a lookup fails. -/
inductive LookupError where
  | osError
  | unicodeError (message : String)
  deriving DecidableEq

/-- The addresses a name has, as texts. -/
abbrev Resolver := String → Except LookupError (List String)

def isAlwaysBlocked (ip : IpAddress) : Bool :=
  ip.isLoopback || ip.isLinkLocal || ip.isMulticast || ip.isReserved || ip.isUnspecified

def rejectIfBlocked (lib : UrlLibrary) (ip : IpAddress) (host : String) (production : Bool) :
    Except TargetError Unit :=
  if isAlwaysBlocked ip then
    .error (.webhookTargetError
      s!"webhook host {lib.repr host} resolves to a blocked address ({lib.str ip})")
  else if production ∧ ip.isPrivate then
    .error (.webhookTargetError
      (s!"webhook host {lib.repr host} resolves to a private address ({lib.str ip}); " ++
        "add it to MEDIA_WEBHOOK_ALLOWED_INTERNAL_HOSTS to allow"))
  else .ok ()

/-- The host and the scheme of a target. -/
def splitTarget (lib : UrlLibrary) (url : String) : Except TargetError (String × String) :=
  match lib.urlsplit url with
  | .error message => .error (.valueError message)
  | .ok (rawScheme, hostname) =>
    let scheme := lib.lower rawScheme
    if scheme ≠ "http" ∧ scheme ≠ "https" then
      .error (.webhookTargetError "webhook URL scheme must be http or https")
    else
      match hostname with
      | none => .error (.webhookTargetError "webhook URL has no host")
      | some host =>
        if host = "" then .error (.webhookTargetError "webhook URL has no host")
        else .ok (host, scheme)

def resolveIps (lib : UrlLibrary) (host : String) (resolver : Resolver) :
    Except TargetError (List String) :=
  match resolver host with
  | .error .osError =>
    .error (.webhookTargetError s!"could not resolve webhook host {lib.repr host}")
  | .error (.unicodeError message) => .error (.unicodeError message)
  | .ok [] => .error (.webhookTargetError s!"could not resolve webhook host {lib.repr host}")
  | .ok addrs => .ok addrs

/-- `raw.split("%")[0]`. -/
def withoutScope (raw : String) : String := String.ofList (raw.toList.takeWhile (· ≠ '%'))

/-- The addresses of an answer, inspected in order. -/
def rejectAddresses (lib : UrlLibrary) (host : String) (production : Bool) :
    List String → Except TargetError Unit
  | [] => .ok ()
  | raw :: addrs =>
    match IpAddress.ofString (withoutScope raw) with
    | none =>
      .error (.valueError
        s!"{lib.repr (withoutScope raw)} does not appear to be an IPv4 or IPv6 address")
    | some ip =>
      match rejectIfBlocked lib ip host production with
      | .error e => .error e
      | .ok () => rejectAddresses lib host production addrs

/-- `check_webhook_url`; without a resolver names are not looked up. -/
def checkWebhookUrl (lib : UrlLibrary) (policy : WebhookPolicy) (resolver : Option Resolver)
    (url : String) : Except TargetError Unit :=
  match splitTarget lib url with
  | .error e => .error e
  | .ok (host, scheme) =>
    if lib.lower host ∈ policy.allowedInternalHosts then .ok ()
    else if policy.production ∧ scheme ≠ "https" then
      .error (.webhookTargetError "webhook URL must use https under production")
    else
      match IpAddress.ofString host with
      | some literal => rejectIfBlocked lib literal host policy.production
      | none =>
        match resolver with
        | none => .ok ()
        | some resolver =>
          match resolveIps lib host resolver with
          | .error e => .error e
          | .ok addrs => rejectAddresses lib host policy.production addrs

/-- `build_url_guard`: a rejection is `False`. -/
def urlGuard (lib : UrlLibrary) (policy : WebhookPolicy) (resolver : Resolver) (url : String) :
    Except TargetError Bool :=
  match checkWebhookUrl lib policy (some resolver) url with
  | .ok () => .ok true
  | .error (.webhookTargetError _) => .ok false
  | .error e => .error e

end MediaService
