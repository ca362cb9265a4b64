import MediaService.Controllers.Shares
import MediaService.Foundation.Base64
import MediaService.Foundation.Json
import MediaService.Foundation.Trimming
import MediaService.Scenario

/-! The two checks of a secret a caller presents: the signature of a share link, and the
token of a service-to-service call. Both end in a comparison in constant time, which is
defined on text within ASCII and raises on any other. -/

namespace MediaService

open Foundation

def isAscii (s : CodePoints) : Bool := s.all (· < 128)

section Share

variable (hmac : Bytes → Bytes → Bytes) (key : Bytes)

end Share

section Verify

variable {hmac : Bytes → Bytes → Bytes} {key : Bytes} {env : Env}

end Verify

/-! ### The service token -/

def bearerPrefix : CodePoints := codePoints "Bearer "

/-- The configured token and what a bearer presents are ASCII, and the token is not the empty
one, which whoever presents nothing presents. -/
def Presentable (expected : CodePoints) (authorization : Option CodePoints) : Prop :=
  isAscii expected = true ∧
    (∀ provided, authorization = some (bearerPrefix ++ provided) → isAscii provided = true) ∧
    (expected = [] → ∃ provided, authorization = some (bearerPrefix ++ provided))

end MediaService
