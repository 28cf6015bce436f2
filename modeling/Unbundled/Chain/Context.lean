import Unbundled.Text.Utf8
import Unbundled.Url

/-! # Requests under way

A context is what the stages of a chain share about one request: the path that was asked for, and the
answer as far as there is one. A request that no stage answers stays at status 404, without a body.
-/

namespace Unbundled

/-- The body of an answer. -/
inductive Body
  | text (t : Text)
  | raw (content : Bytes)
  deriving DecidableEq, Repr

/-- The bytes of a body. -/
def Body.content : Body → Bytes
  | text t => Text.encode t
  | raw content => content

/-- A request under way. -/
structure Context where
  /-- The path asked for, without query and fragment. -/
  path : Text
  status : Nat
  contentType : Option Text
  body : Option Body
  deriving DecidableEq, Repr

namespace Context

/-- A request that nothing has been done about. -/
def ofRequest (target : Text) : Context := ⟨Url.pathPart target, 404, none, none⟩

/-- The request with a successful answer. -/
def respond (c : Context) (contentType : Text) (body : Body) : Context :=
  { c with status := 200, contentType := some contentType, body := some body }

/-- The request answered with an error. -/
def fail (c : Context) (status : Nat) (contentType message : Text) : Context :=
  { c with status := status, contentType := some contentType, body := some (.text message) }

/-- Whether the request has an answer. -/
def isHandled (c : Context) : Bool := c.body.isSome

end Context

end Unbundled
