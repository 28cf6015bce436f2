import Unbundled.Chain.Standard

/-! # HTTP

Every request, whatever its method, is answered by a chain. The answer becomes a response: with a
body, the response is not to be cached; without one, it says in words that nothing was found.

* `Http.pathOf`: the path that the target of a request names.
* `Http.respond`: the response for an answered request.
-/

namespace Unbundled.Http

/-- A response. -/
structure Response where
  status : Nat
  contentType : Text
  cacheControl : Option Text
  body : Bytes
  deriving DecidableEq, Repr

/-- Whether a character may stand in the scheme of a target. -/
def isSchemeChar (c : Char) : Bool := c.isAlphanum || c = '+' || c = '-' || c = '.' || c = '~'

/-- What follows the scheme and the host of a target, if it has a scheme. -/
def afterHost? (target : Text) : Option Text :=
  match Text.cut? "://".toList target with
  | some (scheme, rest) =>
    if scheme.all isSchemeChar then some (rest.dropWhile fun c => c ≠ '/' && c ≠ '?' && c ≠ '#')
    else none
  | none => none

/-- The path that the target of a request names. A target with a scheme but without a path names the
root, and one that is only a host names no path. -/
def pathOf (target : Text) : Text :=
  match afterHost? target with
  | some rest => if (Url.pathPart rest).isEmpty then ['/'] else Url.pathPart rest
  | none =>
    match target with
    | '/' :: _ => Url.pathPart target
    | ['*'] => target
    | _ => []

/-- The status that a response can carry: three digits, or else an internal error. -/
def statusOf (status : Nat) : Nat := if 100 ≤ status && status ≤ 999 then status else 500

/-- The response for an answered request. -/
def respond (c : Context) : Response :=
  match c.body with
  | none =>
    ⟨statusOf c.status, ContentType.plainText, none,
      Text.encode ("Not Found: ".toList ++ c.path)⟩
  | some body =>
    ⟨statusOf c.status, c.contentType.getD ContentType.bytes, some "no-cache".toList,
      body.content⟩

/-- **The response to a request** for a target. -/
def handle (disk : Disk) (settings : ChainSettings) (target : Text) : Response :=
  respond (answer disk settings (pathOf target))

end Unbundled.Http
