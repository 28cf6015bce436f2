import Unbundled.Chain.Stage

/-! # Probes

Stages whose behaviour is fixed in advance, for watching a chain at work. A recorder writes to the log
when the request passes it and when it comes back; the other probes answer, fail or crash.
-/

namespace Unbundled

/-- A log of lines, in order. -/
abbrev Lines := List Text

/-- What a probe does. -/
inductive Probe
  /-- Logs the status before and after the rest of the chain, or only before it if that fails. -/
  | record (name : Text)
  | respond (contentType : Text) (body : Body)
  | respondThenNext (contentType : Text) (body : Body)
  | setContentType (contentType : Text)
  | setBody (body : Body)
  | fail (status : Nat) (contentType message : Text)
  | raise (fault : Fault)
  /-- Fails once the rest of the chain has come to its end, unless that fails itself. -/
  | raiseAfterNext (fault : Fault)
  | crash (payload : Crash)
  /-- Runs the rest of the chain twice, unless it fails the first time. -/
  | nextTwice
  deriving DecidableEq, Repr

namespace Probe

/-- A line of a recorder. -/
def entry (name moment : Text) (c : Context) : Text :=
  name ++ ' ' :: moment ++ ' ' :: Text.ofNat c.status

/-- What a probe does with a request. -/
def handle (next : Handler Lines) (c : Context) (log : Lines) : Probe → Outcome Lines
  | record name =>
    let out := next c (log ++ [entry name "before".toList c])
    match out.finish with
    | .done => { out with log := out.log ++ [entry name "after".toList out.context] }
    | _ => out
  | respond contentType body => ⟨.done, c.respond contentType body, log⟩
  | respondThenNext contentType body => next (c.respond contentType body) log
  | setContentType contentType => ⟨.done, { c with contentType := some contentType }, log⟩
  | setBody body => ⟨.done, { c with body := some body }, log⟩
  | fail status contentType message => ⟨.done, c.fail status contentType message, log⟩
  | raise fault => ⟨.failed fault, c, log⟩
  | raiseAfterNext fault =>
    let out := next c log
    match out.finish with
    | .done => { out with finish := .failed fault }
    | _ => out
  | crash payload => ⟨.crashed payload, c, log⟩
  | nextTwice =>
    let out := next c log
    match out.finish with
    | .done => next out.context out.log
    | _ => out

/-- A probe as a stage. -/
def stage (p : Probe) : Stage Lines := ⟨"scripted".toList, fun next c log => p.handle next c log⟩

end Probe

end Unbundled
