import Unbundled.Chain.Context
import Unbundled.ContentType
import Unbundled.Fault

/-! # Chains of stages

A request runs through a list of stages. A stage is given the rest of the chain as a function: it may
answer without calling it, call it and go on with what comes back, or only call it. What a stage has
done to the context stays done when it fails.

Besides the context, stages may pass on a log, of a type that the chain does not look into.

* `Stage`, `Handler`: a stage, and what the rest of a chain does.
* `runStages`: a list of stages as one handler.
* `boundary`: the stage that turns failures behind it into answers.
* `serve`: a request from its path to its answer.
-/

namespace Unbundled

/-- What a stage that breaks off leaves behind. -/
inductive Crash
  | message (t : Text)
  /-- Something other than a text. -/
  | unknown
  deriving DecidableEq, Repr

/-- How a stage ends. -/
inductive Finish
  | done
  | failed (fault : Fault)
  | crashed (payload : Crash)
  deriving DecidableEq, Repr

/-- What comes back from a stage. -/
structure Outcome (σ : Type) where
  finish : Finish
  context : Context
  log : σ

/-- What the rest of a chain does with a request. -/
abbrev Handler (σ : Type) := Context → σ → Outcome σ

/-- A stage of a chain. -/
structure Stage (σ : Type) where
  name : Text
  /-- What the stage does, given the rest of the chain. -/
  handle : Handler σ → Handler σ

variable {σ : Type}

/-- A list of stages as one handler. Behind the last stage nothing happens. -/
def runStages : List (Stage σ) → Handler σ
  | [] => fun c log => ⟨.done, c, log⟩
  | stage :: rest => stage.handle (runStages rest)

/-- The wording of a crash. -/
def Crash.describe : Crash → Text
  | message t => "panic: ".toList ++ t
  | unknown => "panic: unknown panic".toList

/-- The request answered with an internal error. -/
def Context.failInternal (c : Context) (message : Text) : Context :=
  c.fail 500 ContentType.plainText message

/-- The stage that turns failures and crashes behind it into answers. -/
def boundary : Stage σ where
  name := "error-boundary".toList
  handle next c log :=
    let out := next c log
    match out.finish with
    | .done => out
    | .failed fault => ⟨.done, out.context.failInternal fault.message, out.log⟩
    | .crashed payload => ⟨.done, out.context.failInternal payload.describe, out.log⟩

/-- **A request, from its path to its answer.** A failure that no stage has turned into an answer
becomes one here; a crash does not. -/
def serve (stages : List (Stage σ)) (target : Text) (log : σ) : Outcome σ :=
  let out := runStages stages (Context.ofRequest target) log
  match out.finish with
  | .failed fault => ⟨.done, out.context.failInternal fault.message, out.log⟩
  | _ => out

end Unbundled
