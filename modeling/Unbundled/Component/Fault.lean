import Unbundled.Text.Basic

/-! # Failures of component compilation

Why a component file gives no module, and the wording of each reason.
-/

namespace Unbundled.Component

/-- What is wrong with a component. -/
inductive Cause
  /-- The block, or the comment (`!--`), that starts at byte `offset` has no end. -/
  | unclosed (tag : Text) (offset : Nat)
  /-- There is a second block of a kind that a component has one of. -/
  | duplicate (tag : Text)
  /-- The script block is marked `setup`. -/
  | scriptSetup
  /-- There is neither a template nor a script. -/
  | noBlock
  /-- The block refers to another file. -/
  | external (tag source : Text)
  /-- The block is in a language that is not compiled. -/
  | language (tag lang : Text)
  /-- Another reason, given in words. -/
  | other (reason : Text)
  deriving DecidableEq, Repr

/-- The wording of what is wrong. -/
def Cause.message : Cause → Text
  | unclosed tag offset =>
    "unclosed <".toList ++ tag ++ "> block starting at byte ".toList ++ Text.ofNat offset
  | duplicate tag => "a component may contain only one <".toList ++ tag ++ "> block".toList
  | scriptSetup => "<script setup> is not supported".toList
  | noBlock => "a component needs at least one <template> or <script> block".toList
  | external tag source =>
    "<".toList ++ tag ++ " src=\"".toList ++ source ++ "\"> is not supported".toList
  | language tag lang =>
    "<".toList ++ tag ++ " lang=\"".toList ++ lang ++ "\"> is not supported".toList
  | other reason => reason

/-- A failure to compile a component. -/
structure Fault where
  file : Text
  cause : Cause
  deriving DecidableEq, Repr

/-- The wording of a failure. -/
def Fault.message (f : Fault) : Text := f.file ++ ": ".toList ++ f.cause.message

end Unbundled.Component
