import Unbundled.Chain.Stage

/-! # The words of a failure

What is said about each kind of failure, in words with places for the files, names and reasons it is
about. One failure may name another as its cause, and then the words of the cause stand in its own.

* `Disk.Fault.Words`, `Package.Fault.Words`, `Component.Cause.Words`, `Fault.Words`: the words, one rule
  for each kind. They are the message of the failure (`Fault.words_iff`).
* `Finish.Words`: the words of a stage that does not come to its end, because it has failed or crashed. -/

namespace Unbundled

/-- The words of a fault of the disk. -/
inductive Disk.Fault.Words : Disk.Fault → Text → Prop
  | notFound : Words .notFound "No such file or directory (os error 2)".toList
  | notFolder : Words .notFolder "Not a directory (os error 20)".toList
  | isFolder : Words .isFolder "Is a directory (os error 21)".toList
  | nameTooLong : Words .nameTooLong "File name too long (os error 36)".toList
  | nulInName : Words .nulInName "file name contained an unexpected NUL byte".toList
  | notText : Words .notText "stream did not contain valid UTF-8".toList
  | other (reason : Text) : Words (.other reason) reason

/-- The words of a specifier without a URL. -/
inductive Package.Fault.Words : Package.Fault → Text → Prop
  | notFound (name : Text) (manifest : Path) : Words (.notFound name manifest)
      ("package `".toList ++ name ++ "` not found (no ".toList ++ manifest.text ++ ")".toList)
  | badManifest (manifest : Path) (message : Text) : Words (.badManifest manifest message)
      ("invalid package manifest ".toList ++ manifest.text ++ ": ".toList ++ message)
  | noEntry (name : Text) (folder : Path) : Words (.noEntry name folder)
      ("entry file for `".toList ++ name ++ "` not found in ".toList ++ folder.text)
  | outsideRoot (file root : Path) : Words (.outsideRoot file root)
      (file.text ++ " lies outside the project root ".toList ++ root.text)

/-- The words of what is wrong with a component. -/
inductive Component.Cause.Words : Component.Cause → Text → Prop
  | unclosed (tag : Text) (offset : Nat) : Words (.unclosed tag offset)
      ("unclosed <".toList ++ tag ++ "> block starting at byte ".toList ++ Nat.toDigits 10 offset)
  | duplicate (tag : Text) : Words (.duplicate tag)
      ("a component may contain only one <".toList ++ tag ++ "> block".toList)
  | scriptSetup : Words .scriptSetup "<script setup> is not supported".toList
  | noBlock : Words .noBlock "a component needs at least one <template> or <script> block".toList
  | external (tag source : Text) : Words (.external tag source)
      ("<".toList ++ tag ++ " src=\"".toList ++ source ++ "\"> is not supported".toList)
  | language (tag lang : Text) : Words (.language tag lang)
      ("<".toList ++ tag ++ " lang=\"".toList ++ lang ++ "\"> is not supported".toList)
  | other (reason : Text) : Words (.other reason) reason

/-- The words of a failure. -/
inductive Fault.Words : Fault → Text → Prop
  | read (file : Path) {cause : Disk.Fault} {t : Text} : cause.Words t → Words (.read file cause)
      ("Failed to read ".toList ++ file.text ++ ": ".toList ++ t)
  | configRead (file : Path) {cause : Disk.Fault} {t : Text} : cause.Words t →
      Words (.configRead file cause)
        ("Failed to read config at ".toList ++ file.text ++ ": ".toList ++ t)
  | configParse (file : Path) (source : Text) : Words (.configParse file source)
      ("Failed to parse config at ".toList ++ file.text ++ ": ".toList ++ source)
  | rootNotFound (root : Path) : Words (.rootNotFound root)
      ("Project root not found: ".toList ++ root.text)
  | package {fault : Package.Fault} {t : Text} : fault.Words t → Words (.package fault) t
  | component (file : Text) {cause : Component.Cause} {t : Text} : cause.Words t →
      Words (.component ⟨file, cause⟩) (file ++ ": ".toList ++ t)
  | transform (path reason : Text) : Words (.transform path reason)
      ("Transform failed for ".toList ++ path ++ ": ".toList ++ reason)

/-- The words of an end before the end. -/
inductive Finish.Words : Finish → Text → Prop
  | failed {fault : Fault} {t : Text} : fault.Words t → Words (.failed fault) t
  | crashed (t : Text) : Words (.crashed (.message t)) ("panic: ".toList ++ t)
  | unknown : Words (.crashed .unknown) "panic: unknown panic".toList

variable {t : Text}

/-! ### Words and wordings -/

theorem Disk.Fault.words_iff {f : Disk.Fault} : f.Words t ↔ f.message = t := by
  constructor
  · intro h
    cases h <;> rfl
  · rintro rfl
    cases f <;> constructor

theorem Package.Fault.words_iff {f : Package.Fault} : f.Words t ↔ f.message = t := by
  constructor
  · intro h
    cases h <;> rfl
  · rintro rfl
    cases f <;> constructor

theorem Component.Cause.words_iff {c : Component.Cause} : c.Words t ↔ c.message = t := by
  constructor
  · intro h
    cases h <;> rfl
  · rintro rfl
    cases c <;> constructor

/-- **The message of a failure is its words.** -/
theorem Fault.words_iff {f : Fault} : f.Words t ↔ f.message = t := by
  constructor
  · intro h
    cases h with
    | read file h | configRead file h =>
      obtain rfl := Disk.Fault.words_iff.mp h
      rfl
    | configParse | rootNotFound | transform => rfl
    | package h => exact Package.Fault.words_iff.mp h
    | component file h =>
      obtain rfl := Component.Cause.words_iff.mp h
      rfl
  · rintro rfl
    cases f with
    | read file cause => exact .read file (Disk.Fault.words_iff.mpr rfl)
    | configRead file cause => exact .configRead file (Disk.Fault.words_iff.mpr rfl)
    | configParse file source => exact .configParse file source
    | rootNotFound root => exact .rootNotFound root
    | package fault => exact .package (Package.Fault.words_iff.mpr rfl)
    | component fault => exact .component fault.file (Component.Cause.words_iff.mpr rfl)
    | transform path reason => exact .transform path reason

end Unbundled
