import Unbundled.Component.Block
import Unbundled.Component.Fault

/-! # The blocks of a component file

A component file holds at most one template, at most one script and any number of styles. A block
ends at the first closing tag of its name; only templates may hold further templates. Comments,
blocks of other names and the text between blocks are passed over.

* `tagEnd?`: the end of an opening tag, outside quotes.
* `templateSize?`: the size of the content of a template, up to the closing tag that balances it.
* `Descriptor.parse`: the blocks of a file.
-/

namespace Unbundled.Component

open Source (isQuote)

/-- The blocks of a component file. -/
structure Descriptor where
  template : Option Block
  script : Option Block
  styles : List Block
  deriving DecidableEq, Repr

/-- Whether a character belongs to the name of a tag. -/
def isTagChar (c : Char) : Bool := c.isAlphanum || c == '-'

/-- The texts before and after the `>` that ends an opening tag. A `>` inside quotes does not end
it; `quote` is the one that is open. -/
def tagEnd? (quote : Option Char) : Text → Option (Text × Text)
  | [] => none
  | c :: t =>
    match quote with
    | some q => (tagEnd? (if c = q then none else some q) t).map fun (s, u) => (c :: s, u)
    | none =>
      if c = '>' then some ([], t)
      else (tagEnd? (if isQuote c then some c else none) t).map fun (s, u) => (c :: s, u)

theorem append_of_tagEnd? : ∀ {quote : Option Char} {t s u : Text},
    tagEnd? quote t = some (s, u) → t = s ++ '>' :: u
  | _, [], s, u, h => by simp [tagEnd?] at h
  | some q, c :: t, s, u, h => by
    obtain ⟨⟨s', u'⟩, h', he⟩ := Option.map_eq_some_iff.mp h
    simp only [Prod.mk.injEq] at he
    obtain ⟨rfl, rfl⟩ := he
    rw [append_of_tagEnd? h', List.cons_append]
  | none, c :: t, s, u, h => by
    unfold tagEnd? at h
    dsimp only at h
    split at h
    · rename_i hc
      simp only [Option.some.injEq, Prod.mk.injEq] at h
      obtain ⟨rfl, rfl⟩ := h
      rw [hc]
      rfl
    · obtain ⟨⟨s', u'⟩, h', he⟩ := Option.map_eq_some_iff.mp h
      simp only [Prod.mk.injEq] at he
      obtain ⟨rfl, rfl⟩ := he
      rw [append_of_tagEnd? h', List.cons_append]

theorem length_lt_of_tagEnd? {quote : Option Char} {t s u : Text}
    (h : tagEnd? quote t = some (s, u)) : u.length < t.length := by
  rw [append_of_tagEnd? h, List.length_append, List.length_cons]
  omega

/-- Whether the text inside an opening tag marks it as having no content. -/
def isSelfClosing (inside : Text) : Bool := inside.getLast? == some '/'

/-- The attributes inside an opening tag, without the slashes that mark it as having no content. -/
def attrsOf (inside : Text) : Text :=
  Text.trim ((Text.trim inside).reverse.dropWhile (· == '/')).reverse

/-! ### Templates -/

/-- The opening mark of a template. -/
def templateOpen : Text := "<template".toList

/-- The closing tag of a template. -/
def templateClose : Text := "</template>".toList

/-- Whether a character ends the name in an opening mark. -/
def isTagBoundary (c : Char) : Bool :=
  c == ' ' || c == '\t' || c == '\n' || c == '\r' || c == '>' || c == '/'

/-- The number of characters before the first opening mark of a text, if that is the mark of a
template and not of a longer name. -/
def nestedOpen? (t : Text) : Option Nat :=
  match Text.cut? templateOpen t with
  | some (before, after) => if after.head?.any isTagBoundary then some before.length else none
  | none => none

/-- The number of characters before the closing tag that balances `depth` inner templates and the
outer one. -/
def templateSize? (depth : Nat) (t : Text) : Option Nat :=
  match _h : Text.cut? templateClose t with
  | none => none
  | some (before, after) =>
    match nestedOpen? before with
    | some n =>
      match _h' : tagEnd? none (t.drop (n + templateOpen.length)) with
      | none => none
      | some (inside, beyond) =>
        (templateSize? (if isSelfClosing inside then depth else depth + 1) beyond).map
          (n + templateOpen.length + inside.length + 1 + ·)
    | none =>
      match depth with
      | 0 => some before.length
      | depth + 1 =>
        (templateSize? depth after).map (before.length + templateClose.length + ·)
termination_by t.length
decreasing_by
  · refine Nat.lt_of_lt_of_le (length_lt_of_tagEnd? _h') ?_
    rw [List.length_drop]
    exact Nat.sub_le _ _
  · exact Text.length_lt_of_cut? _h (by decide)

/-! ### Files -/

/-- The texts of a block and after it, from the text after its opening tag. -/
def contentOf? (tag : Text) (t : Text) : Option (Text × Text) :=
  if tag = "template".toList then
    (templateSize? 0 t).map fun n => (t.take n, t.drop (n + templateClose.length))
  else Text.cut? ("</".toList ++ tag ++ ['>']) t

/-- The blocks with one more. Blocks of other names are dropped. -/
def Descriptor.add (d : Descriptor) (tag : Text) (block : Block) : Except Cause Descriptor :=
  if tag = "template".toList then
    if d.template.isSome then .error (.duplicate tag) else .ok { d with template := some block }
  else if tag = "script".toList then
    if block.hasAttr "setup".toList then .error .scriptSetup
    else if d.script.isSome then .error (.duplicate tag)
    else .ok { d with script := some block }
  else if tag = "style".toList then .ok { d with styles := d.styles ++ [block] }
  else .ok d

/-- A block, read from the text after the mark `<` at byte `offset`: its tag, the block itself, and
the text after it. -/
def readBlock (offset : Nat) (t : Text) : Except Cause (Text × Block × Text) :=
  let tag := t.takeWhile isTagChar
  match tagEnd? none (t.dropWhile isTagChar) with
  | none => .error (.unclosed tag offset)
  | some (inside, beyond) =>
    let start := offset + 1 + Text.bytes tag + Text.bytes inside + 1
    if isSelfClosing inside then .ok (tag, ⟨[], attrsOf inside, start⟩, beyond)
    else
      match contentOf? tag beyond with
      | none => .error (.unclosed tag offset)
      | some (content, after) => .ok (tag, ⟨content, attrsOf inside, start⟩, after)

theorem length_contentOf?_le {tag t s u : Text} (h : contentOf? tag t = some (s, u)) :
    u.length ≤ t.length := by
  unfold contentOf? at h
  split at h
  · obtain ⟨n, -, he⟩ := Option.map_eq_some_iff.mp h
    simp only [Prod.mk.injEq] at he
    rw [← he.2]
    simp
  · have := congrArg List.length (Text.append_of_cut? h)
    simp at this
    omega

theorem length_readBlock_lt {offset : Nat} {t tag u : Text} {b : Block}
    (h : readBlock offset t = .ok (tag, b, u)) : u.length < t.length := by
  unfold readBlock at h
  dsimp only at h
  split at h
  · simp at h
  · rename_i inside beyond hb
    have hlen := congrArg List.length (append_of_tagEnd? hb)
    have hdrop := length_dropWhile_le isTagChar t
    simp at hlen
    split at h
    · simp only [Except.ok.injEq, Prod.mk.injEq] at h
      rw [← h.2.2]
      omega
    · split at h
      · simp at h
      · rename_i hc
        have := length_contentOf?_le hc
        simp only [Except.ok.injEq, Prod.mk.injEq] at h
        rw [← h.2.2]
        omega

/-- The blocks of the text from byte `pos` on, after those found before. -/
def Descriptor.parseFrom (d : Descriptor) (pos : Nat) (t : Text) : Except Cause Descriptor :=
  match _h : Text.cut? ['<'] t with
  | none => .ok d
  | some (before, after) =>
    let offset := pos + Text.bytes before
    if "!--".toList.isPrefixOf after then
      match _h' : Text.cut? "-->".toList after with
      | none => .error (.unclosed "!--".toList offset)
      | some (inside, beyond) => d.parseFrom (offset + 1 + Text.bytes inside + 3) beyond
    else if (after.takeWhile isTagChar).isEmpty then d.parseFrom (offset + 1) after
    else
      match _h' : readBlock offset after with
      | .error cause => .error cause
      | .ok (tag, block, beyond) =>
        match d.add tag block with
        | .error cause => .error cause
        | .ok d => d.parseFrom (pos + Text.bytes t - Text.bytes beyond) beyond
termination_by t.length
decreasing_by
  all_goals have ht := Text.length_lt_of_cut? _h (by decide)
  · exact Nat.lt_trans (Text.length_lt_of_cut? _h' (by decide)) ht
  · exact ht
  · exact Nat.lt_trans (length_readBlock_lt _h') ht

/-- **The blocks of a component file.** -/
def Descriptor.parse (source : Text) : Except Cause Descriptor :=
  match Descriptor.parseFrom ⟨none, none, []⟩ 0 source with
  | .error cause => .error cause
  | .ok d => if d.template.isNone && d.script.isNone then .error .noBlock else .ok d

end Unbundled.Component
