import Mathlib.Tactic.Common
import Unbundled.Source.Lexeme
import Unbundled.Text.Utf8

/-! # Reading by index

The lexemes of a text can also be read from its bytes, by index. Such a reader can fail: an index can lie
out of range, a slice can start or end inside a character, and a turn of a loop can lead nowhere. A
reader that fails gives nothing (`none`), and so does every reader that calls it.

A byte is seen as the character with its number (`units`): every mark that a reader looks for is ASCII.
A `loop` takes one turn after another, each of which has to lead on.

* `loop_induction`: what holds for the last turn of a loop, and from each turn for the one before it,
  holds for the loop.
* `le_of_…`, `lt_of_…`: a reader ends at or after the place where it has started. -/

namespace Unbundled.Source.Indexed

/-! ### Bytes -/

/-- The bytes of a text, each as the character with its number. -/
def units (t : Text) : Text := (Text.encode t).map fun b => Char.ofNat b.toNat

/-- The number of bytes of a text. -/
def size (source : Text) : Nat := (Text.encode source).length

/-- The byte at an index. -/
def byteAt? (source : Text) (i : Nat) : Option Char := (units source)[i]?

/-- The text between two indices. Both lie on boundaries of characters, in this order. -/
def slice? (source : Text) (i j : Nat) : Option Text :=
  (Text.splitAt? j source).bind fun front => (Text.splitAt? i front.1).map Prod.snd

/-- Where the bytes `pat` begin, counted from `i`, if they are found. The bytes from `i` on are a
slice, too. -/
def find? (source pat : Text) (i : Nat) : Option (Option Nat) :=
  if i ≤ size source then
    some ((Text.cut? pat ((units source).drop i)).map fun parts => parts.1.length)
  else none

theorem length_units (t : Text) : (units t).length = size t := List.length_map _

theorem lt_size_of_byteAt? {source : Text} {i : Nat} {x : Char} (h : byteAt? source i = some x) :
    i < size source := by
  rw [← length_units]
  exact (List.getElem?_eq_some_iff.mp h).1

/-! ### Loops -/

/-- What a turn of a loop leads to: another state and place, or the end of the loop. -/
inductive Sequel (σ α : Type)
  | next (s : σ) (i : Nat)
  | done (a : α)

variable {σ α : Type}

/-- A loop over the bytes from the index `i` on. It fails if one of its turns fails or does not lead
on; `last` is its result at the end of the bytes. -/
def loop (source : Text) (turn : σ → Nat → Char → Option (Sequel σ α)) (last : σ → Nat → α) (s : σ)
    (i : Nat) : Option α :=
  match _h : byteAt? source i with
  | none => some (last s i)
  | some x =>
    match turn s i x with
    | none => none
    | some (.done a) => some a
    | some (.next s' j) => if i < j then loop source turn last s' j else none
termination_by size source - i
decreasing_by
  have := lt_size_of_byteAt? (by assumption)
  omega

section Loop

variable {source : Text} {turn : σ → Nat → Char → Option (Sequel σ α)} {last : σ → Nat → α} {s s' : σ}
  {i j : Nat} {x : Char} {a : α}

theorem loop_none (h : byteAt? source i = none) : loop source turn last s i = some (last s i) := by
  rw [loop]
  split
  · rfl
  · rename_i hx
    rw [h] at hx
    exact absurd hx (by simp)

theorem loop_some (h : byteAt? source i = some x) :
    loop source turn last s i =
      match turn s i x with
      | none => none
      | some (.done a) => some a
      | some (.next s' j) => if i < j then loop source turn last s' j else none := by
  rw [loop]
  split
  · rename_i hx
    rw [h] at hx
    exact absurd hx (by simp)
  · rename_i hx
    rw [h] at hx
    obtain rfl := Option.some.inj hx
    rfl

theorem loop_done (h : byteAt? source i = some x) (ht : turn s i x = some (.done a)) :
    loop source turn last s i = some a := by
  rw [loop_some h, ht]

theorem loop_next (h : byteAt? source i = some x) (ht : turn s i x = some (.next s' j)) (hij : i < j) :
    loop source turn last s i = loop source turn last s' j := by
  rw [loop_some h, ht]
  exact if_pos hij

theorem loop_induction {R : Nat → α → Prop} (hle : ∀ i j a, i ≤ j → R j a → R i a)
    (hdone : ∀ s i x a, byteAt? source i = some x → turn s i x = some (.done a) → R i a)
    (hlast : ∀ s i, R i (last s i)) (h : loop source turn last s i = some a) : R i a := by
  generalize hn : size source - i = n
  induction n using Nat.strongRecOn generalizing s i with
  | ind n ih =>
    cases hx : byteAt? source i with
    | none =>
      rw [loop_none hx] at h
      obtain rfl := Option.some.inj h
      exact hlast s i
    | some x =>
      have hlt := lt_size_of_byteAt? hx
      rw [loop_some hx] at h
      split at h
      · exact absurd h (by simp)
      · rename_i ht
        obtain rfl := Option.some.inj h
        exact hdone s i x _ hx ht
      · rename_i s' j ht
        split at h
        · rename_i hij
          exact hle i j a (Nat.le_of_lt hij) (ih _ (by omega) h rfl)
        · exact absurd h (by simp)

end Loop

/-! ### Readers -/

section Readers

variable (source : Text)

/-- The end of the characters of a class. -/
def spanEnd? (p : Char → Bool) (i : Nat) : Option Nat :=
  loop source (fun _ i x => some (if p x then .next () (i + 1) else .done i)) (fun _ i => i) () i

/-- The end of a word. -/
def wordEnd? (i : Nat) : Option Nat :=
  loop source (fun _ i x => some (if isWordChar x then .next () (i + 1) else .done i)) (fun _ i => i) () i

/-- Whether the slash at an index opens a comment. -/
def opensComment (i : Nat) : Bool :=
  byteAt? source (i + 1) == some '/' || byteAt? source (i + 1) == some '*'

/-- The end of a comment. -/
def comment? (i : Nat) : Option Nat := do
  let mark ← byteAt? source (i + 1)
  let close := if mark = '/' then ['\n'] else ['*', '/']
  let found ← find? source close (i + 2)
  some ((found.map fun n => i + 2 + n + close.length).getD (size source))

/-- A turn of the loop over blanks and comments. -/
def triviaTurn (_ : Unit) (i : Nat) (x : Char) : Option (Sequel Unit Nat) :=
  if isSpace x then some (.next () (i + 1))
  else if x = '/' && opensComment source i then (comment? source i).map (.next ())
  else some (.done i)

/-- The end of blanks and comments. -/
def trivia? (i : Nat) : Option Nat := loop source (triviaTurn source) (fun _ i => i) () i

/-- A turn of the loop over a string. -/
def stringTurn (q : Char) (_ : Unit) (i : Nat) (x : Char) : Option (Sequel Unit (Option Nat)) :=
  some (if x = '\\' then .next () (i + 2)
    else if x = '\n' then .done none
    else if x = q then .done (some (i + 1))
    else .next () (i + 1))

/-- The end of a string, if it is closed on its line. -/
def string? (i : Nat) : Option (Option Nat) := do
  let q ← byteAt? source i
  loop source (stringTurn q) (fun _ _ => none) () (i + 1)

/-- The index of the last byte before `i` that is not white space. -/
def solidBefore? : Nat → Option (Option Nat)
  | 0 => some none
  | i + 1 => do
    let x ← byteAt? source i
    if isSpace x then solidBefore? i else some (some i)

/-- The last byte before `i` that is not white space. -/
def solidByte? (i : Nat) : Option (Option Char) := do
  match ← solidBefore? source i with
  | none => some none
  | some last => (byteAt? source last).map some

/-- The start of the word that ends at `i`. -/
def wordStart? : Nat → Option Nat
  | 0 => some 0
  | i + 1 => do
    let x ← byteAt? source i
    if isWordChar x then wordStart? i else some (i + 1)

/-- Whether a slash at `i` opens a regular expression. -/
def regexAllowed? (i : Nat) : Option Bool := do
  match ← solidBefore? source i with
  | none => some true
  | some last =>
    let x ← byteAt? source last
    if operatorMarks.contains x then some true
    else if isWordChar x then
      let word ← slice? source (← wordStart? source last) (last + 1)
      some (operatorWords.contains word)
    else some false

/-- A turn of the loop over a regular expression. -/
def regexTurn (inBrackets : Bool) (i : Nat) (x : Char) : Option (Sequel Bool (Option Nat)) :=
  if x = '\\' then some (.next inBrackets (i + 2))
  else if x = '\n' then some (.done none)
  else if x = '[' then some (.next true (i + 1))
  else if x = ']' then some (.next false (i + 1))
  else if x = '/' && !inBrackets then (wordEnd? source (i + 1)).map fun j => .done (some j)
  else some (.next inBrackets (i + 1))

/-- The end of a regular expression. If it is not closed on its line, the slash stands for itself. -/
def regex? (i : Nat) : Option Nat :=
  (loop source (regexTurn source) (fun _ _ => none) false (i + 1)).map (·.getD (i + 1))

/-- The end of a comment, a regular expression or a string, or of a single byte. -/
def part? (i : Nat) (x : Char) : Option Nat :=
  if x = '/' then
    if opensComment source i then comment? source i
    else do if ← regexAllowed? source i then regex? source i else some (i + 1)
  else if isQuote x then (string? source i).map (·.getD (i + 1))
  else some (i + 1)

mutual

/-- The end of a template literal, from a place in its text on. One that is not closed runs to the end
of the bytes. -/
def template? (i : Nat) : Option Nat :=
  match _h : byteAt? source i with
  | none => some (size source)
  | some x =>
    if x = '\\' then template? (i + 2)
    else if x = backtick then some (i + 1)
    else if x = '$' ∧ byteAt? source (i + 1) = some '\x7b' then
      match expression? 0 (i + 2) with
      | none => none
      | some j => if i < j then template? j else none
    else template? (i + 1)
termination_by size source - i
decreasing_by all_goals have := lt_size_of_byteAt? (by assumption); omega

/-- The end of an expression in a template literal, from a place with `depth` open braces on. -/
def expression? (depth i : Nat) : Option Nat :=
  match _h : byteAt? source i with
  | none => some (size source)
  | some x =>
    if x = '\x7b' then expression? (depth + 1) (i + 1)
    else if x = '\x7d' then
      if depth = 0 then some (i + 1) else expression? (depth - 1) (i + 1)
    else
      match if x = backtick then template? (i + 1) else part? source i x with
      | none => none
      | some j => if i < j then expression? depth j else none
termination_by size source - i
decreasing_by all_goals have := lt_size_of_byteAt? (by assumption); omega

end

end Readers

/-! ### Template literals, byte by byte -/

section Templates

variable {source : Text} {depth i : Nat} {x : Char}

theorem template?_none (h : byteAt? source i = none) : template? source i = some (size source) := by
  rw [template?]
  split
  · rfl
  · rename_i hx
    rw [h] at hx
    exact absurd hx (by simp)

theorem template?_some (h : byteAt? source i = some x) :
    template? source i =
      if x = '\\' then template? source (i + 2)
      else if x = backtick then some (i + 1)
      else if x = '$' ∧ byteAt? source (i + 1) = some '\x7b' then
        match expression? source 0 (i + 2) with
        | none => none
        | some j => if i < j then template? source j else none
      else template? source (i + 1) := by
  rw [template?]
  split
  · rename_i hx
    rw [h] at hx
    exact absurd hx (by simp)
  · rename_i hx
    rw [h] at hx
    obtain rfl := Option.some.inj hx
    rfl

theorem expression?_none (h : byteAt? source i = none) :
    expression? source depth i = some (size source) := by
  rw [expression?]
  split
  · rfl
  · rename_i hx
    rw [h] at hx
    exact absurd hx (by simp)

theorem expression?_some (h : byteAt? source i = some x) :
    expression? source depth i =
      if x = '\x7b' then expression? source (depth + 1) (i + 1)
      else if x = '\x7d' then
        if depth = 0 then some (i + 1) else expression? source (depth - 1) (i + 1)
      else
        match if x = backtick then template? source (i + 1) else part? source i x with
        | none => none
        | some j => if i < j then expression? source depth j else none := by
  rw [expression?]
  split
  · rename_i hx
    rw [h] at hx
    exact absurd hx (by simp)
  · rename_i hx
    rw [h] at hx
    obtain rfl := Option.some.inj hx
    rfl

end Templates

/-! ### Readers lead on -/

section Onward

variable {source : Text} {depth i j : Nat} {x : Char}

theorem le_of_wordEnd? (h : wordEnd? source i = some j) : i ≤ j := by
  refine loop_induction (R := (· ≤ ·)) (fun _ _ _ => Nat.le_trans) ?_ (fun _ => Nat.le_refl) h
  intro _ i x a _ ht
  have := Option.some.inj ht
  split at this
  · exact absurd this (by simp)
  · exact Nat.le_of_eq (Sequel.done.inj this)

theorem lt_of_comment? (h : comment? source i = some j) : i < j := by
  unfold comment? find? at h
  simp only [Option.bind_eq_bind, Option.bind_eq_some_iff] at h
  obtain ⟨mark, -, found, hf, hj⟩ := h
  split at hf
  · obtain rfl := Option.some.inj hj
    cases found with
    | none => simp only [Option.map_none, Option.getD_none]; omega
    | some n => simp only [Option.map_some, Option.getD_some]; omega
  · exact absurd hf (by simp)

theorem le_of_trivia? (h : trivia? source i = some j) : i ≤ j := by
  refine loop_induction (R := (· ≤ ·)) (fun _ _ _ => Nat.le_trans) ?_ (fun _ => Nat.le_refl) h
  intro _ i x a _ ht
  unfold triviaTurn at ht
  split at ht
  · exact absurd ht (by simp)
  split at ht
  · simp at ht
  · exact Nat.le_of_eq (Sequel.done.inj (Option.some.inj ht))

theorem lt_of_string? (h : string? source i = some (some j)) : i < j := by
  unfold string? at h
  obtain ⟨q, -, hl⟩ := Option.bind_eq_some_iff.mp h
  refine loop_induction (R := fun i a => ∀ j ∈ a, i ≤ j) ?_ ?_ (by simp) hl j rfl
  · exact fun i k a hik ha j hj => Nat.le_trans hik (ha j hj)
  · intro _ i x a _ ht
    have hd := Option.some.inj ht
    split_ifs at hd
    all_goals
      cases hd
      simp

theorem lt_of_regex? (h : regex? source i = some j) : i < j := by
  unfold regex? at h
  obtain ⟨found, hl, rfl⟩ := Option.map_eq_some_iff.mp h
  have hle : ∀ j ∈ found, i + 1 ≤ j := by
    refine loop_induction (R := fun i a => ∀ j ∈ a, i ≤ j) ?_ ?_ (by simp) hl
    · exact fun i k a hik ha j hj => Nat.le_trans hik (ha j hj)
    · intro _ i x a _ ht j hj
      obtain rfl := Option.mem_def.mp hj
      have hj : wordEnd? source (i + 1) = some j := by
        unfold regexTurn at ht
        split_ifs at ht
        all_goals simp at ht
        exact ht
      exact Nat.le_trans (Nat.le_succ i) (le_of_wordEnd? hj)
  cases found with
  | none => exact Nat.lt_succ_self i
  | some j => exact hle j rfl

theorem lt_of_part? (h : part? source i x = some j) : i < j := by
  unfold part? at h
  split_ifs at h
  · exact lt_of_comment? h
  · obtain ⟨allowed, -, hr⟩ := Option.bind_eq_some_iff.mp h
    split at hr
    · exact lt_of_regex? hr
    · obtain rfl := Option.some.inj hr
      exact Nat.lt_succ_self i
  · obtain ⟨found, hs, rfl⟩ := Option.map_eq_some_iff.mp h
    cases found with
    | none => exact Nat.lt_succ_self i
    | some j => exact lt_of_string? hs
  · obtain rfl := Option.some.inj h
    exact Nat.lt_succ_self i

/-- Both readers of a template literal lead on. A backslash can lead over the end of the bytes; the
readers then come back to it. -/
theorem le_of_template?_expression? (i : Nat) :
    (∀ j ∈ template? source i, min i (size source) ≤ j) ∧
      ∀ depth, ∀ j ∈ expression? source depth i, min i (size source) ≤ j := by
  generalize hn : size source - i = n
  induction n using Nat.strongRecOn generalizing i with
  | ind n ih =>
    cases hx : byteAt? source i with
    | none =>
      rw [template?_none hx]
      refine ⟨fun j hj => Option.some.inj hj ▸ Nat.min_le_right _ _, fun depth j hj => ?_⟩
      rw [expression?_none hx] at hj
      exact Option.some.inj hj ▸ Nat.min_le_right _ _
    | some x =>
      have hlt := lt_size_of_byteAt? hx
      have htext : ∀ k, i < k → ∀ j ∈ template? source k, min i (size source) ≤ j := by
        intro k hk j hj
        have := (ih _ (by omega) k rfl).1 j hj
        omega
      have hexpr : ∀ k depth, i < k → ∀ j ∈ expression? source depth k, min i (size source) ≤ j := by
        intro k depth hk j hj
        have := (ih _ (by omega) k rfl).2 depth j hj
        omega
      constructor
      · intro j hj
        rw [template?_some hx] at hj
        split_ifs at hj
        · exact htext (i + 2) (by omega) j hj
        · obtain rfl := Option.some.inj hj
          omega
        · split at hj
          · exact absurd hj (by simp)
          split_ifs at hj with hk
          · exact htext _ hk j hj
          · exact absurd hj (by simp)
        · exact htext (i + 1) (by omega) j hj
      · intro depth j hj
        rw [expression?_some hx] at hj
        split_ifs at hj
        · exact hexpr _ _ (by omega) j hj
        · obtain rfl := Option.some.inj hj
          omega
        · exact hexpr _ _ (by omega) j hj
        all_goals
          split at hj
          · exact absurd hj (by simp)
          split_ifs at hj with hk
          · exact hexpr _ _ hk j hj
          · exact absurd hj (by simp)

theorem le_of_template? (h : template? source i = some j) : min i (size source) ≤ j :=
  (le_of_template?_expression? i).1 j h

theorem le_of_expression? (h : expression? source depth i = some j) : min i (size source) ≤ j :=
  (le_of_template?_expression? i).2 depth j h

end Onward

end Unbundled.Source.Indexed
