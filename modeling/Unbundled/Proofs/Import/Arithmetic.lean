import Unbundled.Proofs.Import.Elsewhere
import Unbundled.Proofs.Source.Arithmetic

/-! # Arithmetic before imports

A statement that only computes something holds no import, and what is imported behind it should not
depend on it. Token by token the scan passes such a statement (`scanFrom_spaced`), unless a division
right behind `++` or `--` is taken for the start of a regular expression that no later division of the
statement ends: this one takes along what follows up to the next slash.

* `scan_calculation_iff`: the statements that can be put before any source.
* `scan_plain_calculation`: those without a division right behind `++` or `--` can. -/

namespace Unbundled.Import

open Source

variable {b r t v : Text} {x : Char} {k : Source.Token} {n : Nat} {ks : List (Source.Token × Nat)}

/-! ### One token -/

theorem scanFrom_spaces (n : Nat) (b t : Text) :
    scanFrom ⟨b, List.replicate n ' ' ++ t⟩ = scanFrom ⟨(List.replicate n ' ').reverse ++ b, t⟩ := by
  refine scanFrom_plains fun c hc => ?_
  rw [List.eq_of_mem_replicate hc]
  rfl

/-- A token that is no division is passed. -/
theorem scanFrom_token (hk : k ≠ .operator .divide) (ht : NoWord t) :
    scanFrom ⟨b, k.text ++ t⟩ = scanFrom ⟨k.text.reverse ++ b, t⟩ := by
  cases k with
  | name y =>
    have hkey {w : Text} (hw : w ∈ reservedWords) : y.text ≠ w := by
      rintro rfl
      exact y.free hw
    exact scanFrom_name y.isWord ht (hkey (by decide)) (hkey (by decide))
  | number m =>
    exact scanFrom_plains fun c hc => isPlain_of_isDigit (List.all_eq_true.mp m.digits c hc)
  | operator o =>
    cases o with
    | divide => exact absurd rfl hk
    | plus | minus | times | modulo => exact scanFrom_plains (List.all_eq_true.mp (by decide))
  | openParen | closeParen | openBracket | closeBracket | increment | decrement =>
    exact scanFrom_plains (List.all_eq_true.mp (by decide))

theorem commentEnd?_gap {x : Char} (hx : x = ' ' ∨ x = ';') (t : Text) : commentEnd? (x :: t) = none :=
  commentEnd?_eq_none_iff.mpr (by rcases hx with rfl | rfl <;> decide)

/-- A slash that divides is passed. -/
theorem scanFrom_divide (hx : x = ' ' ∨ x = ';') (ha : regexAllowed b = false) :
    scanFrom ⟨b, '/' :: x :: t⟩ = scanFrom ⟨'/' :: b, x :: t⟩ := by
  have hread : Lexeme.read b '/' (x :: t) = .single := by
    rw [Lexeme.read, if_neg (by decide), Lexeme.readFlat, if_pos rfl, commentEnd?_gap hx]
    dsimp only
    rw [ha, if_neg Bool.false_ne_true]
  exact scanFrom_other (c := ⟨b, '/' :: x :: t⟩) rfl hread (by decide)

/-- A slash that starts a regular expression takes it along, which ends `n` characters behind `u`. -/
theorem scanFrom_regex {u : Text} (ht : u ++ t = x :: v) (hx : x = ' ' ∨ x = ';')
    (ha : regexAllowed b = true) (hn : regexEnd? false (u ++ t) = some (n + u.length)) :
    scanFrom ⟨b, '/' :: (u ++ t)⟩ =
      scanFrom ((⟨u.reverse ++ '/' :: b, t⟩ : Cursor).advance (n + wordEnd (t.drop n))) := by
  have hread : Lexeme.read b '/' (u ++ t) =
      ⟨.regex, n + u.length + wordEnd ((u ++ t).drop (n + u.length))⟩ := by
    rw [Lexeme.read, if_neg (by decide), Lexeme.readFlat, if_pos rfl, ht, commentEnd?_gap hx, ← ht]
    dsimp only
    rw [ha, if_pos rfl, hn]
  have hdrop : (u ++ t).drop (n + u.length) = t.drop n := by
    rw [Nat.add_comm, List.drop_length_add_append]
  have hpass := @Cursor.advance_length ⟨b, '/' :: (u ++ t)⟩ ('/' :: u) t rfl
  have hlen : n + u.length + wordEnd (t.drop n) + 1 =
      ('/' :: u).length + (n + wordEnd (t.drop n)) := by
    rw [List.length_cons]
    omega
  rw [hdrop] at hread
  rw [scanFrom_other (c := ⟨b, '/' :: (u ++ t)⟩) rfl hread (by simp), hlen, ← Cursor.advance_advance,
    hpass, List.reverse_cons, List.append_assoc, List.singleton_append]

/-! ### All tokens -/

theorem regexEnd?_gap (i : Bool) (g : Nat) (t : Text) :
    regexEnd? i (List.replicate g ' ' ++ t) = (regexEnd? i t).map (· + g) := by
  rw [regexEnd?_inert i (isInert_spaces g), List.length_replicate]

/-- A regular expression that a later division ends. -/
theorem scanFrom_closed {g m : Nat} {ks₁ ks₂ : List (Source.Token × Nat)} {p : Text}
    (hs : Separated ((.operator .divide, g) :: (ks₁ ++ (.operator .divide, m) :: ks₂)) r.head?)
    (ha : regexAllowed b = true) (hp : p = '/' :: (List.replicate g ' ' ++ (spaced ks₁ ++ ['/'])))
    (hn : regexEnd? false (spaced (ks₁ ++ (.operator .divide, m) :: ks₂) ++ r) =
      some ((spaced ks₁).length + 1)) :
    scanFrom ⟨b, spaced ((.operator .divide, g) :: (ks₁ ++ (.operator .divide, m) :: ks₂)) ++ r⟩ =
      scanFrom ⟨p.reverse ++ b, List.replicate m ' ' ++ (spaced ks₂ ++ r)⟩ := by
  obtain ⟨x, v, hv, hx⟩ := hs.exists_cons
  have hsep : Separated ((.operator .divide, m) :: ks₂) r.head? := hs.2.of_append
  obtain ⟨y, u, hu, hy⟩ := hsep.exists_cons
  have hflags : wordEnd (List.replicate m ' ' ++ (spaced ks₂ ++ r)) = 0 := by
    rw [hu]
    rcases hy with rfl | rfl <;> rfl
  have hsplit : List.replicate g ' ' ++ (spaced (ks₁ ++ (.operator .divide, m) :: ks₂) ++ r) =
      (List.replicate g ' ' ++ (spaced ks₁ ++ ['/'])) ++
        (List.replicate m ' ' ++ (spaced ks₂ ++ r)) := by
    simp [spaced, Token.text]
  have hend := regexEnd?_gap false g (spaced (ks₁ ++ (.operator .divide, m) :: ks₂) ++ r)
  have hlen : (spaced ks₁).length + 1 + g =
      0 + (List.replicate g ' ' ++ (spaced ks₁ ++ ['/'])).length := by
    simp only [List.length_append, List.length_replicate, List.length_singleton]
    omega
  rw [hn, Option.map_some, hlen, hsplit] at hend
  have hregex := scanFrom_regex (hsplit.symm.trans hv) hx ha hend
  rw [List.drop_zero, hflags, Cursor.advance_zero, ← hsplit] at hregex
  rw [spaced_cons, hp, List.reverse_cons, List.append_assoc, List.singleton_append]
  exact hregex

/-- A regular expression that is still open at the end of the tokens. -/
theorem scanFrom_open {g j : Nat} {i : Bool} (hs : Separated ((.operator .divide, g) :: ks) r.head?)
    (ha : regexAllowed b = true)
    (hn : regexEnd? false (spaced ks ++ r) = (regexEnd? i r).map (· + (spaced ks).length))
    (hj : j ∈ (Mode.regex i).further? r) :
    scanFrom ⟨b, spaced ((.operator .divide, g) :: ks) ++ r⟩ =
      scanFrom ((⟨(spaced ((.operator .divide, g) :: ks)).reverse ++ b, r⟩ : Cursor).advance j) := by
  obtain ⟨x, v, hv, hx⟩ := hs.exists_cons
  obtain ⟨n, hi, rfl⟩ := Option.map_eq_some_iff.mp hj
  have hend := regexEnd?_gap false g (spaced ks ++ r)
  have hlen : n + (spaced ks).length + g = n + (List.replicate g ' ' ++ spaced ks).length := by
    simp only [List.length_append, List.length_replicate]
    omega
  rw [hn, hi, Option.map_some, Option.map_some, hlen, ← List.append_assoc] at hend
  rw [← List.append_assoc] at hv
  have hregex := scanFrom_regex hv hx ha hend
  simpa [spaced, Token.text] using hregex

/-- **Tokens are passed**, and with them a regular expression that is still open at their end. -/
theorem scanFrom_spaced {d : Bool} (hs : Separated ks r.head?) (hb : ks ≠ [] → NoWord b)
    (ha : regexAllowed b = !d) (hn : n ∈ ((Mode.script d).after (ks.map Prod.fst)).further? r) :
    scanFrom ⟨b, spaced ks ++ r⟩ =
      scanFrom ((⟨(spaced ks).reverse ++ b, r⟩ : Cursor).advance n) := by
  generalize hl : ks.length = l
  induction l using Nat.strongRecOn generalizing ks b d with
  | ind l ih =>
    cases ks with
    | nil =>
      obtain rfl : 0 = n := Option.some.inj hn
      rw [Cursor.advance_zero]
      rfl
    | cons k ks =>
      obtain ⟨k, g⟩ := k
      have hlt : ks.length < l := by rw [← hl]; exact Nat.lt_succ_self _
      -- how the scan goes on behind the text `p` of a token `j` and before the tokens `ls`
      have hrest {j : Source.Token} {m : Nat} {ls : List (Source.Token × Nat)} {p : Text}
          (hlt : ls.length < l) (hsep : Separated ((j, m) :: ls) r.head?)
          (hp : regexAllowed (p.reverse ++ b) = !j.divides)
          (hm : n ∈ ((Mode.script j.divides).after (ls.map Prod.fst)).further? r)
          (hsplit : spaced ((k, g) :: ks) = p ++ (List.replicate m ' ' ++ spaced ls)) :
          scanFrom ⟨p.reverse ++ b, List.replicate m ' ' ++ (spaced ls ++ r)⟩ =
            scanFrom ((⟨(spaced ((k, g) :: ks)).reverse ++ b, r⟩ : Cursor).advance n) := by
        have hword : ls ≠ [] → NoWord ((List.replicate m ' ').reverse ++ (p.reverse ++ b)) := by
          intro hne
          obtain ⟨m, rfl⟩ := Nat.exists_eq_succ_of_ne_zero fun h0 => hne (hsep.1 h0).1
          rw [List.reverse_replicate, List.replicate_succ]
          exact noWord_cons (by decide) _
        have hslash := (regexAllowed_spaces m (p.reverse ++ b)).trans hp
        rw [scanFrom_spaces, ih ls.length hlt hsep.2 hword hslash hm rfl, hsplit]
        simp only [List.reverse_append, List.append_assoc]
      have hself : spaced ((k, g) :: ks) = k.text ++ (List.replicate g ' ' ++ spaced ks) := by
        simp [spaced]
      have htoken := regexAllowed_token k (hb (List.cons_ne_nil _ _))
      obtain ⟨x, v, hv, hx⟩ := hs.exists_cons
      rw [List.map_cons, Mode.after_cons] at hn
      by_cases hk : k = .operator .divide
      · subst hk
        cases d with
        | true =>
          rw [← hrest hlt hs htoken hn hself, spaced_cons, hv]
          exact scanFrom_divide hx ha
        | false =>
          change n ∈ ((Mode.regex false).after (ks.map Prod.fst)).further? r at hn
          rcases regexEnd?_spaced ks false r with ⟨ks₁, m, ks₂, rfl, he, hm⟩ | ⟨i, hm, he⟩
          · have hslash (u : Text) : regexAllowed (('/' :: (u ++ ['/'])).reverse ++ b) = false := by
              rw [List.reverse_cons, List.reverse_append]
              rfl
            rw [hm] at hn
            rw [scanFrom_closed hs ha rfl he]
            refine hrest ?_ hs.2.of_append ?_ hn (by simp [spaced, Token.text])
            · rw [List.length_append, List.length_cons] at hlt
              omega
            · rw [← List.append_assoc]
              exact hslash _
          · rw [hm] at hn
            exact scanFrom_open hs ha he hn
      · have hnext : NoWord (List.replicate g ' ' ++ (spaced ks ++ r)) := by
          rw [hv]
          rcases hx with rfl | rfl <;> exact noWord_cons (by decide) v
        rw [Mode.next_script hk] at hn
        rw [← hrest hlt hs htoken hn hself, spaced_cons]
        exact scanFrom_token hk hnext

/-! ### Statements -/

/-- An arithmetic expression as a statement, up to its semicolon. -/
structure Calculation where
  expression : Expression
  /-- The tokens, each with the number of spaces behind it. -/
  tokens : List (Source.Token × Nat)
  spelled : tokens.map Prod.fst = expression.tokens
  separated : Separated tokens (some ';')

namespace Calculation

def text (p : Calculation) : Text := spaced p.tokens ++ [';']

/-- What the scan is in before the semicolon. -/
def mode (p : Calculation) : Mode := (Mode.script false).after p.expression.tokens

end Calculation

/-- The tokens of a statement are passed. -/
theorem scan_calculation {p : Calculation} {s : Text} (hn : n ∈ p.mode.further? (';' :: s)) :
    scan (p.text ++ s) = scanFrom ((⟨(spaced p.tokens).reverse, ';' :: s⟩ : Cursor).advance n) := by
  rw [Calculation.mode, ← p.spelled] at hn
  have hpass := scanFrom_spaced (b := []) (r := ';' :: s) p.separated (fun _ _ h => absurd h (by simp))
    rfl hn
  rw [List.append_nil] at hpass
  rw [Calculation.text, List.append_assoc, List.singleton_append]
  exact hpass

/-- A statement in which every regular expression that starts at a division is ended by another one is
passed whole. -/
theorem scan_of_isScript {p : Calculation} (hp : p.mode.isScript) (s : Text) :
    scan (p.text ++ s) = (scan s).map (shift (Text.bytes p.text)) := by
  obtain ⟨d, hd⟩ : ∃ d, p.mode = .script d := by
    cases hm : p.mode with
    | script d => exact ⟨d, rfl⟩
    | regex i =>
      rw [hm] at hp
      exact absurd hp Bool.false_ne_true
  have hbytes : Text.bytes (';' :: (spaced p.tokens).reverse) = Text.bytes p.text := by
    rw [Calculation.text, Text.bytes_append, Text.bytes_cons, Text.bytes_cons, Text.bytes_reverse,
      Text.bytes_nil]
    omega
  rw [scan_calculation (n := 0) (by rw [hd]; rfl), Cursor.advance_zero, scanFrom_plain (by decide),
    scanFrom_semicolon, hbytes]

/-- A statement without a division right behind `++` or `--`. -/
theorem scan_plain_calculation (p : Calculation) (hp : p.expression.Plain) (s : Text) :
    scan (p.text ++ s) = (scan s).map (shift (Text.bytes p.text)) := by
  refine scan_of_isScript ?_ s
  rw [Calculation.mode, p.expression.after_plain hp]
  rfl

/-- **The statements that can be put before any source**: exactly those in which every regular
expression that starts at a division is ended by another one. -/
theorem scan_calculation_iff (p : Calculation) :
    (∀ s, scan (p.text ++ s) = (scan s).map (shift (Text.bytes p.text))) ↔ p.mode.isScript := by
  constructor
  · intro h
    by_contra hm
    obtain ⟨i, hi⟩ : ∃ i, p.mode = .regex i := by
      cases hp : p.mode with
      | script d => exact absurd (by rw [hp]; rfl) hm
      | regex i => exact ⟨i, rfl⟩
    -- no bracket is open, so the next slash ends the regular expression
    have hfalse : i = false := Bool.eq_false_iff.mpr fun ht => by
      rw [ht] at hi
      exact absurd (p.expression.after_ne hi) (by simp)
    subst hfalse
    have hs := h "import \x27x\x27 /".toList
    rw [scan_calculation (n := 13) (by rw [hi]; decide), scanFrom_nil rfl] at hs
    have hx : scan "import \x27x\x27 /".toList = [⟨7, 10, ['x'], .static⟩] := by decide +kernel
    rw [hx] at hs
    exact absurd hs (by simp)
  · exact fun hm s => scan_of_isScript hm s

/-- `i ++ / n;` -/
def increments : Calculation where
  expression := .binary (.increment (.name ⟨['i'], ⟨by decide, by decide⟩, by decide⟩)) .divide
    (.name ⟨['n'], ⟨by decide, by decide⟩, by decide⟩)
  tokens := [(.name ⟨['i'], ⟨by decide, by decide⟩, by decide⟩, 1), (.increment, 1),
    (.operator .divide, 1), (.name ⟨['n'], ⟨by decide, by decide⟩, by decide⟩, 0)]
  spelled := rfl
  separated := by simp [Separated]

/-- The division behind `++` is taken for a regular expression, which takes the import along. -/
theorem exists_swallowed : ∃ (p : Calculation) (s : Text),
    p.text ++ s = "i ++ / n; import x from \x27x\x27; y / z;".toList ∧
      (scan s).map (shift (Text.bytes p.text)) = [⟨24, 27, ['x'], .static⟩] ∧
      scan (p.text ++ s) = [] := by
  refine ⟨increments, " import x from \x27x\x27; y / z;".toList, ?_, ?_, ?_⟩ <;> decide +kernel

end Unbundled.Import
