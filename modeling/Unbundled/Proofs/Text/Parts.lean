import Mathlib.Data.List.Basic
import Mathlib.Data.List.Infix
import Unbundled.Text.Basic

/-! # Parts of a text

A byte offset that lies on a character boundary splits a text in one way only. Two texts that make up
the same whole and have the same size are therefore the same (`eq_of_append_eq`), and `splitAt?`
answers with the parts exactly when they exist (`splitAt?_eq_some_iff`). A search finds a pattern
exactly when the pattern is a part of the text (`includes_iff`), and the part before it does not depend
on what comes after it (`cut?_front`). Nor does it matter what comes before, if the pattern is not in
it and does not run over the seam (`cut?_append`). -/

namespace Unbundled.Text

theorem bytes_reverse (t : Text) : bytes t.reverse = bytes t := by
  induction t with
  | nil => rfl
  | cons c t ih =>
    rw [List.reverse_cons, bytes_append, ih, bytes_cons, bytes_cons, bytes_nil, Nat.add_zero,
      Nat.add_comm]

theorem bytes_pos {t : Text} (h : t ≠ []) : 0 < bytes t :=
  Nat.lt_of_lt_of_le (List.length_pos_iff.mpr h) (length_le_bytes t)

theorem splitAt?_eq_some_iff {n : Nat} {t s u : Text} :
    splitAt? n t = some (s, u) ↔ t = s ++ u ∧ bytes s = n := by
  constructor
  · exact append_of_splitAt?
  · rintro ⟨rfl, rfl⟩
    exact splitAt?_bytes s u

/-- **A boundary splits a text in one way only.** -/
theorem eq_of_append_eq {s u s' u' : Text} (h : s ++ u = s' ++ u') (hb : bytes s = bytes s') :
    s = s' ∧ u = u' := by
  have h1 := splitAt?_bytes s u
  rw [h, hb, splitAt?_bytes] at h1
  simp only [Option.some.injEq, Prod.mk.injEq] at h1
  exact ⟨h1.1.symm, h1.2.symm⟩

/-- Of two parts at the front of a text, the shorter one is at the front of the longer one. -/
theorem exists_append_of_bytes_le {s u s' u' : Text} (h : s ++ u = s' ++ u')
    (hb : bytes s ≤ bytes s') : ∃ v, s' = s ++ v ∧ u = v ++ u' := by
  rcases List.append_eq_append_iff.mp h with ⟨v, hs, hu⟩ | ⟨v, rfl, rfl⟩
  · exact ⟨v, hs, hu⟩
  · obtain rfl : v = [] := by
      by_contra hv
      have := bytes_pos hv
      rw [bytes_append] at hb
      omega
    exact ⟨[], by rw [List.append_nil, List.append_nil], rfl⟩

theorem includes_iff {pat t : Text} : includes t pat ↔ pat <:+: t := by
  constructor
  · intro h
    obtain ⟨⟨s, u⟩, hc⟩ := Option.isSome_iff_exists.mp h
    exact ⟨s, u, (append_of_cut? hc).symm⟩
  · unfold includes
    induction t with
    | nil =>
      intro h
      obtain rfl := List.infix_nil.mp h
      rfl
    | cons c t ih =>
      intro h
      rw [cut?]
      rcases List.infix_cons_iff.mp h with ⟨u, hu⟩ | h
      · rw [after?_eq_some_iff.mpr hu.symm]
        rfl
      · split
        · rfl
        · rw [Option.isSome_map, ih h]

theorem cut?_cons (pat : Text) (c : Char) (t : Text) :
    cut? pat (c :: t) = if pat <+: c :: t then some ([], (c :: t).drop pat.length)
      else (cut? pat t).map fun (s, u) => (c :: s, u) := by
  rw [cut?]
  split
  · rename_i u hu
    have := after?_eq_some_iff.mp hu
    rw [this, if_pos (List.prefix_append _ _), List.drop_left]
  · rename_i hn
    rw [if_neg]
    rintro ⟨u, hu⟩
    rw [after?_eq_some_iff.mpr hu.symm] at hn
    exact absurd hn (by simp)

/-- Where the first occurrence of a pattern is does not depend on what comes after it. -/
theorem cut?_front {pat t s u : Text} (hp : pat ≠ []) (h : cut? pat t = some (s, u)) (v : Text) :
    cut? pat (s ++ (pat ++ v)) = some (s, v) := by
  induction t generalizing s with
  | nil =>
    rw [cut?, if_neg hp] at h
    exact absurd h (by simp)
  | cons c t ih =>
    have happ := append_of_cut? h
    rw [cut?_cons] at h
    split at h
    · obtain ⟨rfl, -⟩ := Prod.mk.inj (Option.some.inj h)
      obtain ⟨p, ps, rfl⟩ := List.exists_cons_of_ne_nil hp
      rw [List.nil_append, List.cons_append, cut?_cons, if_pos ⟨v, rfl⟩, ← List.cons_append,
        List.drop_left]
    · rename_i hn
      obtain ⟨⟨s, u⟩, hs, he⟩ := Option.map_eq_some_iff.mp h
      obtain ⟨rfl, rfl⟩ := Prod.mk.inj he
      rw [List.cons_append, cut?_cons, ih hs, if_neg]
      · rfl
      · intro hpre
        rw [← List.cons_append, ← List.append_assoc] at hpre
        have hle : pat.length ≤ (c :: s ++ pat).length := by
          rw [List.length_append]
          exact Nat.le_add_left _ _
        have hfront := List.prefix_of_prefix_length_le hpre (List.prefix_append _ v) hle
        rw [happ] at hn
        exact hn (hfront.trans (List.prefix_append _ u))

/-! ### Seams -/

variable {pat p s t u x : Text} {y z : Char}

theorem cut?_eq_none_iff : cut? pat t = none ↔ ¬ pat <:+: t := by
  rw [← includes_iff, includes, Bool.not_eq_true, Option.isSome_eq_false_iff,
    Option.isNone_iff_eq_none]

/-- No occurrence of a pattern starts in the text `p` and ends in the text `x` after it. -/
def NoSeam (pat p x : Text) : Prop :=
  ∀ s r, s ++ r = pat → s ≠ [] → r ≠ [] → s <:+ p → ¬ r <+: x

theorem NoSeam.not_isPrefix {c : Char} (hs : NoSeam pat (c :: p) x) (hp : ¬ pat <:+: c :: p) :
    ¬ pat <+: c :: (p ++ x) := by
  intro h
  rw [← List.cons_append] at h
  rcases Nat.le_total pat.length (c :: p).length with hle | hle
  · exact hp (List.prefix_of_prefix_length_le h (List.prefix_append _ x) hle).isInfix
  · obtain ⟨r, rfl⟩ := List.prefix_of_prefix_length_le (List.prefix_append _ x) h hle
    have hr : r ≠ [] := by
      rintro rfl
      rw [List.append_nil] at hp
      exact hp (List.infix_refl _)
    exact hs _ r rfl (by simp) hr (List.suffix_refl _) ((List.prefix_append_right_inj _).mp h)

/-- **A pattern that is not in a text and does not run on from it** is where it is in what follows. -/
theorem cut?_append (hp : ¬ pat <:+: p) (hs : NoSeam pat p x) :
    cut? pat (p ++ x) = (cut? pat x).map fun (s, u) => (p ++ s, u) := by
  induction p with
  | nil => simp
  | cons c p ih =>
    have htail := ih (fun h => hp (h.trans (List.suffix_cons c p).isInfix))
      fun s r hpat hne hr hsuf => hs s r hpat hne hr (hsuf.trans (List.suffix_cons c p))
    rw [List.cons_append, cut?_cons, if_neg (hs.not_isPrefix hp), htail, Option.map_map]
    rfl

theorem not_isInfix_append (hp : ¬ pat <:+: p) (hx : ¬ pat <:+: x) (hs : NoSeam pat p x) :
    ¬ pat <:+: p ++ x := by
  rw [← cut?_eq_none_iff, cut?_append hp hs, cut?_eq_none_iff.mpr hx]
  rfl

theorem NoSeam.mono (h : NoSeam pat p (s ++ u)) : NoSeam pat p s :=
  fun a r hpat ha hr hsuf hpre => h a r hpat ha hr hsuf (hpre.trans (List.prefix_append s u))

/-- A pattern whose first character is not in it again does not run into a text that starts with this
character. -/
theorem noSeam_of_head {q : Text} (hq : y ∉ q) (hx : ∀ z ∈ x.head?, z = y) (p : Text) :
    NoSeam (y :: q) p x := by
  rintro s r hpat hs hr - ⟨t, rfl⟩
  obtain ⟨c, s, rfl⟩ := List.exists_cons_of_ne_nil hs
  obtain ⟨d, r, rfl⟩ := List.exists_cons_of_ne_nil hr
  obtain ⟨rfl, rfl⟩ := List.cons.inj hpat
  obtain rfl := hx d rfl
  exact hq (List.mem_append_right s List.mem_cons_self)

/-- A pattern does not run on from a text that ends with a character which it has at most at its
end. -/
theorem noSeam_of_last (hz : z ∉ pat.dropLast) (hp : ∀ c ∈ p.getLast?, c = z) (x : Text) :
    NoSeam pat p x := by
  rintro s r rfl hs hr ⟨t, rfl⟩ -
  rw [List.getLast?_append_of_ne_nil _ hs, List.getLast?_eq_some_getLast hs] at hp
  rw [List.dropLast_append_of_ne_nil hr, ← hp _ rfl] at hz
  exact hz (List.mem_append_left _ (List.getLast_mem hs))

/-- A pattern does not run on from a text that ends with no part of it. -/
theorem noSeam_of_tails (h : ∀ s ∈ p.tails, s ≠ [] → ¬ s <+: pat) (x : Text) : NoSeam pat p x := by
  rintro s r rfl hs - hsuf -
  exact h s ((List.mem_tails s p).mpr hsuf) hs (List.prefix_append s r)

theorem noSeam_singleton (y : Char) (p x : Text) : NoSeam [y] p x := by
  intro s r h hs hr
  have hlen := congrArg List.length h
  rw [List.length_append, List.length_singleton] at hlen
  have := List.length_pos_iff.mpr hs
  have := List.length_pos_iff.mpr hr
  omega

/-- A pattern after a text without it is found there, if its first character is not in it again. -/
theorem cut?_of_not_isInfix {q : Text} (hq : y ∉ q) (hs : ¬ y :: q <:+: s) (u : Text) :
    cut? (y :: q) (s ++ (y :: q ++ u)) = some (s, u) := by
  have hfront : cut? (y :: q) (y :: q ++ u) = some ([], u) := by
    rw [List.cons_append, cut?_cons, if_pos ⟨u, rfl⟩, ← List.cons_append, List.drop_left]
  have hseam : NoSeam (y :: q) s (y :: q ++ u) := noSeam_of_head hq (by simp) s
  rw [cut?_append hs hseam, hfront]
  exact congrArg (fun s => some (s, u)) (List.append_nil s)

theorem cut?_char (hs : y ∉ s) (u : Text) : cut? [y] (s ++ y :: u) = some (s, u) :=
  cut?_of_not_isInfix List.not_mem_nil (fun hi => hs (hi.subset List.mem_cons_self)) u

/-- A pattern that ends a text, and does not end earlier in it, is found there. -/
theorem cut?_of_isSuffix (hp : pat ≠ []) (hs : ¬ pat <:+: (s ++ pat).dropLast) (u : Text) :
    cut? pat (s ++ (pat ++ u)) = some (s, u) := by
  obtain ⟨⟨a, b⟩, hcut⟩ := Option.ne_none_iff_exists'.mp
    fun hn => cut?_eq_none_iff.mp hn (List.suffix_append s pat).isInfix
  have happ := append_of_cut? hcut
  have hb : b = [] := by
    by_contra hb
    rw [happ, List.dropLast_append_of_ne_nil hb] at hs
    exact hs ⟨a, b.dropLast, rfl⟩
  subst hb
  rw [List.append_nil] at happ
  obtain rfl := List.append_cancel_right happ
  exact cut?_front hp hcut u

/-! ### Runs -/

/-- The characters of a class at the front of a text end where none of them follows. -/
theorem span_stop {f : Char → Bool} (hs : ∀ c ∈ s, f c) (ht : ∀ c ∈ t.head?, ¬ f c) :
    (s ++ t).takeWhile f = s ∧ (s ++ t).dropWhile f = t := by
  rw [List.takeWhile_append_of_pos hs, List.dropWhile_append_of_pos hs]
  cases t with
  | nil => exact ⟨List.append_nil s, rfl⟩
  | cons c t =>
    rw [List.takeWhile_cons_of_neg (ht c rfl), List.dropWhile_cons_of_neg (ht c rfl),
      List.append_nil]
    exact ⟨rfl, rfl⟩

/-- What follows a run does not go on with it. -/
theorem head?_dropWhile (f : Char → Bool) (t : Text) : ∀ c ∈ (t.dropWhile f).head?, ¬ f c := by
  intro c hc
  have hhead := List.head?_dropWhile_not f t
  rw [Option.mem_def.mp hc] at hhead
  simpa using hhead

end Unbundled.Text
