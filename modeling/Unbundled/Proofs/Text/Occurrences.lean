import Unbundled.Proofs.Text.Parts

/-! # Occurrences of a pattern

The places of a text at which a pattern stands, counted (`occurrences`). A pattern that does not run over
the seam of two texts stands in both together as often as in each (`occurrences_append`), and a pattern
that stands in a text once cuts it in one way only (`eq_of_occurrences_eq_one`). The search for a pattern
finds its first occurrence (`length_le_of_cut?`). -/

namespace Unbundled.Text

/-- The number of places at which a pattern stands. -/
def occurrences (pat t : Text) : Nat := t.tails.countP (pat.isPrefixOf ·)

variable {pat p s t u x s' u' : Text}

theorem occurrences_nil (h : pat ≠ []) : occurrences pat [] = 0 := by
  obtain ⟨c, pat, rfl⟩ := List.exists_cons_of_ne_nil h
  rfl

theorem occurrences_cons (pat : Text) (c : Char) (t : Text) :
    occurrences pat (c :: t) = occurrences pat t + if pat <+: c :: t then 1 else 0 := by
  rw [occurrences, List.tails_cons, List.countP_cons, occurrences]
  simp only [List.isPrefixOf_iff_prefix]

theorem occurrences_pos_iff : 0 < occurrences pat t ↔ pat <:+: t := by
  rw [occurrences, List.countP_pos_iff]
  constructor
  · rintro ⟨s, hs, hp⟩
    exact (List.isPrefixOf_iff_prefix.mp hp).isInfix.trans ((List.mem_tails s t).mp hs).isInfix
  · rintro ⟨s, u, rfl⟩
    refine ⟨pat ++ u, (List.mem_tails _ _).mpr ⟨s, (List.append_assoc s pat u).symm⟩, ?_⟩
    exact List.isPrefixOf_iff_prefix.mpr (List.prefix_append pat u)

theorem occurrences_eq_zero (h : ¬ pat <:+: t) : occurrences pat t = 0 :=
  Nat.eq_zero_of_not_pos (mt occurrences_pos_iff.mp h)

/-- No occurrence of a pattern starts before the one that is found. -/
theorem length_le_of_cut? (h : cut? pat t = some (s, u)) (hs : t = s' ++ (pat ++ u')) :
    s.length ≤ s'.length := by
  induction t generalizing s s' with
  | nil =>
    have hlen := (List.append_eq_nil_iff.mp (append_of_cut? h).symm).1
    rw [(List.append_eq_nil_iff.mp hlen).1]
    exact Nat.zero_le _
  | cons c t ih =>
    rw [cut?_cons] at h
    split at h
    · obtain ⟨rfl, -⟩ := Prod.mk.inj (Option.some.inj h)
      exact Nat.zero_le _
    · rename_i hfront
      obtain ⟨⟨s, u⟩, ht, he⟩ := Option.map_eq_some_iff.mp h
      obtain ⟨rfl, rfl⟩ := Prod.mk.inj he
      cases s' with
      | nil => exact absurd ⟨u', hs.symm⟩ hfront
      | cons d s' => exact Nat.succ_le_succ (ih ht (List.cons.inj hs).2)

/-! ### Seams -/

/-- A pattern does not run on into a text that starts with none of its characters. -/
theorem noSeam_of_not_mem (hx : ∀ y ∈ x.head?, y ∉ pat) (p : Text) : NoSeam pat p x := by
  rintro s r rfl - hr - ⟨t, rfl⟩
  obtain ⟨y, r, rfl⟩ := List.exists_cons_of_ne_nil hr
  exact hx y rfl (List.mem_append_right s List.mem_cons_self)

theorem NoSeam.isPrefix_iff (h : NoSeam pat p x) (hp : p ≠ []) : pat <+: p ++ x ↔ pat <+: p := by
  refine ⟨fun hpre => ?_, fun hpre => hpre.trans (List.prefix_append p x)⟩
  rcases Nat.le_total pat.length p.length with hle | hle
  · exact List.prefix_of_prefix_length_le hpre (List.prefix_append p x) hle
  · obtain ⟨r, rfl⟩ := List.prefix_of_prefix_length_le (List.prefix_append p x) hpre hle
    by_cases hr : r = []
    · rw [hr, List.append_nil]
    · exact absurd ((List.prefix_append_right_inj p).mp hpre) (h p r rfl hp hr (List.suffix_refl p))

/-- **A pattern that does not run over the seam** stands in two texts as often as in each of them. -/
theorem occurrences_append (hne : pat ≠ []) (h : NoSeam pat p x) :
    occurrences pat (p ++ x) = occurrences pat p + occurrences pat x := by
  induction p with
  | nil => rw [occurrences_nil hne, Nat.zero_add, List.nil_append]
  | cons c p ih =>
    have htail := ih fun s r hpat hs hr hsuf => h s r hpat hs hr (hsuf.trans (List.suffix_cons c p))
    have hiff := h.isPrefix_iff (List.cons_ne_nil c p)
    rw [List.cons_append] at hiff
    rw [List.cons_append, occurrences_cons, occurrences_cons, htail, Nat.add_right_comm,
      if_congr hiff rfl rfl]

/-! ### One place -/

/-- A pattern that stands behind the front of a text, and in the text once, is not at the front. -/
theorem occurrences_tail {c : Char} (h : occurrences pat (c :: t) = 1) (ht : t = s ++ (pat ++ u)) :
    occurrences pat t = 1 ∧ ¬ pat <+: c :: t := by
  have hpos : 0 < occurrences pat t :=
    occurrences_pos_iff.mpr ⟨s, u, (List.append_assoc s pat u).trans ht.symm⟩
  rw [occurrences_cons] at h
  split at h
  · omega
  · exact ⟨h, ‹_›⟩

/-- **A pattern that stands in a text once** stands there in one place only. -/
theorem eq_of_occurrences_eq_one (h : occurrences pat t = 1) (hs : t = s ++ (pat ++ u))
    (hs' : t = s' ++ (pat ++ u')) : s = s' := by
  induction t generalizing s s' with
  | nil =>
    rw [(List.append_eq_nil_iff.mp hs.symm).1, (List.append_eq_nil_iff.mp hs'.symm).1]
  | cons c t ih =>
    cases s with
    | nil =>
      cases s' with
      | nil => rfl
      | cons d s' => exact absurd ⟨u, hs.symm⟩ (occurrences_tail h (List.cons.inj hs').2).2
    | cons d s =>
      obtain ⟨rfl, ht⟩ := List.cons.inj hs
      obtain ⟨hone, hfront⟩ := occurrences_tail h ht
      cases s' with
      | nil => exact absurd ⟨u', hs'.symm⟩ hfront
      | cons d s' =>
        obtain ⟨rfl, ht'⟩ := List.cons.inj hs'
        rw [ih hone ht ht']

end Unbundled.Text
