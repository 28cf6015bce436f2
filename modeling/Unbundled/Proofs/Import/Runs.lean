import Unbundled.Proofs.Import.Lines
import Unbundled.Proofs.Source.Behind
import Unbundled.Proofs.Source.Continued

/-! # Runs of lexemes

A `Run` goes from one place to another by whole lexemes, and something holds at every place on the
way. It is a walk without leaps (`run_of_walk`, `Run.walk`), told from its first lexeme on.

* `Run.continues`: the text behind the end of a run may be replaced by one that continues alike.
* `Run.behind`: the text before its start may be replaced by one that is alike. -/

namespace Unbundled

open Source

theorem Cursor.advance_cons (b : Text) (x : Char) (t : Text) (n : Nat) :
    (⟨b, x :: t⟩ : Cursor).advance (n + 1) = ⟨(t.take n).reverse ++ x :: b, t.drop n⟩ := by
  rw [advance, List.take_succ_cons, List.drop_succ_cons, List.reverse_cons, List.append_assoc]
  rfl

/-- A step within a front of what is ahead. -/
theorem Cursor.advance_front {n : Nat} {u : Text} (b : Text) (x : Char) (t : Text)
    (h : n ≤ u.length) :
    (⟨b, x :: u ++ t⟩ : Cursor).advance (n + 1) =
      ⟨(u.take n).reverse ++ x :: b, u.drop n ++ t⟩ := by
  rw [List.cons_append, advance_cons, List.take_append_of_le_length h,
    List.drop_append_of_le_length h]

namespace Import

variable {c d e : Cursor} {x : Char} {t : Text}

/-- A walk goes on from the next lexeme, or it has not begun. -/
theorem walk_iff : Walk c [] d ↔ d = c ∨ ∃ x t, c.ahead = x :: t ∧
    Walk (c.advance ((Lexeme.read c.behind x t).size + 1)) [] d := by
  constructor
  · intro h
    generalize hl : ([] : List Cursor) = ls at h
    induction h with
    | stay => exact Or.inl rfl
    | lexeme _ hd ih =>
      rcases ih hl with rfl | ⟨x, t, hc, hw⟩
      · exact Or.inr ⟨_, _, hd, hl ▸ Walk.stay⟩
      · exact Or.inr ⟨x, t, hc, hl ▸ (hw.lexeme hd)⟩
    | leap n _ _ => exact absurd hl.symm (by simp)
  · rintro (rfl | ⟨x, t, hc, hw⟩)
    · exact Walk.stay
    · exact (Walk.stay.lexeme hc).trans hw

theorem walk_cons_iff (h : c.ahead = x :: t) :
    Walk c [] d ↔ d = c ∨ Walk (c.advance ((Lexeme.read c.behind x t).size + 1)) [] d := by
  rw [walk_iff, h]
  simp

/-- A way from one place to another by whole lexemes, with `Q` at every place where one starts. -/
inductive Run (Q : Cursor → Prop) : Cursor → Cursor → Prop
  | stay (c : Cursor) : Run Q c c
  | step {c d : Cursor} {x : Char} {t : Text} : c.ahead = x :: t → Q c →
      Run Q (c.advance ((Lexeme.read c.behind x t).size + 1)) d → Run Q c d

variable {Q R : Cursor → Prop} {P : Text → Prop} {b b' p q s s' u v t' : Text}

namespace Run

theorem trans (h : Run Q c d) (h' : Run Q d e) : Run Q c e := by
  induction h with
  | stay => exact h'
  | step hc hq _ ih => exact .step hc hq (ih h')

theorem walk (h : Run Q c d) : Walk c [] d := by
  induction h with
  | stay => exact Walk.stay
  | step hc _ _ ih => exact (walk_cons_iff hc).mpr (Or.inr ih)

theorem length_le (h : Run Q c d) : d.ahead.length ≤ c.ahead.length := h.walk.onward.length_le

/-- A first lexeme whose size is known. -/
theorem sized {n : Nat} (hc : c.ahead = x :: t) (hq : Q c)
    (hn : (Lexeme.read c.behind x t).size = n) (h : Run Q (c.advance (n + 1)) d) : Run Q c d :=
  .step hc hq (hn ▸ h)

end Run

/-- A walk is a run if `Q` holds at the places that it comes to before its end. -/
theorem run_of_walk (h : Walk c [] d)
    (hQ : ∀ e, Walk c [] e → d.ahead.length < e.ahead.length → Q e) : Run Q c d := by
  generalize hn : c.ahead.length = n
  induction n using Nat.strongRecOn generalizing c with
  | ind n ih =>
    rcases walk_iff.mp h with rfl | ⟨x, t, hc, hw⟩
    · exact .stay d
    · have hlt := Cursor.length_advance_lt hc (Lexeme.read c.behind x t).size
      refine .step hc (hQ c Walk.stay ?_) (ih _ (hn ▸ hlt) hw ?_ rfl)
      · exact Nat.lt_of_le_of_lt hw.onward.length_le hlt
      · exact fun e he => hQ e ((walk_cons_iff hc).mpr (Or.inr he))

/-- Of two places that are walked to, the one that lies further on is walked to from the other. -/
theorem walk_of_walk (hd : Walk c [] d) (he : Walk c [] e) (hle : e.ahead.length ≤ d.ahead.length) :
    Walk d [] e := by
  generalize hn : c.ahead.length = n
  induction n using Nat.strongRecOn generalizing c with
  | ind n ih =>
    rcases walk_iff.mp hd with rfl | ⟨x, t, hc, hd⟩
    · exact he
    · have hlt := Cursor.length_advance_lt hc (Lexeme.read c.behind x t).size
      rcases (walk_cons_iff hc).mp he with rfl | he
      · have := hd.onward.length_le
        omega
      · exact ih _ (hn ▸ hlt) hd he rfl

/-- A word is passed as one lexeme. -/
theorem advance_word {w : Text} (hw : IsWord w) (ht : NoWord t) (h : c.ahead = w ++ t) :
    ∃ x u, c.ahead = x :: u ∧
      c.advance ((Lexeme.read c.behind x u).size + 1) = ⟨w.reverse ++ c.behind, t⟩ := by
  obtain ⟨x, u, rfl, hx, hu⟩ := hw.shape ht
  refine ⟨x, u ++ t, h, ?_⟩
  rw [Lexeme.read_word hx]
  dsimp only
  rw [hu, ← List.length_cons, Cursor.advance_length h]

/-! ### Other surroundings -/

/-- **What follows a run may be replaced** by a text that continues alike. -/
theorem Run.continues (hP : Tailed P) (ht : Continues P t t')
    (hQ : ∀ b u, u ≠ [] → P u → Q ⟨b, u ++ t⟩ → R ⟨b, u ++ t'⟩) (hu : P u)
    (h : Run Q ⟨b, u ++ t⟩ ⟨b', v ++ t⟩) : Run R ⟨b, u ++ t'⟩ ⟨b', v ++ t'⟩ := by
  generalize hc : (⟨b, u ++ t⟩ : Cursor) = c at h
  generalize hd : (⟨b', v ++ t⟩ : Cursor) = d at h
  induction h generalizing b u with
  | stay =>
    obtain ⟨rfl, huv⟩ := Cursor.mk.inj (hc.trans hd.symm)
    rw [List.append_cancel_right huv]
    exact .stay _
  | @step c d x w hx hq hr ih =>
    subst hc hd
    have hlen := hr.length_le
    have hsize := Lexeme.size_read_le b x w
    dsimp only at hx
    rw [Cursor.ahead_advance] at hlen
    dsimp only at hlen
    rw [List.length_drop, List.length_append, List.length_append] at hlen
    cases u with
    | nil =>
      rw [List.nil_append] at hx
      rw [hx, List.length_nil, List.length_cons] at hlen
      omega
    | cons y u =>
      rw [List.cons_append] at hx
      obtain ⟨rfl, rfl⟩ := List.cons.inj hx
      rw [List.length_append] at hsize
      rw [List.length_cons] at hlen
      have hle : (Lexeme.read b y (u ++ t)).size ≤ u.length := by omega
      refine .step rfl (hQ b (y :: u) (List.cons_ne_nil y u) hu hq) ?_
      dsimp only
      rw [List.append_eq, Lexeme.read_continues hP ht hu hle, Cursor.advance_front b y t' hle]
      exact ih (hP.drop (hP y u hu) _) (Cursor.advance_front b y t hle).symm rfl

theorem Walk.continues (hP : Tailed P) (ht : Continues P t t') (hu : P u)
    (h : Walk ⟨b, u ++ t⟩ [] ⟨b', v ++ t⟩) : Walk ⟨b, u ++ t'⟩ [] ⟨b', v ++ t'⟩ := by
  have hrun : Run (fun _ => True) ⟨b, u ++ t⟩ ⟨b', v ++ t⟩ := run_of_walk h fun _ _ _ => trivial
  have hreplaced : Run (fun _ => True) ⟨b, u ++ t'⟩ ⟨b', v ++ t'⟩ :=
    hrun.continues hP ht (fun _ _ _ _ _ => trivial) hu
  exact hreplaced.walk

/-- **What stands before a run may be replaced** by a text that is alike. -/
theorem Run.behind (hb : Alike b b') (hQ : ∀ p u, Q ⟨p ++ b, u⟩ → R ⟨p ++ b', u⟩)
    (h : Run Q ⟨p ++ b, u⟩ ⟨q ++ b, v⟩) : Run R ⟨p ++ b', u⟩ ⟨q ++ b', v⟩ := by
  generalize hc : (⟨p ++ b, u⟩ : Cursor) = c at h
  generalize hd : (⟨q ++ b, v⟩ : Cursor) = d at h
  induction h generalizing p u with
  | stay =>
    obtain ⟨hpq, rfl⟩ := Cursor.mk.inj (hc.trans hd.symm)
    rw [List.append_cancel_right hpq]
    exact .stay _
  | @step c d x w hx hq hr ih =>
    subst hc hd
    obtain rfl : u = x :: w := hx
    refine .step rfl (hQ p _ hq) ?_
    dsimp only
    rw [← (hb.append p).read_eq, Cursor.advance_cons, ← List.cons_append, ← List.append_assoc]
    refine ih ?_ rfl
    rw [Cursor.advance_cons, ← List.cons_append, ← List.append_assoc]

/-! ### Places in the front of a text -/

/-- A place that lies before the end of the front of a text. -/
theorem exists_ahead_of_onward (h : (Cursor.start (s ++ t)).Onward c)
    (hle : t.length ≤ c.ahead.length) : ∃ v, c = ⟨c.behind, v ++ t⟩ := by
  have hw := h.whole_eq
  rw [Cursor.whole, Cursor.whole_start] at hw
  rcases List.append_eq_append_iff.mp hw with ⟨v, -, hv⟩ | ⟨v, -, hv⟩
  · exact ⟨v, by rw [← hv]⟩
  · obtain rfl : v = [] := by
      have := congrArg List.length hv
      rw [List.length_append] at this
      exact List.length_eq_zero_iff.mp (by omega)
    exact ⟨[], by rw [List.nil_append, hv, List.nil_append]⟩

/-- What is read within the front of a text is read there whatever follows. -/
theorem walk_front (h : Walk (Cursor.start (s ++ t)) [] ⟨b, v ++ t⟩) :
    Walk (Cursor.start s) [] ⟨b, v⟩ := by
  have hw := Walk.continues tailed_true (continues_nil t) trivial h
  rwa [List.append_nil, List.append_nil] at hw

theorem reverse_drop_append (n : Nat) (x : Char) (u b : Text) :
    (u.drop n).reverse ++ ((u.take n).reverse ++ x :: b) = (x :: u).reverse ++ b := by
  rw [← List.append_assoc, ← List.reverse_append, List.take_append_drop, List.reverse_cons,
    List.append_assoc]
  rfl

/-- Where a text is read to its end, the places in it are places of the longer text. -/
theorem walk_extend (h : Walk ⟨b, u ++ t⟩ [] ⟨u.reverse ++ b, t⟩) (he : Walk ⟨b, u⟩ [] c) :
    Walk ⟨b, u ++ t⟩ [] (c.extend t) := by
  generalize hl : u.length = l
  induction l using Nat.strongRecOn generalizing b u with
  | ind l ih =>
    cases u with
    | nil =>
      rcases walk_iff.mp he with rfl | ⟨x, v, hv, -⟩
      · exact Walk.stay
      · exact absurd hv (by simp)
    | cons x u =>
      have hx : (⟨b, x :: u ++ t⟩ : Cursor).ahead = x :: (u ++ t) := rfl
      rcases (walk_cons_iff (c := ⟨b, x :: u⟩) rfl).mp he with rfl | he
      · exact Walk.stay
      rcases (walk_cons_iff hx).mp h with heq | hw
      · have hlen := congrArg (fun c => c.ahead.length) heq
        simp at hlen
        omega
      · have hlen := hw.onward.length_le
        have hsize := Lexeme.size_read_le b x (u ++ t)
        rw [Cursor.ahead_advance, List.length_drop, hx, List.length_cons, List.length_append] at hlen
        rw [List.length_append] at hsize
        dsimp only at hlen hw he
        have hle : (Lexeme.read b x (u ++ t)).size ≤ u.length := by omega
        have hread := Lexeme.read_continues tailed_true (continues_nil t) trivial hle
        rw [List.append_nil] at hread
        rw [hread, Cursor.advance_cons] at he
        rw [Cursor.advance_front b x t hle] at hw
        refine (walk_cons_iff hx).mpr (Or.inr ?_)
        dsimp only
        rw [Cursor.advance_front b x t hle]
        rw [List.length_cons] at hl
        exact ih _ (by rw [List.length_drop]; omega) (by rwa [reverse_drop_append]) he rfl

end Import

end Unbundled
