import Unbundled.Proofs.Component.Tags

/-! # The end of a template

The search for the closing tag of a template goes from tag to tag. It passes text in which no template
is opened or closed (`templateSize?_append`), counts an opening tag (`templateSize?_openTag`), and stops
at a closing tag unless it has counted more opening ones (`templateSize?_close`).

It looks for opening tags one at a time: only the first opening mark before the next closing tag counts,
and only if the name ends there. Another mark hides all that stands between it and the closing tag from
the search (`Hides`). -/

namespace Unbundled.Component

variable {depth n : Nat} {inside p s t u x : Text}

/-! ### One step -/

/-- The size of a template in which `depth` inner ones are open, if the search is at a closing tag after
`n` characters, with `u` after it. -/
def closeAt? : Nat → Nat → Text → Option Nat
  | 0, n, _ => some n
  | depth + 1, n, u => (templateSize? depth u).map (n + templateClose.length + ·)

theorem closeAt?_add (depth m n : Nat) (u : Text) :
    closeAt? depth (m + n) u = (closeAt? depth n u).map (m + ·) := by
  cases depth with
  | zero => rfl
  | succ depth =>
    rw [closeAt?, closeAt?, Option.map_map]
    congr 1
    funext k
    simp only [Function.comp_apply]
    omega

theorem closeAt?_append (depth : Nat) (p q u : Text) :
    closeAt? depth (p ++ q).length u = (closeAt? depth q.length u).map (p.length + ·) := by
  rw [List.length_append, closeAt?_add]

/-- The next step of the search: to the closing tag, or past the opening tag before it. -/
theorem templateSize?_eq (depth : Nat) (t : Text) :
    templateSize? depth t = (Text.cut? templateClose t).bind fun (s, u) =>
      (nestedOpen? s).elim (closeAt? depth s.length u) fun n =>
        (tagEnd? none (t.drop (n + templateOpen.length))).bind fun (inside, x) =>
          (templateSize? (if isSelfClosing inside then depth else depth + 1) x).map
            (n + templateOpen.length + inside.length + 1 + ·) := by
  rw [templateSize?]
  split
  · rename_i h
    rw [h]
    rfl
  · rename_i h
    rw [h, Option.bind_some]
    dsimp only
    split
    · rename_i hn
      rw [hn, Option.elim_some]
      split <;> rename_i he <;> rw [he] <;> rfl
    · rename_i hn
      rw [hn, Option.elim_none]
      cases depth <;> rfl

theorem templateSize?_of_nestedOpen? (hcut : Text.cut? templateClose t = some (s, u))
    (hn : nestedOpen? s = none) : templateSize? depth t = closeAt? depth s.length u := by
  rw [templateSize?_eq, hcut, Option.bind_some]
  dsimp only
  rw [hn, Option.elim_none]

/-! ### Text -/

/-- No template is opened or closed in the text. -/
structure IsProse (t : Text) : Prop where
  open_ : ¬ templateOpen <:+: t
  close : ¬ templateClose <:+: t

instance : DecidablePred IsProse := fun t =>
  decidable_of_iff (¬ templateOpen <:+: t ∧ ¬ templateClose <:+: t)
    ⟨fun h => ⟨h.1, h.2⟩, fun h => ⟨h.open_, h.close⟩⟩

theorem nestedOpen?_append (hp : ¬ templateOpen <:+: p) (hs : Text.NoSeam templateOpen p s) :
    nestedOpen? (p ++ s) = (nestedOpen? s).map (p.length + ·) := by
  rw [nestedOpen?, Text.cut?_append hp hs, nestedOpen?]
  cases Text.cut? templateOpen s with
  | none => rfl
  | some w =>
    obtain ⟨before, after⟩ := w
    simp only [Option.map_some]
    split <;> simp

/-- **Text without the tags of a template** is passed over, if no such tag runs over its end. -/
theorem templateSize?_append (hp : IsProse p) (hopen : Text.NoSeam templateOpen p x)
    (hclose : Text.NoSeam templateClose p x) :
    templateSize? depth (p ++ x) = (templateSize? depth x).map (p.length + ·) := by
  rw [templateSize?_eq, templateSize?_eq depth x, Text.cut?_append hp.close hclose]
  cases hcut : Text.cut? templateClose x with
  | none => rfl
  | some w =>
    obtain ⟨s, u⟩ := w
    have hseam : Text.NoSeam templateOpen p s := by
      have happ := Text.append_of_cut? hcut
      rw [List.append_assoc] at happ
      exact (happ ▸ hopen).mono
    simp only [Option.map_some, Option.bind_some]
    rw [nestedOpen?_append hp.open_ hseam]
    cases nestedOpen? s with
    | none => simp only [Option.map_none, Option.elim_none, List.length_append, closeAt?_add]
    | some n =>
      simp only [Option.map_some, Option.elim_some]
      rw [Nat.add_assoc p.length, List.drop_append, List.drop_eq_nil_of_le (by omega),
        Nat.add_sub_cancel_left, List.nil_append]
      cases tagEnd? none (x.drop (n + templateOpen.length)) with
      | none => rfl
      | some w =>
        simp only [Option.bind_some, Option.map_map]
        congr 1
        funext k
        simp only [Function.comp_apply]
        omega

theorem templateSize?_close (depth : Nat) (x : Text) :
    templateSize? depth (templateClose ++ x) = closeAt? depth 0 x :=
  templateSize?_of_nestedOpen? (s := []) rfl rfl

/-! ### Opening tags -/

/-- A tag that starts like the opening tag of a template. -/
def openTag (inside : Text) : Text := templateOpen ++ (inside ++ ['>'])

/-- Whether the search takes such a tag for the one of a template. -/
def isSeen (inside : Text) : Bool := (inside ++ ['>']).head?.any isTagBoundary

theorem openTag_append (inside x : Text) :
    openTag inside ++ x = templateOpen ++ (inside ++ '>' :: x) := by
  rw [openTag, List.append_assoc, List.append_assoc, List.singleton_append]

theorem head?_openTag (inside x : Text) : ∀ z ∈ (openTag inside ++ x).head?, z = '<' :=
  fun _ hz => (Option.some.inj hz).symm

theorem getLast?_openTag (s inside : Text) : (s ++ openTag inside).getLast? = some '>' := by
  rw [openTag, ← List.append_assoc, ← List.append_assoc, List.getLast?_concat]

theorem head?_angle (inside x : Text) : (inside ++ '>' :: x).head? = (inside ++ ['>']).head? := by
  cases inside <;> rfl

theorem cut?_templateOpen (s : Text) : Text.cut? templateOpen (templateOpen ++ s) = some ([], s) :=
  rfl

/-- No closing tag starts in an opening mark. -/
theorem cut?_templateClose (x : Text) : Text.cut? templateClose (templateOpen ++ x) =
    (Text.cut? templateClose x).map fun (s, u) => (templateOpen ++ s, u) :=
  Text.cut?_append (by decide) (Text.noSeam_of_tails (by decide) x)

theorem templateSize?_eq_none (h : Text.cut? templateClose t = none) :
    templateSize? depth t = none := by
  rw [templateSize?_eq, h, Option.bind_none]

/-- **An opening tag** is counted, unless it closes itself. -/
theorem templateSize?_openTag (hin : Shut inside) (hseen : isSeen inside) :
    templateSize? depth (openTag inside ++ x) =
      (templateSize? (if isSelfClosing inside then depth else depth + 1) x).map
        ((openTag inside).length + ·) := by
  have hlen : (openTag inside).length = 0 + templateOpen.length + inside.length + 1 := by
    simp only [openTag, List.length_append, List.length_singleton]
    omega
  rw [hlen, openTag_append, templateSize?_eq, cut?_templateClose]
  cases hcut : Text.cut? templateClose (inside ++ '>' :: x) with
  | none =>
    have hx : Text.cut? templateClose x = none := by
      rw [Text.cut?_eq_none_iff] at hcut ⊢
      have hsuf : x <:+ inside ++ '>' :: x := ⟨inside ++ ['>'], by simp⟩
      exact fun h => hcut (h.trans hsuf.isInfix)
    rw [templateSize?_eq_none hx]
    rfl
  | some w =>
    obtain ⟨s, u⟩ := w
    have hs : s.head?.any isTagBoundary := by
      have happ := congrArg List.head? (Text.append_of_cut? hcut)
      rw [head?_angle] at happ
      cases s with
      | nil =>
        -- the closing tag does not start where the name ends
        rw [isSeen, happ] at hseen
        exact absurd (show isTagBoundary '<' from hseen) (by decide)
      | cons c s =>
        rw [isSeen, happ] at hseen
        exact hseen
    have hn : nestedOpen? (templateOpen ++ s) = some 0 := by
      rw [nestedOpen?, cut?_templateOpen]
      exact if_pos hs
    simp only [Option.map_some, Option.bind_some, hn, Option.elim_some]
    rw [Nat.zero_add, List.drop_left, hin.tagEnd?_eq, Option.bind_some]

/-! ### Marks that hide -/

/-- A text with an opening mark that the search does not take for one: it does not look for another
one before the next closing tag. -/
def Hides (p : Text) : Prop := ∀ s, nestedOpen? (p ++ s) = none

theorem Hides.append (h : Hides p) (s : Text) : Hides (p ++ s) := by
  intro u
  rw [List.append_assoc]
  exact h (s ++ u)

theorem nestedOpen?_eq_none (h : ¬ templateOpen <:+: t) : nestedOpen? t = none := by
  rw [nestedOpen?, Text.cut?_eq_none_iff.mpr h]

theorem append_of_nestedOpen? (h : nestedOpen? s = some n) :
    ∃ before after, s = before ++ (templateOpen ++ after) ∧ before.length = n := by
  unfold nestedOpen? at h
  split at h
  · rename_i before after hcut
    split at h
    · exact ⟨before, after, (Text.append_of_cut? hcut).trans (List.append_assoc _ _ _),
        Option.some.inj h⟩
    · exact absurd h (by simp)
  · exact absurd h (by simp)

/-- An opening mark is found in every longer text. -/
theorem nestedOpen?_front (h : nestedOpen? s = some n) (t : Text) : nestedOpen? (s ++ t) = some n := by
  unfold nestedOpen? at h
  split at h
  · rename_i before after hcut
    have hmore := Text.cut?_front (by decide) hcut (after ++ t)
    have happ := Text.append_of_cut? hcut
    have hhead : after.head?.any isTagBoundary := by
      by_contra hn
      rw [if_neg hn] at h
      exact absurd h (by simp)
    rw [if_pos hhead] at h
    have hs : s ++ t = before ++ (templateOpen ++ (after ++ t)) := by
      rw [happ]
      simp only [List.append_assoc]
    rw [nestedOpen?, hs, hmore]
    cases after with
    | nil => exact absurd hhead (by simp)
    | cons c after => exact (if_pos hhead).trans h
  · exact absurd h (by simp)

theorem Hides.nestedOpen?_of_isPrefix (h : Hides p) (hs : s <+: p) : nestedOpen? s = none := by
  obtain ⟨t, rfl⟩ := hs
  have hnone := h []
  rw [List.append_nil] at hnone
  cases hn : nestedOpen? s with
  | none => rfl
  | some n => exact absurd ((nestedOpen?_front hn t).symm.trans hnone) (by simp)

/-- A mark that hides does so after text without another one. -/
theorem Hides.after (hs : ¬ templateOpen <:+: s) (hseam : ∀ u, Text.NoSeam templateOpen s (p ++ u))
    (h : Hides p) : Hides (s ++ p) := by
  intro u
  rw [List.append_assoc, nestedOpen?_append hs (hseam u), h u]
  rfl

theorem hides_openTag (h : isSeen inside = false) : Hides (openTag inside) := by
  intro s
  rw [openTag_append, nestedOpen?, cut?_templateOpen]
  refine if_neg ?_
  rw [head?_angle, ← isSeen, h]
  exact Bool.false_ne_true

end Unbundled.Component
