import Unbundled.Proofs.Component.Nesting

/-! # What the search for the end of a template loses

The search goes through the content of a template up to the closing tag after it. If it has lost `k`
templates there, it is at the end of the content with `k` fewer open than there are, or has ended before
(`Loses`). The content is read from its front: what has been passed since the last step is text in which
the search finds no further tag (`Passed`).

* `Passed.loses_openTag`: a tag that is not found.
* `Content.loses`: the search loses in a content what `Content.lost` says. -/

namespace Unbundled.Component

variable {blind : Bool} {inside p q s t u x y : Text} {j k : Nat}

/-! ### Losses -/

/-- **The search loses** `k` open templates on its way through a text to the closing tag after it. With
fewer open it ends within the text. -/
structure Loses (k : Nat) (q : Text) : Prop where
  early : ∀ depth < k, ∀ x, ∃ n < q.length,
    templateSize? depth (q ++ (templateClose ++ x)) = some n
  late : ∀ depth x, templateSize? (k + depth) (q ++ (templateClose ++ x)) = closeAt? depth q.length x

theorem loses_zero (hcut : ∀ x, Text.cut? templateClose (q ++ (templateClose ++ x)) = some (q, x))
    (hopen : nestedOpen? q = none) : Loses 0 q where
  early _ h := absurd h (Nat.not_lt_zero _)
  late depth x := by rw [Nat.zero_add, templateSize?_of_nestedOpen? (hcut x) hopen]

/-- Each closing tag on the way loses one more. -/
theorem Loses.seq (hq : Loses j q) (hy : Loses k y) :
    Loses (j + (k + 1)) (q ++ (templateClose ++ y)) where
  early depth hlt x := by
    have hclose : 0 < templateClose.length := by decide
    rw [List.append_assoc, List.append_assoc]
    rcases Nat.lt_or_ge depth j with h | h
    · obtain ⟨n, hn, hsize⟩ := hq.early depth h (y ++ (templateClose ++ x))
      exact ⟨n, by rw [List.length_append]; omega, hsize⟩
    · obtain ⟨e, rfl⟩ := Nat.exists_eq_add_of_le h
      rw [hq.late]
      cases e with
      | zero =>
        refine ⟨q.length, ?_, rfl⟩
        rw [List.length_append, List.length_append]
        omega
      | succ e =>
        obtain ⟨n, hn, hsize⟩ := hy.early e (by omega) x
        refine ⟨q.length + templateClose.length + n, ?_, ?_⟩
        · rw [List.length_append, List.length_append]
          omega
        · rw [closeAt?, hsize]
          rfl
  late depth x := by
    rw [List.append_assoc, List.append_assoc, Nat.add_assoc j, hq.late, Nat.add_right_comm k,
      closeAt?, hy.late, closeAt?_append, closeAt?_append, Option.map_map]
    congr 1
    funext n
    exact Nat.add_assoc _ _ _

/-- The first closing tag of a text, with no tag found before it. -/
theorem loses_of_cut? (hcut : Text.cut? templateClose t = some (s, u)) (hs : nestedOpen? s = none)
    (hu : Loses k (u ++ y)) : Loses (k + 1) (t ++ y) := by
  rw [Text.append_of_cut? hcut, List.append_assoc, List.append_assoc]
  exact Nat.zero_add (k + 1) ▸ (loses_zero (Text.cut?_front (by decide) hcut) hs).seq hu

/-- A front that the search steps over, with `i` more templates open after it. -/
theorem Loses.front {front : Text} {i : Nat}
    (hstep : ∀ depth x, templateSize? depth (front ++ (y ++ (templateClose ++ x))) =
      (templateSize? (depth + i) (y ++ (templateClose ++ x))).map (front.length + ·))
    (hy : Loses (k + i) y) : Loses k (front ++ y) where
  early depth hlt x := by
    obtain ⟨n, hn, hsize⟩ := hy.early (depth + i) (Nat.add_lt_add_right hlt i) x
    rw [List.append_assoc, hstep, hsize]
    exact ⟨front.length + n, by rw [List.length_append]; omega, rfl⟩
  late depth x := by
    rw [List.append_assoc, hstep, Nat.add_right_comm, hy.late, closeAt?_append]

/-- Text is passed over. -/
theorem Loses.prose (ht : IsProse t) (hy : Loses k (openTag inside ++ y)) :
    Loses k (t ++ (openTag inside ++ y)) := by
  have hhead : ∀ x, ∀ z ∈ (openTag inside ++ y ++ x).head?, z = '<' := by
    intro x
    rw [List.append_assoc]
    exact head?_openTag inside _
  have hy0 : Loses (k + 0) (openTag inside ++ y) := hy
  refine hy0.front fun depth x => ?_
  exact templateSize?_append ht (Text.noSeam_of_head (by decide) (hhead _) t)
    (Text.noSeam_of_head (by decide) (hhead _) t)

/-- An opening tag that is found is counted. -/
theorem Loses.opening (hin : Shut inside) (hseen : isSeen inside)
    (hclosing : isSelfClosing inside = false) (hy : Loses (k + 1) y) :
    Loses k (openTag inside ++ y) := by
  refine hy.front fun depth x => ?_
  rw [templateSize?_openTag hin hseen, hclosing, if_neg Bool.false_ne_true]

/-- A tag without content that is found is passed over. -/
theorem Loses.single (hin : Shut inside) (hseen : isSeen inside) (hclosing : isSelfClosing inside)
    (hy : Loses k y) : Loses k (openTag inside ++ y) := by
  have hy0 : Loses (k + 0) y := hy
  refine hy0.front fun depth x => ?_
  rw [templateSize?_openTag hin hseen, if_pos hclosing]
  rfl

/-! ### Tags that are not found -/

/-- What has been passed since the last tag that was found or the last closing tag. Its marks are those
of other tags, and the search does not look past them if it is `blind`. -/
structure Passed (blind : Bool) (p : Text) : Prop where
  close : ¬ templateClose <:+: p
  hides : blind → Hides p
  open_ : blind = false → ¬ templateOpen <:+: p
  last : ∀ c ∈ p.getLast?, c = '>'

theorem passed_nil : Passed false [] where
  close := by decide
  hides h := absurd h (by decide)
  open_ _ := by decide
  last _ h := absurd h (by simp)

section Passed
variable (hp : Passed blind p) (ht : IsProse t)
include hp ht

theorem Passed.not_close : ¬ templateClose <:+: p ++ t :=
  Text.not_isInfix_append hp.close ht.close (Text.noSeam_of_last (by decide) hp.last t)

theorem Passed.not_open (hblind : blind = false) : ¬ templateOpen <:+: p ++ t :=
  Text.not_isInfix_append (hp.open_ hblind) ht.open_ (Text.noSeam_of_last (by decide) hp.last t)

theorem Passed.nestedOpen?_eq : nestedOpen? (p ++ t) = none := by
  cases hblind : blind with
  | false => exact nestedOpen?_eq_none (hp.not_open ht hblind)
  | true => exact ((hp.hides hblind).append t).nestedOpen?_of_isPrefix (List.prefix_refl _)

/-- Text at the end of a content. -/
theorem Passed.loses_text : Loses 0 (p ++ t) :=
  loses_zero (Text.cut?_of_not_isInfix (by decide) (hp.not_close ht)) (hp.nestedOpen?_eq ht)

/-- A tag that is not found makes the search blind. -/
theorem Passed.hides_openTag (hfound : isFound blind inside = false) :
    Hides (p ++ t ++ openTag inside) := by
  cases hblind : blind with
  | true =>
    rw [List.append_assoc]
    exact (hp.hides hblind).append _
  | false =>
    rw [hblind, isFound, Bool.not_false, Bool.true_and] at hfound
    exact (Component.hides_openTag hfound).after (hp.not_open ht hblind)
      fun u => Text.noSeam_of_head (by decide) (head?_openTag inside u) _

theorem Passed.cut?_openTag : Text.cut? templateClose (p ++ t ++ openTag inside) =
    (Text.cut? templateClose (openTag inside)).map fun (s, u) => (p ++ t ++ s, u) :=
  Text.cut?_append (hp.not_close ht) (Text.noSeam_of_head (by decide)
    (List.append_nil (openTag inside) ▸ head?_openTag inside []) _)

end Passed

/-- The closing tags of a text without opening marks are lost one by one. -/
theorem loses_closers (hu : ¬ templateOpen <:+: u) (hlast : ∀ c ∈ u.getLast?, c = '>')
    (hy : ∀ q, Passed false q → Loses k (q ++ y)) : Loses (k + closers u) (u ++ y) := by
  fun_induction closers u with
  | case1 u hcut =>
    exact hy u ⟨Text.cut?_eq_none_iff.mp hcut, fun h => absurd h (by decide), fun _ => hu, hlast⟩
  | case2 u s r hcut ih =>
    have happ := Text.append_of_cut? hcut
    have hs : nestedOpen? s = none :=
      nestedOpen?_eq_none fun h => hu (happ ▸ h.trans ⟨[], templateClose ++ r, by simp⟩)
    refine loses_of_cut? hcut hs (ih (fun h => ?_) fun c hc => ?_)
    · exact hu (happ ▸ h.trans (List.suffix_append _ _).isInfix)
    · exact hlast c (happ ▸ List.mem_getLast?_append_of_mem_getLast? hc)

/-- **A tag that is not found** loses the closing tags in its values, and the search is blind after it
if there are none. -/
theorem Passed.loses_openTag (hp : Passed blind p) (ht : IsProse t)
    (hfound : isFound blind inside = false)
    (hmixed : closers (openTag inside) = 0 ∨ OpensFirst (openTag inside))
    (hy : ∀ q, Passed (closers (openTag inside) == 0) q → Loses k (q ++ y)) :
    Loses (k + closers (openTag inside)) (p ++ (t ++ (openTag inside ++ y))) := by
  have hides := hp.hides_openTag ht hfound
  have hcut : Text.cut? templateClose (p ++ t ++ openTag inside) = _ := hp.cut?_openTag ht
  have hassoc : p ++ (t ++ (openTag inside ++ y)) = p ++ t ++ openTag inside ++ y := by
    simp only [List.append_assoc]
  rw [hassoc]
  cases hclose : Text.cut? templateClose (openTag inside) with
  | none =>
    rw [hclose] at hcut
    rw [closers_eq_zero hclose] at hy ⊢
    refine hy _ ⟨Text.cut?_eq_none_iff.mp hcut, fun _ => hides, fun h => absurd h (by decide), ?_⟩
    intro c hc
    rw [getLast?_openTag] at hc
    exact (Option.some.inj hc).symm
  | some w =>
    obtain ⟨s, u⟩ := w
    have hclosers := closers_eq_succ hclose
    have hmixed := hmixed.resolve_left (by omega)
    have hlast : ∀ c ∈ u.getLast?, c = '>' := by
      intro c hc
      have hopen := getLast?_openTag [] inside
      rw [List.nil_append, Text.append_of_cut? hclose] at hopen
      exact Option.some.inj ((List.mem_getLast?_append_of_mem_getLast? hc).symm.trans hopen)
    rw [hclosers] at hy ⊢
    rw [hclose] at hcut
    have hs : nestedOpen? (p ++ t ++ s) = none := by
      refine hides.nestedOpen?_of_isPrefix ?_
      rw [Text.append_of_cut? hcut, List.append_assoc (p ++ t ++ s)]
      exact List.prefix_append _ _
    exact loses_of_cut? hcut hs (loses_closers (hmixed s u hclose) hlast hy)

/-! ### Contents -/

/-- A tag that is found is the first thing after text. -/
theorem Passed.loses_found (hp : Passed blind p) (ht : IsProse t) (hfound : isFound blind inside)
    (hy : Loses k (openTag inside ++ y)) : Loses k (p ++ (t ++ (openTag inside ++ y))) := by
  rw [isFound, Bool.and_eq_true, Bool.not_eq_true'] at hfound
  rw [← List.append_assoc]
  exact hy.prose ⟨hp.not_open ht hfound.1, hp.not_close ht⟩

theorem isSeen_of_isFound (h : isFound blind inside) : isSeen inside :=
  (Bool.and_eq_true _ _ ▸ h).2

/-- A tag without content. -/
theorem Passed.loses_tag (hp : Passed blind p) (ht : IsProse t) (hin : Shut inside)
    (hclosing : isSeen inside → isSelfClosing inside)
    (hmixed : within blind inside = 0 ∨ OpensFirst (openTag inside))
    (hy : ∀ q, Passed (blindAfter blind inside) q → Loses k (q ++ y)) :
    Loses (within blind inside + k) (p ++ (t ++ (openTag inside ++ y))) := by
  rw [within] at hmixed ⊢
  rw [blindAfter] at hy
  cases hfound : isFound blind inside with
  | true =>
    rw [hfound] at hy
    have hseen := isSeen_of_isFound hfound
    rw [if_pos rfl, Nat.zero_add]
    exact hp.loses_found ht hfound ((hy [] passed_nil).single hin hseen (hclosing hseen))
  | false =>
    rw [hfound, if_neg Bool.false_ne_true] at hmixed
    rw [hfound] at hy
    rw [if_neg Bool.false_ne_true, Nat.add_comm]
    exact hp.loses_openTag ht hfound hmixed hy

/-- A closing tag of another element is passed over like text. -/
theorem Passed.closeTag (hp : Passed blind p) (ht : IsProse t) (tag : LongEnd) :
    Passed blind (p ++ t ++ closeTag tag.inside) where
  close := Text.not_isInfix_append (hp.not_close ht) (isProse_closeTag tag).close
    (Text.noSeam_of_head (by decide) (head?_closeTag _) _)
  hides h := by
    rw [List.append_assoc]
    exact (hp.hides h).append _
  open_ h := Text.not_isInfix_append (hp.not_open ht h) (isProse_closeTag tag).open_
    (Text.noSeam_of_head (by decide) (head?_closeTag _) _)
  last c hc := by
    rw [getLast?_closeTag] at hc
    exact (Option.some.inj hc).symm

/-- **What the search has lost** at the end of a content. -/
theorem Content.loses (c : Content) (hp : Passed blind p) (hc : c.lost blind = 0 ∨ c.Unmixed) :
    Loses (c.lost blind) (p ++ c.source) := by
  -- on the content, with anything passed before it: a part may start where the search is blind
  induction c generalizing blind p with
  | text t => exact hp.loses_text t.isProse
  | other t tag rest ih =>
    rw [lost] at hc ⊢
    refine hp.loses_tag t.isProse tag.shut ?_ (hc.imp (by omega) And.left) fun q hq => ?_
    · exact fun h => absurd h (by rw [isSeen_of_isLong tag.long]; exact Bool.false_ne_true)
    · exact ih hq (hc.imp (by omega) And.right)
  | closing t tag rest ih =>
    rw [source, ← List.append_assoc, ← List.append_assoc]
    exact ih (hp.closeTag t.isProse tag) hc
  | single t attrs rest ih =>
    rw [lost] at hc ⊢
    refine hp.loses_tag t.isProse (shut_single attrs) (fun _ => isSelfClosing_single attrs)
      (hc.imp (by omega) And.left) fun q hq => ?_
    exact ih hq (hc.imp (by omega) And.right)
  | nested t attrs inner rest ihi ihr =>
    rw [lost] at hc ⊢
    have hr := ihr passed_nil (hc.imp (by omega) fun h => h.2.2)
    have hi : ∀ q, Passed (blindAfter blind attrs.text) q →
        Loses (inner.lost (blindAfter blind attrs.text) + (rest.lost false + 1))
          (q ++ (inner.source ++ (templateClose ++ rest.source))) := by
      intro q hq
      rw [← List.append_assoc]
      exact (ihi hq (hc.imp (by omega) fun h => h.2.1)).seq hr
    have hmixed : within blind attrs.text = 0 ∨ OpensFirst (openTag attrs.text) :=
      hc.imp (by omega) And.left
    rw [within] at hmixed ⊢
    rw [blindAfter] at hi ⊢
    cases hfound : isFound blind attrs.text with
    | true =>
      rw [hfound] at hi
      rw [if_pos rfl, if_pos rfl, Nat.zero_add]
      exact hp.loses_found t.isProse hfound ((hi [] passed_nil).opening attrs.shut
        (isSeen_of_isFound hfound) (isSelfClosing_attrs attrs))
    | false =>
      -- the opening tag is missed, and the closing tag is one too many
      rw [hfound, if_neg Bool.false_ne_true] at hmixed
      rw [hfound] at hi
      rw [if_neg Bool.false_ne_true, if_neg Bool.false_ne_true]
      have hloses := hp.loses_openTag t.isProse hfound hmixed hi
      generalize inner.lost _ = i at hloses ⊢
      rwa [show closers (openTag attrs.text) + 1 + i + rest.lost false =
        i + (rest.lost false + 1) + closers (openTag attrs.text) by omega]

end Unbundled.Component
