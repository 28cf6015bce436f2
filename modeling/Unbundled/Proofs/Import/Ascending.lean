import Mathlib.Data.List.Basic
import Unbundled.Import.Rewrite
import Unbundled.Proofs.Import.Spans

/-! # Rewriting in one pass

The rewriting replaces the specifiers of a source from the last to the first, so that the offsets of
those that remain stay right. The same code comes out of one pass in the order of the source, which
copies what lies between the literals and puts a text in place of each (`ascend`).

The invariant of the descending run: below the floor nothing has changed. What the run has put
together is the kept source up to the floor and then the new code, and this is what the ascending
pass makes of the specifiers taken so far (`Pending.Matches`).

* `descending_eq_reverse`: imports in the order of the source are taken in the reverse order.
* `matches_take`: one more specifier keeps the invariant.
* `rewriteSource_eq_ascend`: the rewriting of a source, its counts and its report. -/

namespace Unbundled.Import

open Source

/-! ### The pass in the order of the source -/

/-- The source `rest`, which starts at byte `pos`, with a text in place of each literal: `emit` says
which, given the import and its literal as written. -/
def ascend (emit : Import → Text → Text) (pos : Nat) (rest : Text) : List Import → Text
  | [] => rest
  | i :: imports =>
    match Text.splitAt? (i.start - pos) rest with
    | none => rest
    | some (gap, rest) =>
      match Text.splitAt? (i.stop - i.start) rest with
      | none => gap ++ rest
      | some (literal, rest) => gap ++ emit i literal ++ ascend emit i.stop rest imports

/-- What becomes of an import: nothing if it is not bare, else its URL or the reason why it has
none. -/
def verdict? (disk : Disk) (root : Path) (i : Import) : Option (Except Package.Fault Text) :=
  if Specifier.isBare i.raw then some (Package.resolveUrl disk root i.raw) else none

/-- The literal of the URL, if there is one, and else the literal as written. -/
def emitted (disk : Disk) (root : Path) (i : Import) (literal : Text) : Text :=
  match verdict? disk root i with
  | some (.ok url) => Literal.quote url
  | _ => literal

/-- Whether an import is replaced. -/
def isReplaced (disk : Disk) (root : Path) (i : Import) : Bool :=
  match verdict? disk root i with
  | some (.ok _) => true
  | _ => false

/-- What is reported about an import: a bare one that does not resolve, with the reason. -/
def report? (disk : Disk) (root : Path) (i : Import) : Option (Text × Package.Fault) :=
  match verdict? disk root i with
  | some (.error reason) => some (i.raw, reason)
  | _ => none

/-! ### Imports in the order of a text -/

/-- The imports stand in the text `rest`, which starts at byte `pos`, in order and apart. -/
inductive Placed : Nat → Text → List Import → Prop
  | nil (pos : Nat) (rest : Text) : Placed pos rest []
  | cons {pos : Nat} {rest : Text} {i : Import} {imports : List Import} (gap literal : Text) :
      i.start = pos + Text.bytes gap → i.stop = i.start + Text.bytes literal → literal ≠ [] →
      Placed i.stop rest imports → Placed pos (gap ++ (literal ++ rest)) (i :: imports)

theorem Placed.after {pos : Nat} {rest : Text} {imports : List Import} (gap : Text)
    (h : Placed (pos + Text.bytes gap) rest imports) : Placed pos (gap ++ rest) imports := by
  cases h with
  | nil => exact Placed.nil _ _
  | cons gap' literal hs he hn h =>
    rw [← List.append_assoc]
    exact Placed.cons (gap ++ gap') literal (by rw [hs, Text.bytes_append]; omega) he hn h

/-- The places that a reader passes only put more text in front. -/
theorem Placed.of_onward {c d : Cursor} {imports : List Import} (ho : c.Onward d)
    (h : Placed d.offset d.ahead imports) : Placed c.offset c.ahead imports := by
  obtain ⟨n, rfl⟩ := ho
  rw [Cursor.offset_advance, Cursor.ahead_advance] at h
  rw [← List.take_append_drop n c.ahead]
  exact h.after _

theorem placed_scanFrom (c : Cursor) : Placed c.offset c.ahead (scanFrom c) := by
  fun_induction scanFrom c with
  | case1 c => exact Placed.nil _ _
  | case2 c x t hc ih =>
    obtain ⟨p, hw, he⟩ := walk_step hc
    refine Placed.of_onward hw.onward ?_
    cases hi : (step c x t).1 with
    | none =>
      rw [← he.eq_of_none hi]
      exact ih
    | some i =>
      obtain ⟨q, rest, hq, -, hp, hd, hstart, hstop⟩ := (he.read hi).shape
      have hlast := (he.read hi).stop_eq
      rw [hd] at ih hlast
      rw [hp, hd, ← List.nil_append (quoted q i.raw ++ rest)]
      refine Placed.cons [] _ hstart hstop (by rw [quoted]; exact List.cons_ne_nil _ _) ?_
      rw [hlast]
      exact ih

theorem ascend_cons (emit : Import → Text → Text) {pos : Nat} {i : Import} {imports : List Import}
    {gap literal rest : Text} (hs : i.start = pos + Text.bytes gap)
    (he : i.stop = i.start + Text.bytes literal) :
    ascend emit pos (gap ++ (literal ++ rest)) (i :: imports) =
      gap ++ emit i literal ++ ascend emit i.stop rest imports := by
  have h1 : i.start - pos = Text.bytes gap := by omega
  have h2 : i.stop - i.start = Text.bytes literal := by omega
  rw [ascend, h1, Text.splitAt?_bytes]
  simp only [h2, Text.splitAt?_bytes]

/-- A pass that puts every literal back copies the text. -/
theorem ascend_eq_self (emit : Import → Text → Text) {pos : Nat} {rest : Text}
    {imports : List Import} (h : Placed pos rest imports)
    (hk : ∀ i ∈ imports, ∀ literal, emit i literal = literal) :
    ascend emit pos rest imports = rest := by
  induction h with
  | nil => rfl
  | cons gap literal hs he _ _ ih =>
    rw [ascend_cons emit hs he, hk _ List.mem_cons_self,
      ih fun i hi => hk i (List.mem_cons_of_mem _ hi), List.append_assoc]

/-- A pass keeps what stands in front of the first literal. -/
theorem exists_ascend_front (emit : Import → Text → Text) {pos : Nat} {s t : Text}
    {imports : List Import} (h : Placed pos (s ++ t) imports)
    (hs : ∀ i ∈ imports, pos + Text.bytes s ≤ i.start) :
    ∃ t', ascend emit pos (s ++ t) imports = s ++ t' := by
  generalize hw : s ++ t = w at h
  cases h with
  | nil => exact ⟨t, hw.symm⟩
  | @cons _ rest i imports gap literal hstart hstop _ _ =>
    have hle := hs i List.mem_cons_self
    obtain ⟨v, rfl, -⟩ := Text.exists_append_of_bytes_le hw (by omega)
    rw [ascend_cons emit hstart hstop, List.append_assoc, List.append_assoc]
    exact ⟨_, rfl⟩

/-! ### The order of the run -/

theorem pairwise_start_lt (source : Text) : (scan source).Pairwise fun i j => i.start < j.start := by
  refine (pairwise_scanFrom _).imp_of_mem fun {i j} hi _ hij => ?_
  obtain ⟨-, q, -, hq, -, -, -, hstop⟩ := parts_of_mem_scan hi
  have := bytes_quoted hq i.raw
  omega

theorem perm_descending (imports : List Import) : (descending imports).Perm imports :=
  List.mergeSort_perm _ _

theorem pairwise_descending (imports : List Import) :
    (descending imports).Pairwise fun i j => j.start ≤ i.start := by
  have := @List.pairwise_mergeSort _ (fun i j : Import => decide (j.start ≤ i.start))
    (fun i j k => by simp only [decide_eq_true_eq]; omega)
    (fun i j => by simp only [Bool.or_eq_true, decide_eq_true_eq]; omega) imports
  exact this.imp fun hij => of_decide_eq_true hij

theorem pairwise_descending_lt {imports : List Import}
    (h : imports.Pairwise fun i j => i.start ≠ j.start) :
    (descending imports).Pairwise fun i j => j.start < i.start := by
  have hne : (descending imports).Pairwise fun i j => i.start ≠ j.start :=
    ((perm_descending imports).pairwise_iff fun hij => Ne.symm hij).mpr h
  exact (pairwise_descending imports).imp₂
    (fun i j hij hij' => Nat.lt_of_le_of_ne hij (Ne.symm hij')) hne

/-- There is only one order of descending starts, if the starts differ. -/
theorem descending_eq_of_perm {imports order : List Import} (hp : order.Perm imports)
    (ho : order.Pairwise fun i j => j.start < i.start) : descending imports = order := by
  have hne : imports.Pairwise fun i j => i.start ≠ j.start :=
    (hp.pairwise_iff fun hij => Ne.symm hij).mp (ho.imp Nat.ne_of_gt)
  exact List.Perm.eq_of_pairwise (fun i j _ _ hij hji => absurd hij (Nat.lt_asymm hji))
    (pairwise_descending_lt hne) ho ((perm_descending imports).trans hp.symm)

/-- Imports in the order of the source are taken in the reverse order. -/
theorem descending_eq_reverse {imports : List Import}
    (h : imports.Pairwise fun i j => i.start < j.start) : descending imports = imports.reverse :=
  descending_eq_of_perm (List.reverse_perm imports) (List.pairwise_reverse.mpr h)

/-! ### The invariant of the run -/

theorem spanOf?_append (s m u : Text) :
    spanOf? (s ++ (m ++ u)) (Text.bytes s) (Text.bytes s + Text.bytes m) = some (s, m, u) := by
  rw [spanOf?, if_pos (Nat.le_add_right _ _), ← List.append_assoc, ← Text.bytes_append,
    Text.splitAt?_bytes]
  simp only [Option.bind_eq_bind, Option.bind_some, Text.splitAt?_bytes]

theorem between_append (s m u : Text) :
    between (s ++ (m ++ u)) (Text.bytes s) (Text.bytes s + Text.bytes m) = m := by
  rw [between, spanOf?_append]

/-- A run that has taken the imports of the text `rest`, which starts at byte `pos`: the source kept
up to the floor and the new code after it are what the ascending pass makes of these imports. -/
structure Pending.Matches (disk : Disk) (root : Path) (pos : Nat) (rest : Text)
    (imports : List Import) (p : Pending) : Prop where
  code : ∃ kept tail, rest = kept ++ tail ∧ p.floor = pos + Text.bytes kept ∧
    kept ++ p.code = ascend (emitted disk root) pos rest imports
  rewritten : p.rewritten = imports.countP (isReplaced disk root)
  unresolved : p.unresolved = imports.filterMap (report? disk root)

variable {disk : Disk} {root : Path}

/-- An import below the floor lies where the source is unchanged. -/
theorem admits_append {before gap literal rest : Text} {i : Import} {p : Pending}
    (hs : i.start = Text.bytes before + Text.bytes gap)
    (he : i.stop = i.start + Text.bytes literal) (hf : i.stop ≤ p.floor) :
    p.admits (before ++ (gap ++ (literal ++ rest))) i := by
  rw [Pending.admits, Bool.and_eq_true, decide_eq_true_eq]
  refine ⟨hf, ?_⟩
  rw [he, hs, ← Text.bytes_append, ← List.append_assoc, spanOf?_append]
  rfl

/-- **One more specifier keeps the invariant.** -/
theorem matches_take {before gap literal rest : Text} {i : Import} {imports : List Import}
    {p : Pending} (hs : i.start = Text.bytes before + Text.bytes gap)
    (he : i.stop = i.start + Text.bytes literal) (h : p.Matches disk root i.stop rest imports) :
    (p.take disk root (before ++ (gap ++ (literal ++ rest))) i).Matches disk root
      (Text.bytes before) (gap ++ (literal ++ rest)) (i :: imports) := by
  obtain ⟨⟨kept, tail, rfl, hfloor, hcode⟩, hcount, hreport⟩ := h
  have hascend := @ascend_cons (emitted disk root) _ _ imports _ _ (kept ++ tail) hs he
  have hadmits := @admits_append _ _ _ (kept ++ tail) _ p hs he (by omega)
  -- An import that is left alone adds its literal, as written, to what is kept.
  have hleft (hv : emitted disk root i literal = literal) :
      ∃ kept' tail', gap ++ (literal ++ (kept ++ tail)) = kept' ++ tail' ∧
        p.floor = Text.bytes before + Text.bytes kept' ∧
        kept' ++ p.code = ascend (emitted disk root) (Text.bytes before)
          (gap ++ (literal ++ (kept ++ tail))) (i :: imports) := by
    refine ⟨gap ++ (literal ++ kept), tail, by simp only [List.append_assoc], ?_, ?_⟩
    · rw [hfloor, Text.bytes_append, Text.bytes_append]
      omega
    · rw [hascend, hv, ← hcode]
      simp only [List.append_assoc]
  unfold Pending.take
  rw [hadmits, Bool.true_and]
  by_cases hb : Specifier.isBare i.raw
  · rw [if_pos hb]
    cases hr : Package.resolveUrl disk root i.raw with
    | ok url =>
      have hv : verdict? disk root i = some (.ok url) := by rw [verdict?, if_pos hb, hr]
      have hbetween : between (before ++ (gap ++ (literal ++ (kept ++ tail)))) i.stop p.floor =
          kept := by
        have hsplit : before ++ (gap ++ (literal ++ (kept ++ tail))) =
            (before ++ (gap ++ literal)) ++ (kept ++ tail) := by simp only [List.append_assoc]
        have hstop : i.stop = Text.bytes (before ++ (gap ++ literal)) := by
          rw [Text.bytes_append, Text.bytes_append]
          omega
        rw [hfloor, hstop, hsplit, between_append]
      refine ⟨⟨gap, literal ++ (kept ++ tail), rfl, hs, ?_⟩, ?_, ?_⟩
      · rw [hascend, ← hcode, hbetween, emitted, hv]
        simp only [List.append_assoc]
      · rw [List.countP_cons_of_pos (by rw [isReplaced, hv]), ← hcount]
      · rw [List.filterMap_cons_none (by rw [report?, hv]), ← hreport]
    | error reason =>
      have hv : verdict? disk root i = some (.error reason) := by rw [verdict?, if_pos hb, hr]
      refine ⟨hleft (by rw [emitted, hv]), ?_, ?_⟩
      · rw [List.countP_cons_of_neg (by rw [isReplaced, hv]; exact Bool.false_ne_true), ← hcount]
      · rw [List.filterMap_cons_some (by rw [report?, hv]), ← hreport]
  · rw [if_neg hb]
    have hv : verdict? disk root i = none := by rw [verdict?, if_neg hb]
    refine ⟨hleft (by rw [emitted, hv]), ?_, ?_⟩
    · rw [List.countP_cons_of_neg (by rw [isReplaced, hv]; exact Bool.false_ne_true), ← hcount]
    · rw [List.filterMap_cons_none (by rw [report?, hv]), ← hreport]

/-- **The invariant of the whole run.** -/
theorem matches_foldr {before rest : Text} {pos : Nat} {imports : List Import}
    (h : Placed pos rest imports) (hb : Text.bytes before = pos) :
    (imports.foldr (fun i p => Pending.take disk root (before ++ rest) p i)
      ⟨Text.bytes (before ++ rest), [], 0, []⟩).Matches disk root pos rest imports := by
  induction h generalizing before with
  | nil pos rest =>
    refine ⟨⟨rest, [], (List.append_nil rest).symm, ?_, List.append_nil rest⟩, rfl, rfl⟩
    rw [List.foldr_nil, Text.bytes_append, hb]
  | @cons pos rest i imports gap literal hs he _ _ ih =>
    subst hb
    have hstop : Text.bytes (before ++ (gap ++ literal)) = i.stop := by
      rw [Text.bytes_append, Text.bytes_append, ← Nat.add_assoc, ← hs, ← he]
    have ih' := ih hstop
    rw [List.foldr_cons]
    refine matches_take hs he ?_
    simpa only [List.append_assoc] using ih'

/-! ### The rewriting of a source -/

theorem countP_add_length_filterMap (disk : Disk) (root : Path) (imports : List Import) :
    imports.countP (isReplaced disk root) + (imports.filterMap (report? disk root)).length =
      imports.countP fun i => Specifier.isBare i.raw := by
  induction imports with
  | nil => rfl
  | cons i imports ih =>
    rw [List.countP_cons, List.countP_cons, ← ih, List.filterMap_cons]
    unfold isReplaced report? verdict?
    cases hb : Specifier.isBare i.raw with
    | false => simp
    | true =>
      cases Package.resolveUrl disk root i.raw with
      | ok url => simp; omega
      | error reason => simp; omega

theorem rewrite_scan (disk : Disk) (root : Path) (source : Text) :
    rewriteSource disk root source =
      ⟨ascend (emitted disk root) 0 source (scan source),
        (scan source).countP (isReplaced disk root),
        (scan source).filterMap (report? disk root)⟩ := by
  have hplaced : Placed 0 source (scan source) := placed_scanFrom (Cursor.start source)
  have hrun := @matches_foldr disk root [] source 0 (scan source) hplaced Text.bytes_nil
  rw [List.nil_append] at hrun
  obtain ⟨⟨kept, tail, hs, hfloor, hcode⟩, hcount, hreport⟩ := hrun
  rw [rewriteSource, rewrite, descending_eq_reverse (pairwise_start_lt source), List.foldl_reverse]
  have hbetween : between source 0 (0 + Text.bytes kept) = kept := by
    have := between_append [] kept tail
    rwa [List.nil_append, ← hs] at this
  rw [hfloor, hbetween, hcode, hcount, hreport]

/-- **What stands in front of the first import is kept.** -/
theorem exists_code_front (disk : Disk) (root : Path) {s t : Text}
    (h : ∀ i ∈ scan (s ++ t), Text.bytes s ≤ i.start) :
    ∃ t', (rewriteSource disk root (s ++ t)).code = s ++ t' := by
  have hplaced : Placed 0 (s ++ t) (scan (s ++ t)) := placed_scanFrom (Cursor.start (s ++ t))
  rw [rewrite_scan]
  refine exists_ascend_front _ hplaced fun i hi => ?_
  rw [Nat.zero_add]
  exact h i hi

/-- **Rewriting is one pass in the order of the source.** The code is the source with the literal of
its URL in place of every bare import that resolves; the others are kept as written. The count is
the number of imports replaced, the report lists the bare ones that do not resolve, in the order of
the source and with their reasons, and both together are all bare imports. Without any, nothing
changes. -/
theorem rewriteSource_eq_ascend (disk : Disk) (root : Path) (source : Text) :
    rewriteSource disk root source =
        ⟨ascend (emitted disk root) 0 source (scan source),
          (scan source).countP (isReplaced disk root),
          (scan source).filterMap (report? disk root)⟩ ∧
      (rewriteSource disk root source).rewritten +
          (rewriteSource disk root source).unresolved.length =
        (scan source).countP (fun i => Specifier.isBare i.raw) ∧
      ((∀ i ∈ scan source, ¬ Specifier.isBare i.raw) →
        (rewriteSource disk root source).code = source) := by
  have h := rewrite_scan disk root source
  refine ⟨h, ?_, fun hnone => ?_⟩
  · rw [h]
    exact countP_add_length_filterMap disk root _
  · rw [h]
    refine ascend_eq_self _ (placed_scanFrom (Cursor.start source)) fun i hi literal => ?_
    rw [emitted, verdict?, if_neg (hnone i hi)]

/-- A project with a file `y` in a package `x`, for the runs on fixed sources. -/
def stocked : Disk where
  top := .folder [("app".toList, .folder [("node_modules".toList, .folder [("x".toList, .folder [
    ("y.js".toList, .file [])])])])]
  workingFolder := []
  library := .silent

end Unbundled.Import
