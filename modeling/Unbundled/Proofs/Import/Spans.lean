import Unbundled.Proofs.Import.Walk

/-! # Where imports stand

The imports that the scan finds stand in the source as closed literals, one after the other.

* `read_of_mem_scanFrom`: every import is read from a literal ahead of the place the scan starts at.
* `pairwise_scanFrom`: no literal starts before the one before it has ended.
* `scan_spans`: both for a whole source, with the offsets on character boundaries. -/

namespace Unbundled.Import

open Source

theorem scanFrom_nil {c : Cursor} (h : c.ahead = []) : scanFrom c = [] := by
  rw [scanFrom]
  split
  · rfl
  · rename_i hc
    rw [h] at hc
    exact absurd hc (by simp)

theorem scanFrom_cons {c : Cursor} {x : Char} {t : Text} (h : c.ahead = x :: t) :
    scanFrom c = (step c x t).1.toList ++ scanFrom (step c x t).2 := by
  rw [scanFrom]
  split
  · rename_i hc
    rw [h] at hc
    exact absurd hc (by simp)
  · rename_i hc
    rw [h] at hc
    obtain ⟨rfl, rfl⟩ := List.cons.inj hc
    rfl

theorem read_of_mem_scanFrom {c : Cursor} {i : Import} (h : i ∈ scanFrom c) :
    ∃ p d, c.Onward p ∧ Read i p d := by
  fun_induction scanFrom c with
  | case1 c => exact absurd h List.not_mem_nil
  | case2 c x t hc ih =>
    obtain ⟨p, hw, he⟩ := walk_step hc
    rcases List.mem_append.mp h with h | h
    · exact ⟨p, _, hw.onward, he.read (Option.mem_toList.mp h)⟩
    · obtain ⟨p', d, ho, hr⟩ := ih h
      exact ⟨p', d, (hw.onward.trans he.onward).trans ho, hr⟩

theorem offset_le_start {c : Cursor} {i : Import} (h : i ∈ scanFrom c) : c.offset ≤ i.start := by
  obtain ⟨p, d, ho, hr⟩ := read_of_mem_scanFrom h
  obtain ⟨-, -, -, -, -, -, hs, -⟩ := hr.shape
  rw [hs]
  exact ho.offset_le

/-- **No literal starts before the one before it has ended.** -/
theorem pairwise_scanFrom (c : Cursor) : (scanFrom c).Pairwise fun i j => i.stop ≤ j.start := by
  fun_induction scanFrom c with
  | case1 c => exact List.Pairwise.nil
  | case2 c x t hc ih =>
    obtain ⟨p, -, he⟩ := walk_step hc
    rw [List.pairwise_append]
    refine ⟨?_, ih, ?_⟩
    · cases (step c x t).1 with
      | none => exact List.Pairwise.nil
      | some i => exact List.pairwise_singleton _ i
    · intro i hi j hj
      rw [(he.read (Option.mem_toList.mp hi)).stop_eq]
      exact offset_le_start hj

/-- The parts of the source around an import. -/
theorem parts_of_mem_scan {source : Text} {i : Import} (h : i ∈ scan source) :
    ∃ before q after, isQuote q ∧ Inside q i.raw ∧ source = before ++ (quoted q i.raw ++ after) ∧
      Text.bytes before = i.start ∧ i.stop = i.start + Text.bytes (quoted q i.raw) := by
  obtain ⟨p, d, ho, hr⟩ := read_of_mem_scanFrom h
  obtain ⟨q, rest, hq, hin, hp, -, hstart, hstop⟩ := hr.shape
  refine ⟨p.behind.reverse, q, rest, hq, hin, ?_, ?_, hstop⟩
  · rw [← hp]
    exact ho.whole_eq.symm
  · rw [Text.bytes_reverse, hstart, Cursor.offset]

/-- **The spans of a scan.** Every import stands between two equal quotes on character boundaries of
the source, its text is what the quotes enclose and closes the string nowhere earlier, and the
literals follow one another without overlap. -/
theorem scan_spans (source : Text) :
    (∀ i ∈ scan source, i.start + 2 ≤ i.stop ∧ i.stop ≤ Text.bytes source ∧
      ∃ before q after, isQuote q ∧ Inside q i.raw ∧
        Text.splitAt? i.start source = some (before, quoted q i.raw ++ after) ∧
        Text.splitAt? i.stop source = some (before ++ quoted q i.raw, after)) ∧
    (scan source).Pairwise fun i j => i.stop ≤ j.start := by
  refine ⟨fun i hi => ?_, pairwise_scanFrom _⟩
  obtain ⟨before, q, after, hq, hin, hs, hstart, hstop⟩ := parts_of_mem_scan hi
  have hsize := bytes_quoted hq i.raw
  have hs' : source = (before ++ quoted q i.raw) ++ after := by rw [hs, List.append_assoc]
  have hstop' : Text.bytes (before ++ quoted q i.raw) = i.stop := by
    rw [Text.bytes_append, hstart, hstop]
  refine ⟨by omega, ?_, before, q, after, hq, hin, ?_, ?_⟩
  · have hb := congrArg Text.bytes hs'
    rw [Text.bytes_append, hstop'] at hb
    omega
  · exact Text.splitAt?_eq_some_iff.mpr ⟨hs, hstart⟩
  · exact Text.splitAt?_eq_some_iff.mpr ⟨hs', hstop'⟩

/-- A literal after a longer character, with a quote that a backslash escapes. -/
theorem scan_spans_escaped :
    let source := "é;import 'a\\'b';".toList
    let i : Import := ⟨10, 16, "a\\'b".toList, .static⟩
    i ∈ scan source ∧ i.start + 2 ≤ i.stop ∧ i.stop ≤ Text.bytes source := by
  have h : (⟨10, 16, "a\\'b".toList, .static⟩ : Import) ∈ scan "é;import 'a\\'b';".toList := by
    decide +kernel
  exact ⟨h, ((scan_spans _).1 _ h).1, ((scan_spans _).1 _ h).2.1⟩

end Unbundled.Import
