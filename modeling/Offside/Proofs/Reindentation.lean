/-
Other indentation units.

With another unit a source has the same tokens and so the same clauses. Written out, the unit stands
behind line breaks only.
-/
import Offside.Proofs.Accepted
import Offside.Proofs.Layout.Indented

set_option autoImplicit false

namespace Offside

open List Text SourceHistory Layout

/-! ## Writing with two units -/

theorem Text.pieces_append_of_line {sep : UInt8} {p t first : Text} {others : List Text} (hp : sep ∉ p)
    (ht : t.pieces sep = first :: others) : (p ++ t).pieces sep = (p ++ first) :: others := by
  induction p with
  | nil => exact ht
  | cons b p ih =>
    rw [mem_cons, not_or] at hp
    rw [cons_append, pieces, if_neg (Ne.symm hp.1), ih hp.2]
    rfl

/-- The first line is the same with all units, and the others are indented with the unit. -/
def Fragment.Indents (x : Text → Text) : Prop :=
  ∃ (first : Text) (lines : List (Nat × Text)), ∀ u, lineEnd ∉ u →
    (x u).pieces lineEnd = first :: lines.map (lineAt u)

namespace Fragment

variable {x : Text → Text}

theorem Indents.cons (h : Indents x) (b : UInt8) : Indents fun u => b :: x u := by
  obtain ⟨first, lines, h⟩ := h
  by_cases hb : b = lineEnd
  · refine ⟨[], (0, first) :: lines, fun u hu => ?_⟩
    rw [pieces, if_pos hb, h u hu]
    rfl
  · refine ⟨b :: first, lines, fun u hu => ?_⟩
    rw [pieces, if_neg hb, h u hu]

theorem Indents.append (h : Indents x) (text : Text) : Indents fun u => text ++ x u := by
  induction text with
  | nil => exact h
  | cons b text ih => exact ih.cons b

theorem Indents.lineBreak (h : Indents x) (level : Int) :
    Indents fun u => (Piece.lineBreak level).render u ++ x u := by
  obtain ⟨first, lines, h⟩ := h
  refine ⟨[], (level.toNat, first) :: lines, fun u hu => ?_⟩
  have hbreak : (Piece.lineBreak level).render u ++ x u =
      [] ++ lineEnd :: (repeated level.toNat u ++ x u) := rfl
  dsimp only
  rw [hbreak, pieces_append, pieces_append_of_line (lineEnd_not_mem_repeated hu level.toNat) (h u hu)]
  rfl

/-- The unit stands behind line breaks only. -/
theorem indents_render (f : Fragment) : Indents fun u => f.render u := by
  induction f with
  | nil => exact ⟨[], [], fun _ _ => rfl⟩
  | cons piece f ih =>
    cases piece with
    | code text | comment text | verbatim text => exact ih.append text
    | lineBreak level => exact ih.lineBreak level

end Fragment

theorem Layout.lineAt_repeated (n : Nat) (u : Text) (line : Nat × Text) :
    lineAt (repeated n u) line = lineAt u (line.1 * n, line.2) := by
  rw [lineAt, lineAt, repeated_mul]

namespace History

/-- The body is lines with levels, whatever the unit. -/
theorem exists_lines_body (tokens : List Token) : ∃ lines : List (Nat × Text), ∀ u, lineEnd ∉ u →
      (run u tokens).body.pieces lineEnd = lines.map (lineAt u) := by
  -- The clauses do not depend on the unit.
  obtain ⟨first, lines, h⟩ := Fragment.indents_render ((run [] tokens).clauses.flatMap Clause.fragment)
  refine ⟨(0, first) :: lines, fun u hu => ?_⟩
  have hbody : (run u tokens).body = Fragment.render u ((run [] tokens).clauses.flatMap Clause.fragment) := by
    rw [Fragment.render, flatMap_assoc, flatMap_def]
    rfl
  rw [hbody, h u hu]
  rfl

/-- The same for the unit that a source fixes. If none of its lines is indented then the default
unit is part of the lines. -/
theorem exists_lines_unitOr (depth : Nat) (tokens : List Token) :
    ∃ lines : List (Nat × Text), ∀ u : Text, u.isEmpty = false → u.Leading →
      (run (Stream.unitOr (repeated depth u)) tokens).body.pieces lineEnd =
        lines.map (lineAt u) := by
  rcases depth with _ | depth
  · refine ⟨((run (Stream.unitOr []) tokens).body.pieces lineEnd).map fun line => (0, line), fun u _ _ => ?_⟩
    rw [map_map]
    exact (map_id _).symm
  · obtain ⟨lines, hlines⟩ := exists_lines_body tokens
    refine ⟨lines.map fun line => (line.1 * (depth + 1), line.2), fun u hu hindent => ?_⟩
    rw [Reading.unitOr_of_known (repeated_isEmpty hu _),
      hlines _ (lineEnd_not_mem_repeated (lineEnd_not_mem_of_indent hindent) _), map_map]
    exact map_congr_left fun line _ => lineAt_repeated _ u line

end History

/-! ## Translating with two units -/

/-- The unit does not matter. A source that is indented with `u` and the same source indented with
`u'` are both rejected by the scanner, at the same line, or they have the same tokens. Then both are
rejected with the same error, or their bodies have the same lines, indented with `u` and with `u'`. -/
theorem translation_reindented {u u' : Text} {lines : List (Nat × Text)} (hu : u ≠ []) (hu' : u' ≠ [])
    (hindent : ∀ b ∈ u, Text.isIndent b = true) (hindent' : ∀ b ∈ u', Text.isIndent b = true)
    (hlines : ∀ line ∈ lines, Layout.Unindented line.2) :
    (∃ e e', (scan [] (Layout.sourceOf u lines)).outcome = .error e ∧
      (scan [] (Layout.sourceOf u' lines)).outcome = .error e' ∧ e'.line = e.line) ∨
    ∃ scanned scanned', (scan [] (Layout.sourceOf u lines)).outcome = .ok scanned ∧
      (scan [] (Layout.sourceOf u' lines)).outcome = .ok scanned' ∧ scanned'.tokens = scanned.tokens ∧
      ((∃ e, (SourceHistory.run [] (Layout.sourceOf u lines)).error? = some (.parse e) ∧
        (SourceHistory.run [] (Layout.sourceOf u' lines)).error? = some (.parse e)) ∨
      ∃ (h h' : History) (written : List (Nat × Text)), SourceHistory.Accepts [] (Layout.sourceOf u lines) h ∧
        SourceHistory.Accepts [] (Layout.sourceOf u' lines) h' ∧ h'.helpers = h.helpers ∧
        h.body.pieces Text.lineEnd = written.map (Layout.lineAt u) ∧
        h'.body.pieces Text.lineEnd = written.map (Layout.lineAt u')) := by
  have hu := isEmpty_eq_false_iff.mpr hu
  have hu' := isEmpty_eq_false_iff.mpr hu'
  rcases scan_reindented hu hu' hindent hindent' hlines with herror | ⟨depth, tokens, hscan, hscan'⟩
  · exact .inl herror
  refine .inr ⟨_, _, hscan, hscan', rfl, ?_⟩
  -- Steps do not depend on the unit, only texts do.
  have hstop : ∀ unit, (History.run unit tokens).stop? = (History.run [] tokens).stop? := fun _ => rfl
  rcases History.ends_run [] tokens with ⟨e, he⟩ | ⟨hnone, -⟩
  · refine .inl ⟨e, ?_, ?_⟩
    · rw [SourceHistory.error?, SourceHistory.history_of_scan hscan]
      dsimp only
      rw [hstop, he]
    · rw [SourceHistory.error?, SourceHistory.history_of_scan hscan']
      dsimp only
      rw [hstop, he]
  · obtain ⟨written, hbody⟩ := History.exists_lines_unitOr depth tokens
    exact .inr ⟨_, _, written, ⟨SourceHistory.history_of_scan hscan, (hstop _).trans hnone⟩,
      ⟨SourceHistory.history_of_scan hscan', (hstop _).trans hnone⟩, rfl, hbody u hu hindent, hbody u' hu' hindent'⟩

/-- Tabs and spaces, where the unit of the source is two tabs or six spaces. -/
theorem translation_reindented_tabs :
    let lines : List (Nat × Text) := [(0, ("while a:" : String)), (2, ("if b: # c" : String)), (4, ("d = 1" : String)),
      (0, [])]
    ∃ (h h' : History) (written : List (Nat × Text)),
      SourceHistory.Accepts [] (Layout.sourceOf ("\t" : String) lines) h ∧
      SourceHistory.Accepts [] (Layout.sourceOf ("   " : String) lines) h' ∧ h'.helpers = h.helpers ∧
      h.body.pieces Text.lineEnd = written.map (Layout.lineAt ("\t" : String)) ∧
      h'.body.pieces Text.lineEnd = written.map (Layout.lineAt ("   " : String)) := by
  intro lines
  have hlines : ∀ line ∈ lines, Layout.Unindented line.2 := by
    have hall : ∀ line ∈ lines, Text.lineEnd ∉ line.2 ∧ (∀ b ∈ line.2.head?, Text.isIndent b = false) ∧
        Reading.opensRaw (Reading.content line.2) = false := by decide +kernel
    exact fun line hline => ⟨(hall line hline).1, (hall line hline).2.1, (hall line hline).2.2⟩
  have hnone : (SourceHistory.run [] (Layout.sourceOf ("\t" : String) lines)).error? = none := by decide +kernel
  have htab : ∀ b ∈ (("\t" : String) : Text), Text.isIndent b = true := all_eq_true.mp rfl
  have hspaces : ∀ b ∈ (("   " : String) : Text), Text.isIndent b = true := all_eq_true.mp rfl
  have hne : (("\t" : String) : Text) ≠ [] ∧ (("   " : String) : Text) ≠ [] :=
    ⟨cons_ne_nil _ _, cons_ne_nil _ _⟩
  rcases translation_reindented hne.1 hne.2 htab hspaces hlines with
    ⟨e, _, he, -⟩ | ⟨_, _, -, -, -, ⟨e, he, -⟩ | haccepts⟩
  · rw [SourceHistory.error?, SourceHistory.run, he] at hnone
    cases hnone
  · rw [he] at hnone
    cases hnone
  · exact haccepts

end Offside
