/-
White space at the ends of lines.

The content of a line and the text of a raw line are cut off before their last gaps. That takes a
unit of spaces and tabs: with any other, the margin of a raw block could reach into the gaps.
-/
import Offside.Proofs.Layout.Deepening

set_option autoImplicit false

namespace Offside

open List Text Reading

namespace Text

def Padded (line line' : Text) : Prop := ∃ gaps, (∀ b ∈ gaps, isGap b) ∧ line' = line ++ gaps

theorem padded_refl (line : Text) : Padded line line :=
  ⟨[], forall_mem_nil _, (append_nil line).symm⟩

theorem padded_chomp (line : Text) : Padded (chomp line) line := by
  rw [chomp]
  split
  · next hlast =>
    obtain ⟨front, rfl⟩ := getLast?_eq_some_iff.mp hlast
    rw [dropLast_concat]
    exact ⟨['\r'.toUInt8], forall_mem_singleton.mpr rfl, rfl⟩
  · exact padded_refl line

/-- Carriage returns are gaps at the ends of lines. -/
theorem padded_lines (t : Text) : Forall₂ Padded t.lines (pieces lineEnd t) := by
  induction t using induction_on_lines with
  | line p hp =>
    rw [lines_line hp, pieces_of_line hp]
    exact .cons (padded_refl p) .nil
  | more p t hp ih =>
    rw [lines_more hp, pieces_append, pieces_of_line hp]
    exact .cons (padded_chomp p) ih

theorem trimEnd_append {p : UInt8 → Bool} {gaps : Text} (h : ∀ b ∈ gaps, p b) (t : Text) :
    trimEnd p (t ++ gaps) = trimEnd p t := by
  rw [trimEnd, trimEnd, reverse_append, dropWhile_append_of_pos]
  exact fun b hb => h b (mem_reverse.mp hb)

end Text

namespace Reading

variable {number : Nat} {line line' unit gaps : Text} {lines lines' : List Text} {s s' : Reading}

/-! ## One line -/

theorem not_isIndent_of_content (h : (content line).isEmpty = false) : ∃ b ∈ line, isIndent b = false := by
  by_contra hall
  have hblank : (content line).isEmpty := content_isEmpty_iff.mpr fun b hb => by
    rw [isGap, Bool.or_eq_true]
    by_contra hgap
    exact hall ⟨b, hb, by simpa using fun hindent => hgap (.inl hindent)⟩
  rw [h] at hblank
  cases hblank

theorem content_append_gaps (h : ∀ b ∈ gaps, isGap b) (line : Text) :
    content (line ++ gaps) = content line := by
  rw [content, content, dropWhile_append]
  split
  · next hempty =>
    -- The line is all indentation, so both contents are empty.
    have hgaps : ∀ b ∈ gaps.dropWhile isIndent, isGap b :=
      fun b hb => h b ((dropWhile_sublist _).subset hb)
    rw [List.isEmpty_iff.mp hempty]
    exact trimEnd_append hgaps []
  · exact trimEnd_append h _

theorem indentation_append_gaps (hcontent : (content line).isEmpty = false) (gaps : Text) :
    indentation (line ++ gaps) = indentation line := by
  rw [indentation, indentation, takeWhile_append, if_neg]
  intro hlength
  obtain ⟨b, hb, hindent⟩ := not_isIndent_of_content hcontent
  rw [← (List.takeWhile_prefix isIndent).eq_of_length hlength] at hb
  rw [mem_takeWhile_imp hb] at hindent
  cases hindent

theorem prefix_indentation_iff {margin : Text} (h : margin.Leading) :
    margin <+: line ↔ margin <+: indentation line := by
  constructor
  · rintro ⟨rest, rfl⟩
    rw [indentation_append h]
    exact prefix_append _ _
  · exact fun hprefix => hprefix.trans (List.takeWhile_prefix _)

theorem rawText?_append_gaps (hindent : unit.Leading)
    (hgaps : ∀ b ∈ gaps, isGap b) (hcontent : (content line).isEmpty = false) (base : Nat) :
    (rawText? unit base (line ++ gaps)).map (trimEnd isGap) =
      (rawText? unit base line).map (trimEnd isGap) := by
  have hmargin := leading_repeated hindent (base + 1)
  rw [rawText?, rawText?]
  split
  · rfl
  rw [after?, after?]
  by_cases hprefix : repeated (base + 1) unit <+: line
  · obtain ⟨rest, rfl⟩ := hprefix
    rw [append_assoc, if_pos (List.isPrefixOf_iff_prefix.mpr (prefix_append _ _)),
      if_pos (List.isPrefixOf_iff_prefix.mpr (prefix_append _ _)), drop_left, drop_left,
      Option.map_some, Option.map_some, trimEnd_append hgaps]
  · have hprefix' : ¬ repeated (base + 1) unit <+: line ++ gaps := by
      rw [prefix_indentation_iff hmargin, indentation_append_gaps hcontent, ← prefix_indentation_iff hmargin]
      exact hprefix
    rw [if_neg (mt List.isPrefixOf_iff_prefix.mp hprefix), if_neg (mt List.isPrefixOf_iff_prefix.mp hprefix')]

/-- Gaps at the end of a line make no difference. -/
theorem readLine_padded (number : Nat) (hindent : s.unit.Leading) (h : Padded line line') :
    readLine number line' s = readLine number line s := by
  obtain ⟨gaps, hgaps, rfl⟩ := h
  have hcontent := content_append_gaps hgaps line
  cases hblank : (content line).isEmpty with
  | true =>
    have hblank' : (content (line ++ gaps)).isEmpty := by rw [hcontent, hblank]
    rcases hraw : s.raw with _ | block
    · rw [readLine_of_none hraw, readLine_of_none hraw, if_pos hblank, if_pos hblank']
    · rw [readLine_of_some hraw, readLine_of_some hraw, if_pos hblank, if_pos hblank']
  | false =>
    have hwords : ∀ r, readWords number (line ++ gaps) r = readWords number line r := fun r => by
      rw [readWords, readWords, hcontent, indentation_append_gaps hblank]
    have hunit : s.unitAt (line ++ gaps) = s.unitAt line := by
      rw [unitAt, unitAt, indentation_append_gaps hblank]
    rcases hraw : s.raw with _ | block
    · rw [readLine_of_none hraw, readLine_of_none hraw, hcontent, hwords]
    · rw [readLine_of_some hraw, readLine_of_some hraw, hcontent, hblank, hunit]
      have htext := rawText?_append_gaps (leading_unitAt hindent line) hgaps hblank block.base
      rcases htext₁ : rawText? (s.unitAt line) block.base line with _ | text <;>
        rcases htext₂ : rawText? (s.unitAt line) block.base (line ++ gaps) with _ | text' <;>
        rw [htext₁, htext₂] at htext
      · exact hwords _
      · cases htext
      · cases htext
      · rw [Option.map_some, Option.map_some, Option.some_inj] at htext
        dsimp only
        rw [htext]

/-! ## All lines -/

theorem Reads.leading (h : Reads number line s s')
    (hindent : s.unit.Leading) : s'.unit.Leading := by
  rcases h.unit_cases with hunit | hunit
  · rwa [hunit]
  · rw [hunit]
    exact leading_indentation line

/-- Nor do they at the ends of all lines. -/
theorem readLines_padded (hindent : s.unit.Leading)
    (h : Forall₂ Padded lines lines') (number : Nat) : readLines number lines' s = readLines number lines s := by
  induction h generalizing number s with
  | nil => rfl
  | @cons line line' lines lines' hline _ ih =>
    have hsame := readLine_padded number hindent hline
    rw [readLines, readLines]
    rcases hread : readLine number line s with ⟨_, s₁⟩ | ⟨e, s₁⟩
    · rw [bind_of_ok _ hread, bind_of_ok _ (hsame.trans hread)]
      exact ih ((readLine_ok hread).leading hindent) _
    · rw [bind_of_error _ hread, bind_of_error _ (hsame.trans hread)]

theorem readLines_lines (hindent : s.unit.Leading) (number : Nat) (source : Text) :
    readLines number source.lines s = readLines number (source.pieces lineEnd) s :=
  (readLines_padded hindent (padded_lines source) number).symm

def outcome : EStateM.Result ScanError Reading Unit → Except ScanError Scanned
  | .ok _ s => .ok ⟨Stream.unitOr s.unit, Row.allTokens s.rows.reverse⟩
  | .error e _ => .error e

end Reading

theorem scan_outcome {unit : Text} (hindent : unit.Leading) (source : Text) :
    (scan unit source).outcome =
      outcome (readLines 1 (source.pieces lineEnd) { unit := unit }) := by
  rw [scan, EStateM.run, readLines_lines hindent]
  rcases readLines 1 (source.pieces lineEnd) { unit := unit } with ⟨_, s⟩ | ⟨e, s⟩ <;> rfl

/-- So a source and the same with gaps at its line ends are scanned alike. -/
theorem scan_eq_of_padded {unit source source' : Text} (hindent : unit.Leading)
    (h : Forall₂ Text.Padded (source.pieces lineEnd) (source'.pieces lineEnd)) :
    scan unit source' = scan unit source := by
  have hread : readLines 1 source'.lines { unit := unit } =
      readLines 1 source.lines { unit := unit } := by
    rw [readLines_lines hindent, readLines_lines hindent]
    exact readLines_padded hindent h 1
  rw [scan, scan, EStateM.run, EStateM.run, hread]

end Offside
