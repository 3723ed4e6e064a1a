/-
The unit of a source.

The first line that is indented fixes the unit, whether it has words or is raw. Lines before it are
not indented, so the unit does not matter to them.
-/
import Offside.Proofs.Layout.Padding
import Offside.Proofs.Layout.Refusal

set_option autoImplicit false

namespace Offside

open Reading

namespace Reading

variable {unit line : Text} {lines : List Text} {s s' t : Reading}

def firstIndentation : List Text → Text
  | [] => []
  | line :: lines =>
    if (content line).isEmpty || (indentation line).isEmpty then firstIndentation lines
    else indentation line

/-- The unit with which lines are read and written: the one that is given, or else the one that they
fix. -/
def learnedUnit (unit : Text) (lines : List Text) : Text :=
  Stream.unitOr (if unit.isEmpty then firstIndentation lines else unit)

theorem learnedUnit_of_known (h : unit.isEmpty = false) (lines : List Text) : learnedUnit unit lines = unit := by
  rw [learnedUnit, h, if_neg Bool.false_ne_true]
  exact unitOr_of_known h

theorem unitOr_isEmpty (unit : Text) : (Stream.unitOr unit).isEmpty = false := by
  rw [Stream.unitOr]
  split
  · rfl
  · next h => rwa [Bool.not_eq_true] at h

theorem leading_unitOr (hindent : unit.Leading) :
    Text.Leading (Stream.unitOr unit) := by
  rw [Stream.unitOr]
  split
  · exact List.all_eq_true.mp rfl
  · exact hindent

theorem learnedUnit_isEmpty (unit : Text) (lines : List Text) : (learnedUnit unit lines).isEmpty = false :=
  unitOr_isEmpty _

theorem learnedUnit_nil (unit : Text) : learnedUnit unit [] = Stream.unitOr unit := by
  rw [learnedUnit]
  split
  · next h => rw [List.isEmpty_iff.mp h, firstIndentation]
  · rfl

theorem leading_firstIndentation (lines : List Text) :
    Text.Leading (firstIndentation lines) := by
  induction lines with
  | nil => exact List.forall_mem_nil _
  | cons line lines ih =>
    rw [firstIndentation]
    split
    · exact ih
    · exact leading_indentation _

theorem isIndent_of_mem_learnedUnit (hindent : unit.Leading) (lines : List Text) :
    Text.Leading (learnedUnit unit lines) := by
  refine leading_unitOr ?_
  split
  · exact leading_firstIndentation lines
  · exact hindent

/-! ## What a line adds -/

theorem learnedUnit_of_blank (hblank : (content line).isEmpty) (unit : Text) (lines : List Text) :
    learnedUnit unit (line :: lines) = learnedUnit unit lines := by
  rw [learnedUnit, learnedUnit, firstIndentation, hblank, Bool.true_or, if_pos rfl]

theorem learnedUnit_unitAt (hcontent : (content line).isEmpty = false) (s : Reading) (lines : List Text) :
    learnedUnit (s.unitAt line) lines = learnedUnit s.unit (line :: lines) := by
  cases hunit : s.unit.isEmpty with
  | false => rw [unitAt_of_known hunit, learnedUnit_of_known hunit, learnedUnit_of_known hunit]
  | true =>
    rw [unitAt, hunit, if_pos rfl, learnedUnit, learnedUnit, hunit, if_pos rfl, firstIndentation, hcontent,
      Bool.false_or]

theorem unitAt_eq_learnedUnit (hcontent : (content line).isEmpty = false)
    (hindented : ¬ (indentation line).isEmpty) (s : Reading) (lines : List Text) :
    s.unitAt line = learnedUnit s.unit (line :: lines) := by
  rw [← learnedUnit_unitAt hcontent, learnedUnit_of_known]
  rw [Bool.not_eq_true] at hindented
  rw [unitAt]
  split
  · exact hindented
  · next h => rwa [Bool.not_eq_true] at h

/-! ## Reading with the unit known -/

/-- `t` has read the same lines as `s`, but knows the unit that the next lines fix. -/
structure Known (lines : List Text) (s t : Reading) : Prop where
  indent : s.unit.Leading
  unit : t.unit = learnedUnit s.unit lines
  rows : t.rows = s.rows
  raw : t.raw = s.raw

theorem Known.unitAt_eq (h : Known (line :: lines) s t) : t.unitAt line = learnedUnit s.unit (line :: lines) := by
  rw [unitAt_of_known (by rw [h.unit]; exact learnedUnit_isEmpty _ _), h.unit]

theorem Known.unit_at (h : Known (line :: lines) s t) (hcontent : (content line).isEmpty = false) :
    (indentation line).isEmpty ∨ t.unitAt line = s.unitAt line := by
  by_cases hindented : (indentation line).isEmpty
  · exact .inl hindented
  · exact .inr (h.unitAt_eq.trans (unitAt_eq_learnedUnit hcontent hindented s lines).symm)

theorem Known.rawText?_eq (h : Known (line :: lines) s t) (hcontent : (content line).isEmpty = false)
    (base : Nat) : rawText? (t.unitAt line) base line = rawText? (s.unitAt line) base line := by
  rcases h.unit_at hcontent with hflat | hsame
  · have hnil := List.isEmpty_iff.mp hflat
    rw [h.unitAt_eq, rawText?_eq_none base (learnedUnit_isEmpty _ _) (isIndent_of_mem_learnedUnit h.indent _) hnil]
    cases hunit : (s.unitAt line).isEmpty with
    | true => rw [rawText?, hunit, if_pos rfl]
    | false => rw [rawText?_eq_none base hunit (leading_unitAt h.indent line) hnil]
  · rw [hsame]

/-- A line of words is read the same with the unit known. -/
theorem Known.readWords (h : Known (line :: lines) s t) (hcontent : (content line).isEmpty = false) (number : Nat) :
    Matched (Known lines) Eq (readWords number line s) (readWords number line t) := by
  have hunit := h.unit_at hcontent
  have hmatched : Relocated number (Reading.readWords number line s) (Reading.readWords number line t) :=
    readWords_relocated (by rw [SameAbove, h.rows]) hunit
  generalize hs : Reading.readWords number line s = r at hmatched
  generalize ht : Reading.readWords number line t = r' at hmatched
  cases hmatched with
  | @error e e' s' t' he =>
    refine .error ?_
    rw [he, ← readWords_error hs]
  | @ok _ s' t' hlevel =>
    obtain ⟨level, words, detected, -, -, hwords, rfl⟩ := readWords_ok hs
    obtain ⟨level', words', detected', -, -, hwords', rfl⟩ := readWords_ok ht
    obtain rfl : level' = level := Option.some.inj hlevel
    obtain rfl : words = words' := Except.ok.inj (hwords.symm.trans hwords')
    refine .ok ⟨leading_unitAt h.indent line, ?_, ?_, rfl⟩
    · exact h.unitAt_eq.trans (learnedUnit_unitAt hcontent s lines).symm
    · rw [h.rows]

/-- So is every line. -/
theorem Known.step (h : Known (line :: lines) s t) (number : Nat) :
    Matched (Known lines) Eq (readLine number line s) (readLine number line t) := by
  cases hblank : (content line).isEmpty with
  | true =>
    have hunit := h.unit
    rw [learnedUnit_of_blank hblank] at hunit
    rcases hraw : s.raw with _ | block
    · rw [readLine_of_none hraw, readLine_of_none (h.raw.trans hraw), if_pos hblank, if_pos hblank]
      exact .ok ⟨h.indent, hunit, h.rows, h.raw⟩
    · rw [readLine_of_some hraw, readLine_of_some (h.raw.trans hraw), if_pos hblank, if_pos hblank]
      exact .ok ⟨h.indent, hunit, h.rows, rfl⟩
  | false =>
    rcases hraw : s.raw with _ | block
    · rw [readLine_of_none hraw, readLine_of_none (h.raw.trans hraw), hblank, if_neg Bool.false_ne_true,
        if_neg Bool.false_ne_true]
      exact h.readWords hblank number
    · rw [readLine_of_some hraw, readLine_of_some (h.raw.trans hraw), hblank, if_neg Bool.false_ne_true,
        if_neg Bool.false_ne_true, h.rawText?_eq hblank]
      have hunit : t.unitAt line = learnedUnit (s.unitAt line) lines :=
        h.unitAt_eq.trans (learnedUnit_unitAt hblank s lines).symm
      have hindent := leading_unitAt h.indent line
      rcases rawText? (s.unitAt line) block.base line with _ | text
      · have hagain : learnedUnit (s.unitAt line) (line :: lines) = learnedUnit (s.unitAt line) lines := by
          have hsame := learnedUnit_unitAt hblank { s with unit := s.unitAt line, raw := none } lines
          rw [unitAt_unitAt] at hsame
          exact hsame.symm
        have hknown : Known (line :: lines) { s with unit := s.unitAt line, raw := none }
            { t with unit := t.unitAt line, raw := none } := ⟨hindent, hunit.trans hagain.symm, h.rows, rfl⟩
        exact hknown.readWords hblank number
      · exact .ok ⟨hindent, hunit, by rw [h.rows], rfl⟩

/-- So are all lines. -/
theorem Known.run (h : Known lines s t) (number : Nat) :
    Matched (Known []) Eq (readLines number lines s) (readLines number lines t) := by
  induction lines generalizing number s t with
  | nil => exact .ok h
  | cons line lines ih => exact (h.step number).bind fun _ _ _ h => ih h (number + 1)

end Reading

/-- A source is scanned as if the unit that it fixes had been given. -/
theorem scan_learnedUnit {unit : Text} (hindent : unit.Leading) (source : Text) :
    (scan unit source).outcome = (scan (learnedUnit unit (source.pieces Text.lineEnd)) source).outcome := by
  rw [scan_outcome hindent, scan_outcome (isIndent_of_mem_learnedUnit hindent _)]
  generalize source.pieces Text.lineEnd = lines
  have hknown : Reading.Known lines { unit := unit } { unit := learnedUnit unit lines } :=
    ⟨hindent, rfl, rfl, rfl⟩
  have hmatched := hknown.run 1
  generalize readLines 1 lines { unit := unit } = r at hmatched
  generalize readLines 1 lines { unit := learnedUnit unit lines } = r' at hmatched
  cases hmatched with
  | ok h =>
    rw [outcome, outcome, h.rows, h.unit, learnedUnit_nil,
      unitOr_of_known (unitOr_isEmpty _)]
  | error h => exact congrArg Except.error h

end Offside
